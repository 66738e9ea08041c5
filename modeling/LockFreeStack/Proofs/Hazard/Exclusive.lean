import LockFreeStack.Proofs.Hazard.Orderly
import LockFreeStack.Proofs.Hazard.Stores

/-!
The records and claims of all threads together. No record serves two claims, and no thread comes to
own two records of one table.
-/

namespace LockFreeStack

variable {α : Type} {m : Memory α} {ts ts' : Tables} {me : Thread} {token : Nat} {p : Point α}

/-- No owner has two records of one table. -/
def Tables.OneEach (ts : Tables) : Prop :=
  ∀ place place' r r', ts.record? place = some r → ts.record? place' = some r' →
    r.owner = r'.owner → r.owner ≠ 0 → place.table = place'.table → place = place'

namespace Tables.OneEach

/-- Nobody comes to own another record. -/
theorem mono (o : ts.OneEach) (h : ∀ place r', ts'.record? place = some r' → r'.owner ≠ 0 →
    ∃ r, ts.record? place = some r ∧ r.owner = r'.owner) : ts'.OneEach := by
  intro place place' r r' hr hr' howner h0 htable
  obtain ⟨s, hs, hso⟩ := h place r hr h0
  obtain ⟨s', hs', hso'⟩ := h place' r' hr' (howner ▸ h0)
  exact o place place' s s' hs hs' (by rw [hso, hso', howner]) (hso ▸ h0) htable

theorem publish (o : ts.OneEach) (q : Place) (a : Address) : (ts.publish q a).OneEach := by
  refine o.mono fun place r' hr' _ => ?_
  rw [record?_publish] at hr'
  split at hr'
  · obtain ⟨r, hr, rfl⟩ := Option.map_eq_some_iff.mp hr'
    exact ⟨r, hr, rfl⟩
  · exact ⟨r', hr', rfl⟩

theorem disown (o : ts.OneEach) (q : Place) : (ts.setOwner q 0).OneEach := by
  refine o.mono fun place r' hr' h0 => ?_
  rw [record?_setOwner] at hr'
  split at hr'
  · obtain ⟨r, -, rfl⟩ := Option.map_eq_some_iff.mp hr'
    exact absurd rfl h0
  · exact ⟨r', hr', rfl⟩

/-- An owner without a record of the table may come to own one. -/
theorem seize (o : ts.OneEach) {q : Place}
    (lacks : ∀ place r, ts.record? place = some r → r.owner = token → place.table ≠ q.table) :
    (ts.setOwner q token).OneEach := by
  have cases {place : Place} {r : Record} (hr : (ts.setOwner q token).record? place = some r) :
      place = q ∧ r.owner = token ∨ place ≠ q ∧ ts.record? place = some r := by
    rw [record?_setOwner] at hr
    split at hr
    · rename_i hq
      obtain ⟨-, -, rfl⟩ := Option.map_eq_some_iff.mp hr
      exact .inl ⟨hq, rfl⟩
    · rename_i hq
      exact .inr ⟨hq, hr⟩
  intro place place' r r' hr hr' howner h0 htable
  obtain ⟨rfl, ho⟩ | ⟨-, hold⟩ := cases hr <;> obtain ⟨rfl, ho'⟩ | ⟨-, hold'⟩ := cases hr'
  · rfl
  · exact absurd htable.symm (lacks place' r' hold' (howner.symm.trans ho))
  · exact absurd htable (lacks place r hold (howner.trans ho'))
  · exact o place place' r r' hold hold' howner h0 htable

end Tables.OneEach

namespace Operation

/-- The assertion of a claim does not fail, so an acquisition ends with a claim or finds the table
exhausted. -/
theorem next_acquire_ne {table : Nat} {purpose : Purpose} {q : Acquire.Point}
    (k : Acquire.Keeps table m.tables token
      (Acquire.step (α := α) table purpose.pins (m.tables, me) q)) (n : Nat) :
    (step (m, me) (.acquire table purpose q)).next ≠ .done (.trouble (.panic (.secondClaim n))) := by
  intro h
  simp only [step] at h
  rcases ho : Acquire.step (α := α) table purpose.pins (m.tables, me) q with
    ⟨⟨ts', me'⟩, q' | (e | d) | f, notes⟩ <;> rw [ho] at k h
  · cases h
  · obtain ⟨-, -, capacity, rfl⟩ := k.next
    cases h
  · cases purpose with
    | lend => cases h
    | _ =>
      simp only [acquired] at h
      split at h <;> cases h
  · cases h

end Operation

namespace Seated

/-- A thread that seizes a record owns none of the table. -/
theorem lacks_records {table : Nat} {purpose : Purpose} {q : Claiming.Point}
    (s : Seated ts me (some (.acquire table purpose (.claiming q) : Point α))) {place : Place} {r : Record}
    (hr : ts.record? place = some r) (ho : r.owner = me.token) : place.table ≠ table := by
  obtain ⟨c, hc, hp⟩ := (s.owns.owner place r hr ho).resolve_left (by simp [Point.site?, Acquire.Point.site?])
  exact s.fitting _ rfl c place hc hp

theorem oneEach (s : Seated m.tables me (some p)) (o : m.tables.OneEach) :
    (Operation.step (m, me) p).memory.1.tables.OneEach := by
  have h := Operation.stores_step m me p
  generalize (Operation.step (m, me) p).memory.1.tables = ts' at h
  cases h with
  | same => exact o
  | store place a => exact o.publish place a
  | disown place => exact o.disown place
  | seize table k _ h =>
    obtain ⟨purpose, rfl⟩ := Point.exists_acquire h
    exact o.seize fun place r hr ho => s.lacks_records hr ho

end Seated

namespace Hazard.Crowd

variable {x : Crowd α} {i c : Nat}

theorem oneEach_move (orderly : x.Orderly) (o : x.memory.tables.OneEach) (mv : Move α) :
    (x.move mv).memory.tables.OneEach := by
  cases mv with
  | call i c =>
    simp only [move]
    split <;> exact o
  | step i =>
    rcases hb : x.busy i with _ | ⟨c, p⟩
    · simpa only [move, hb] using o
    · have one := (orderly.seated_of_busy hb).oneEach o
      simp only [move, hb]
      rcases ho : Operation.step (x.memory, x.me i) p with ⟨st, q | a | f, notes⟩ <;> rw [ho] at one
      · exact one
      · exact one
      · exact o
  | miss i =>
    rcases hb : x.busy i with _ | ⟨c, p⟩
    · simpa only [move, hb] using o
    · simp only [move, hb]
      cases hm : p.miss? x.memory with
      | none => exact o
      | some out => exact tables_miss hm ▸ o
  | change c =>
    exact o.mono fun place r hr h0 => ⟨r, (c.leaves x.memory place r h0 h0).mp hr, rfl⟩

theorem oneEach_after (ms : List (Move α)) : (after ms).memory.tables.OneEach := by
  induction ms using List.reverseRecOn with
  | nil =>
    intro place place' r r' hr
    simp [after, start, Memory.empty, Tables.record?] at hr
  | append_singleton ms mv ih =>
    rw [after_append_singleton]
    exact oneEach_move (orderly_after ms) ih mv

/-- A thread has one live claim on a table at most. -/
theorem Orderly.eq_of_table (o : x.Orderly) (one : x.memory.tables.OneEach) {d : Nat} {place q : Place}
    (hc : (x.me i).isLive c) (hd : (x.me i).isLive d) (hp : (x.me i).place? c = some place)
    (hq : (x.me i).place? d = some q) (ht : place.table = q.table) : c = d := by
  obtain ⟨r, hr, ho⟩ := (o.seated i).owns.claimed c place hc hp
  obtain ⟨r', hr', ho'⟩ := (o.seated i).owns.claimed d q hd hq
  -- Two claims on one table would be two records of the thread there.
  obtain rfl := one place q r r' hr hr' (ho.trans ho'.symm) (ho ▸ o.token_ne_zero i) ht
  exact (o.seated i).owns.distinct c d place hc hd hp hq

/-- Thread `i` has a slot of the claim `c`: by a name, in a body that runs with it, or for the
operation that it is in. -/
def HasSlot (x : Crowd α) (i c : Nat) : Prop :=
  (∃ name, (name, c) ∈ (x.me i).slots.entries) ∨ c ∈ (x.me i).lent ∨
    (x.point i).bind Point.hand? = some c

theorem Orderly.isLive_of_hasSlot (o : x.Orderly) (h : x.HasSlot i c) : (x.me i).isLive c := by
  have counts := (o.seated i).counts
  obtain ⟨name, h⟩ | h | h := h
  · have hpos : 0 < (x.me i).slots.count c := List.countP_pos_iff.mpr ⟨_, h, by simp⟩
    exact counts.isLive_of_uses (by unfold Thread.uses; omega)
  · have hpos := List.count_pos_iff.mpr h
    exact counts.isLive_of_uses (by unfold Thread.uses; omega)
  · rw [h] at counts
    exact counts.isLive_of_eq_some

/-- Claims, slots and records fit each other. No claim shares its record, the slots that a thread has
for one table are handles to one claim, and whoever claims a record owns none of that table yet. -/
structure Exclusive (x : Crowd α) : Prop where
  token : ∀ i, (x.me i).token = i + 1
  claims : ∀ i j c d place, (x.me i).isLive c → (x.me j).isLive d → (x.me i).place? c = some place →
    (x.me j).place? d = some place → i = j ∧ c = d
  records : x.memory.tables.OneEach
  slots : ∀ i c d place place', x.HasSlot i c → x.HasSlot i d → (x.me i).place? c = some place →
    (x.me i).place? d = some place' → place.table = place'.table → c = d ∧ place = place'
  live : ∀ i c, x.HasSlot i c → (x.me i).isLive c
  owned : ∀ i c, (x.me i).isLive c → ∃ place r, (x.me i).place? c = some place ∧
    x.memory.tables.record? place = some r ∧ r.owner = (x.me i).token
  checked : ∀ i call table purpose k r,
    x.busy i = some (call, .acquire table purpose (.claiming (.check k))) →
    x.memory.tables.record? ⟨table, k⟩ = some r → r.owner ≠ (x.me i).token
  unasserted : ∀ i call table purpose q n, x.busy i = some (call, .acquire table purpose q) →
    (Operation.step (x.memory, x.me i) (.acquire table purpose q)).next ≠
      .done (.trouble (.panic (.secondClaim n)))

/-- Claims, slots and records fit each other in every state that the threads come to. -/
theorem slots_exclusive (ms : List (Move α)) : (after ms).Exclusive := by
  have o := orderly_after ms
  have one := oneEach_after ms
  have owned {i c : Nat} {place : Place} (hc : ((after ms).me i).isLive c)
      (hp : ((after ms).me i).place? c = some place) :
      ∃ r, (after ms).memory.tables.record? place = some r ∧ r.owner = i + 1 := by
    obtain ⟨r, hr, ho⟩ := (o.seated i).owns.claimed c place hc hp
    exact ⟨r, hr, ho.trans (o.token i)⟩
  refine ⟨o.token, ?claims, one, ?slots, fun i c => o.isLive_of_hasSlot, ?owned, ?checked, ?unasserted⟩
  case claims =>
    intro i j c d place hc hd hp hq
    obtain ⟨r, hr, hi⟩ := owned hc hp
    obtain ⟨r', hr', hj⟩ := owned hd hq
    obtain rfl := Option.some.inj (hr.symm.trans hr')
    obtain rfl : i = j := by omega
    exact ⟨rfl, (o.seated i).owns.distinct c d place hc hd hp hq⟩
  case slots =>
    intro i c d place place' hc hd hp hq htable
    have hc := o.isLive_of_hasSlot hc
    have hd := o.isLive_of_hasSlot hd
    obtain rfl := o.eq_of_table one hc hd hp hq htable
    exact ⟨rfl, Option.some.inj (hp.symm.trans hq)⟩
  case owned =>
    intro i c hc
    obtain ⟨place, hp⟩ := Thread.exists_place hc
    obtain ⟨r, hr, ho⟩ := owned hc hp
    exact ⟨place, r, hp, hr, ho.trans (o.token i).symm⟩
  case checked =>
    intro i call table purpose k r hb hr ho
    exact (o.seated_of_busy hb).lacks_records hr ho rfl
  case unasserted =>
    intro i call table purpose q n hb
    have s := o.seated_of_busy hb
    have sound : Acquire.Sound table (after ms).memory.tables ((after ms).me i) q :=
      ⟨s.counts, s.owns, s.fitting _ rfl⟩
    exact Operation.next_acquire_ne (sound.step (o.token_ne_zero i)) n

end Hazard.Crowd

end LockFreeStack
