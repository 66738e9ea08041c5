import LockFreeStack.Proofs.Hazard.Leads
import LockFreeStack.Proofs.Hazard.Orderly

/-!
The moves of a crowd one by one, and what each does to a record. A thread stores only to a record of
its own, disowns only such a record, and seizes only one that nobody owns.
-/

namespace LockFreeStack

variable {α : Type} {m : Memory α} {me : Thread} {ts ts' : Tables} {p q : Point α} {place : Place}
  {r r' : Record}

namespace Point

theorem store?_of_disown? (h : p.disown? = some place) : p.store? me = none := by
  unfold disown? at h
  split at h <;> first | rfl | cases h

theorem store?_of_claiming? {c : Nat × Claiming.Point} (h : p.claiming? = some c) :
    p.store? me = none := by
  unfold claiming? at h
  split at h
  · rfl
  · cases h

theorem disown?_of_claiming? {c : Nat × Claiming.Point} (h : p.claiming? = some c) :
    p.disown? = none := by
  unfold claiming? at h
  split at h
  · rfl
  · cases h

theorem plain_of_not_onRecords (h : ¬p.OnRecords) : p.disown? = none ∧ p.claiming? = none := by
  cases p <;> first | exact ⟨rfl, rfl⟩ | exact absurd trivial h

/-- No exchange of an owner is missed. -/
theorem not_onRecords_of_miss {m' : Memory α} (h : p.miss? m = some (m', q)) : ¬q.OnRecords := by
  unfold miss? at h
  split at h
  case h_5 => cases h
  all_goals
    obtain ⟨-, rfl⟩ := Prod.mk.inj (Option.some.inj h)
    exact id

end Point

namespace Hazard.Call

/-- Where the calls start, and what they need for it. -/
inductive Starts (m : Memory α) (me : Thread) : Call α → Point α → Prop
  | push (s : Nat) (v : α) (granted : Bool) (h : s < m.hazards.size) :
    Starts m me (.push s v granted) (.hazardPush s (.allocate v granted))
  | pop (s : Nat) (h : s < m.hazards.size) :
    Starts m me (.pop s) (.acquire (m.hazard s).table (.pop s) .lookup)
  | popWith (s : Nat) (slot : String) (c : Nat) (h : s < m.hazards.size) (hc : me.slot? slot = some c) :
    Starts m me (.popWith s slot) (.popWith s c)
  | reclaim (s : Nat) (h : s < m.hazards.size) :
    Starts m me (.reclaim s) (.drain (m.hazard s).list (m.hazard s).table .detach)
  | register (t : Nat) (slot : String) (h : t < m.tables.size) :
    Starts m me (.register t slot) (.acquire t (.register slot) .lookup)
  | lend (t : Nat) (h : t < m.tables.size) : Starts m me (.lend t) (.acquire t .lend .lookup)
  | takeBack (h : me.lent ≠ []) : Starts m me .takeBack .takeBack
  | publish (slot : String) (a : Address) (c : Nat) (hc : me.slot? slot = some c) :
    Starts m me (.publish slot a) (.publish c a)
  | dropSlot (slot : String) (h : me.slots.contains slot) : Starts m me (.dropSlot slot) (.dropSlot slot)
  | exit (h : me.lent = []) : Starts m me .exit .exit

theorem starts {c : Call α} (h : c.start? m me = some p) : Starts m me c p := by
  cases c with
  | popWith s slot =>
    simp only [start?, Option.ite_none_right_eq_some, Option.map_eq_some_iff] at h
    obtain ⟨hs, d, hd, rfl⟩ := h
    exact .popWith s slot d hs hd
  | publish slot a =>
    obtain ⟨d, hd, rfl⟩ := Option.map_eq_some_iff.mp h
    exact .publish slot a d hd
  | _ =>
    simp only [start?, Option.ite_none_right_eq_some, Option.ite_none_left_eq_some,
      Option.some.injEq] at h
    obtain ⟨h, rfl⟩ := h
    constructor
    exact h

/-- No call starts in the middle of a release or a claim. -/
theorem Starts.plain {c : Call α} (h : Starts m me c p) : p.disown? = none ∧ p.claiming? = none := by
  cases h <;> exact ⟨rfl, rfl⟩

end Hazard.Call

/-- What the next step of a thread does to the record at a place. -/
inductive Alters (me : Thread) (p : Point α) (place : Place) (r : Record) : Record → Prop
  | same (store : ∀ a, p.store? me ≠ some (place, a)) (disown : p.disown? ≠ some place)
    (owned : p.claiming? = some (place.table, .seize place.index) → r.owner ≠ 0) : Alters me p place r r
  | store (a : Address) (h : p.store? me = some (place, a)) :
    Alters me p place r { r with published := a }
  | disown (h : p.disown? = some place) : Alters me p place r { r with owner := 0 }
  | seize (h : p.claiming? = some (place.table, .seize place.index)) (free : r.owner = 0) :
    Alters me p place r { r with owner := me.token }

namespace Stores

theorem alters (h : Stores me p ts ts') (hr : ts.record? place = some r) :
    ∃ r', ts'.record? place = some r' ∧ Alters me p place r r' := by
  cases h with
  | same store disown owned =>
    exact ⟨r, hr, .same (by simp [store]) (by simp [disown]) fun hp => owned _ _ r hp hr⟩
  | store q a h =>
    rw [Tables.record?_publish]
    by_cases hq : place = q
    · subst hq
      exact ⟨_, by rw [if_pos rfl, hr]; rfl, .store a h⟩
    · refine ⟨r, by rw [if_neg hq, hr], .same (fun b hb => ?_) (fun hd => ?_) fun hp => ?_⟩
      · exact hq (Prod.mk.inj (Option.some.inj (hb.symm.trans h))).1
      · simp [Point.store?_of_disown? hd] at h
      · simp [Point.store?_of_claiming? hp] at h
  | disown q h =>
    rw [Tables.record?_setOwner]
    by_cases hq : place = q
    · subst hq
      exact ⟨_, by rw [if_pos rfl, hr]; rfl, .disown h⟩
    · refine ⟨r, by rw [if_neg hq, hr], .same (by simp [Point.store?_of_disown? h]) (fun hd => ?_) fun hp => ?_⟩
      · exact hq (Option.some.inj (hd.symm.trans h))
      · simp [Point.disown?_of_claiming? hp] at h
  | seize t k s h free owner =>
    have hs : p.store? me = none := Point.store?_of_claiming? h
    have hd := Point.disown?_of_claiming? h
    rw [Tables.record?_setOwner]
    by_cases hq : place = ⟨t, k⟩
    · subst hq
      obtain rfl := Option.some.inj (hr.symm.trans free)
      exact ⟨_, by rw [if_pos rfl, hr]; rfl, .seize h owner⟩
    · refine ⟨r, by rw [if_neg hq, hr], .same (by simp [hs]) (by simp [hd]) fun hp => ?_⟩
      obtain ⟨ht, hk⟩ := Prod.mk.inj (Option.some.inj (hp.symm.trans h))
      exact absurd (by cases place; cases hk; exact congrArg (Place.mk · _) ht) hq

theorem absent (h : Stores me p ts ts') (hr : ts.record? place = none) : ts'.record? place = none := by
  cases h with
  | same => exact hr
  | store q a => simp [Tables.record?_publish, hr]
  | disown q => simp [Tables.record?_setOwner, hr]
  | seize t k => simp [Tables.record?_setOwner, hr]

theorem size (h : Stores me p ts ts') : ts'.size = ts.size := by
  cases h with
  | same => rfl
  | store q a => exact Array.size_modify
  | disown q => exact Array.size_modify
  | seize t k => exact Array.size_modify

end Stores

namespace Seated

theorem owned (s : Seated ts me (some p)) {c : Nat} (hc : me.isLive c) (hp : me.place? c = some place) :
    ∃ r, ts.record? place = some r ∧ r.owner = me.token :=
  s.owns.claimed c place hc hp

theorem owner_of_site? (s : Seated ts me (some p)) (h : p.site? = some place) :
    ∃ r, ts.record? place = some r ∧ r.owner = me.token :=
  (s.owns.returned place h).1

/-- A thread stores to a record of its own. -/
theorem owner_of_store? {a : Address} (s : Seated ts me (some p)) (h : p.store? me = some (place, a)) :
    ∃ r, ts.record? place = some r ∧ r.owner = me.token := by
  have fitting := s.fitting p rfl
  unfold Point.store? at h
  split at h
  case h_1 | h_2 | h_3 =>
    cases h
    exact s.owner_of_site? rfl
  case h_4 | h_5 | h_6 =>
    cases h
    obtain ⟨c, hc, hp⟩ := fitting
    exact s.owned hc hp
  case h_7 =>
    obtain ⟨_, hp, h⟩ := Option.map_eq_some_iff.mp h
    cases h
    exact s.owned fitting hp
  case h_8 | h_9 => exact fitting.elim
  case h_10 => cases h

theorem owner_of_disown? (s : Seated ts me (some p)) (h : p.disown? = some place) :
    ∃ r, ts.record? place = some r ∧ r.owner = me.token := by
  unfold Point.disown? at h
  split at h
  case h_4 => cases h
  all_goals
    cases h
    exact s.owner_of_site? rfl

end Seated

namespace Hazard

theorem Change.record (c : Change) (hr : m.tables.record? place = some r) :
    (c.apply m).tables.record? place = some r := by
  cases c with
  | registry capacity =>
    have hlt : place.table < m.tables.size := by
      by_contra hge
      simp [Tables.record?, Array.getElem?_eq_none (Nat.le_of_not_lt hge)] at hr
    simp only [apply]
    split
    · simpa only [Memory.addTable, Tables.record?, Array.getElem?_push, if_neg (Nat.ne_of_lt hlt)] using hr
    · exact hr
  | handle t => exact (record?_setHandles m.tables t (· + 1) place).trans hr
  | unhandle t => exact (record?_setHandles m.tables t (· - 1) place).trans hr
  | stack t =>
    simp only [apply]
    split
    · exact (record?_setHandles m.tables t (· + 1) place).trans hr
    · exact hr
  | recycleNode k | recycleEntry k => exact hr

/-- New tables come with new records. -/
theorem Change.record_cases (c : Change) (hr : (c.apply m).tables.record? place = some r) :
    m.tables.record? place = some r ∨ m.tables.size ≤ place.table ∧ r = {} := by
  cases c with
  | registry capacity =>
    by_cases hc : capacity = 0
    · simp only [apply, Table.new, hc, ↓reduceIte] at hr
      exact .inl hr
    · simp only [apply, Table.new, hc, ↓reduceIte, Memory.addTable, Tables.record?, Array.getElem?_push] at hr
      by_cases ht : place.table = m.tables.size
      · simp only [ht, ↓reduceIte] at hr
        exact .inr ⟨ht.ge, (Array.mem_replicate.mp (Array.mem_of_getElem? hr)).2⟩
      · rw [if_neg ht] at hr
        exact .inl hr
  | handle t => exact .inl ((record?_setHandles m.tables t (· + 1) place).symm.trans hr)
  | unhandle t => exact .inl ((record?_setHandles m.tables t (· - 1) place).symm.trans hr)
  | stack t =>
    simp only [apply] at hr
    split at hr
    · exact .inl ((record?_setHandles m.tables t (· + 1) place).symm.trans hr)
    · exact .inl hr
  | recycleNode k | recycleEntry k => exact .inl hr

theorem Change.size_le (c : Change) (m : Memory α) : m.tables.size ≤ (c.apply m).tables.size := by
  cases c with
  | registry capacity =>
    simp only [apply]
    split
    · exact (Array.size_push _).symm ▸ Nat.le_succ _
    · exact Nat.le_refl _
  | handle t | unhandle t => exact Array.size_modify.ge
  | stack t =>
    simp only [apply]
    split
    · exact Array.size_modify.ge
    · exact Nat.le_refl _
  | recycleNode k | recycleEntry k => exact Nat.le_refl _

namespace Crowd

variable {x : Crowd α} {i : Nat} {c : Call α}

/-- The threads after a move. -/
inductive Moves (x : Crowd α) : Move α → Crowd α → Prop
  | stay (mv : Move α) : Moves x mv x
  | call (i : Nat) (c : Call α) (p : Point α) (idle : x.busy i = none)
    (starts : c.Starts x.memory (x.me i) p) :
    Moves x (.call i c) (x.set i (x.memory, x.me i) (some (c, p)))
  | step (i : Nat) (c : Call α) (p : Point α) (busy : x.busy i = some (c, p)) :
    Moves x (.step i) (x.set i (Operation.step (x.memory, x.me i) p).memory
      ((Operation.step (x.memory, x.me i) p).next.point?.map (c, ·)))
  | miss (i : Nat) (c : Call α) (p q : Point α) (m : Memory α) (busy : x.busy i = some (c, p))
    (h : p.miss? x.memory = some (m, q)) : Moves x (.miss i) (x.set i (m, x.me i) (some (c, q)))
  | change (c : Change) : Moves x (.change c) { x with memory := c.apply x.memory }

theorem move_step {p : Point α} (hb : x.busy i = some (c, p))
    (unfaulting : ∀ f, (Operation.step (x.memory, x.me i) p).next ≠ .fault f) :
    x.move (.step i) = x.set i (Operation.step (x.memory, x.me i) p).memory
      ((Operation.step (x.memory, x.me i) p).next.point?.map (c, ·)) := by
  simp only [move, hb]
  rcases ho : Operation.step (x.memory, x.me i) p with ⟨st, q | a | f, notes⟩ <;> rw [ho] at unfaulting
  · rfl
  · rfl
  · exact absurd rfl (unfaulting f)

theorem moves (x : Crowd α) (mv : Move α) : Moves x mv (x.move mv) := by
  cases mv with
  | call i c =>
    simp only [move]
    split
    · rename_i p hb hp
      exact .call i c p hb (Call.starts hp)
    · exact .stay _
  | step i =>
    cases hb : x.busy i with
    | none => simpa only [move, hb] using .stay _
    | some b =>
      obtain ⟨c, p⟩ := b
      have h := Moves.step i c p hb
      simp only [move, hb]
      rcases ho : Operation.step (x.memory, x.me i) p with ⟨st, q | a | f, notes⟩ <;> rw [ho] at h
      · exact h
      · exact h
      · exact .stay _
  | miss i =>
    cases hb : x.busy i with
    | none => simpa only [move, hb] using .stay _
    | some b =>
      obtain ⟨c, p⟩ := b
      simp only [move, hb]
      cases hm : p.miss? x.memory with
      | none => exact .stay _
      | some out => exact .miss i c p out.2 out.1 hb hm
  | change c => exact .change c

/-- The record that thread `i` is about to store to, and the address. -/
def stores? (x : Crowd α) (i : Nat) : Option (Place × Address) := (x.point i).bind (Point.store? (x.me i))

/-- The record whose owner thread `i` is about to reset. -/
def disowns? (x : Crowd α) (i : Nat) : Option Place := (x.point i).bind Point.disown?

/-- The table of which thread `i` is claiming a record, and how far the claim has come. -/
def claims? (x : Crowd α) (i : Nat) : Option (Nat × Claiming.Point) := (x.point i).bind Point.claiming?

theorem exists_busy {p : Point α} (h : x.point i = some p) : ∃ c, x.busy i = some (c, p) := by
  obtain ⟨⟨c, p⟩, hb, rfl⟩ := Option.map_eq_some_iff.mp h
  exact ⟨c, hb⟩

theorem point_of_busy {p : Point α} (hb : x.busy i = some (c, p)) : x.point i = some p := by
  rw [point, hb]
  rfl

/-- What a thread has of its own after a move, and the call that it is in. -/
inductive Becomes (x : Crowd α) (i : Nat) : Move α → Thread → Option (Call α × Point α) → Prop
  | rests (mv : Move α) : Becomes x i mv (x.me i) (x.busy i)
  | calls (c : Call α) (p : Point α) (idle : x.busy i = none) (starts : c.Starts x.memory (x.me i) p) :
    Becomes x i (.call i c) (x.me i) (some (c, p))
  | steps (c : Call α) (p : Point α) (busy : x.busy i = some (c, p)) :
    Becomes x i (.step i) (Operation.step (x.memory, x.me i) p).memory.2
      ((Operation.step (x.memory, x.me i) p).next.point?.map (c, ·))
  | misses (c : Call α) (p q : Point α) (m : Memory α) (busy : x.busy i = some (c, p))
    (h : p.miss? x.memory = some (m, q)) : Becomes x i (.miss i) (x.me i) (some (c, q))

theorem becomes (x : Crowd α) (i : Nat) (mv : Move α) :
    x.Becomes i mv ((x.move mv).me i) ((x.move mv).busy i) := by
  have h := x.moves mv
  generalize x.move mv = y at h
  have other {j : Nat} {st : Operation.State α} {b : Option (Call α × Point α)} {mv : Move α} (hj : i ≠ j) :
      x.Becomes i mv ((x.set j st b).me i) ((x.set j st b).busy i) := by
    rw [me_set_of_ne hj, busy_set_of_ne hj]
    exact .rests mv
  cases h with
  | stay | change => exact .rests _
  | call j c p idle starts =>
    by_cases hj : i = j
    · subst hj
      simpa using .calls c p idle starts
    · exact other hj
  | step j c p busy =>
    by_cases hj : i = j
    · subst hj
      simpa using .steps c p busy
    · exact other hj
  | miss j c p q m busy missed =>
    by_cases hj : i = j
    · subst hj
      simpa using .misses c p q m busy missed
    · exact other hj

/-- What a thread has of its own changes with its steps only. -/
theorem me_move (x : Crowd α) (i : Nat) (mv : Move α) :
    (x.move mv).me i = x.me i ∨ mv = .step i ∧ ∃ c p, x.busy i = some (c, p) ∧
      (x.move mv).me i = (Operation.step (x.memory, x.me i) p).memory.2 := by
  have h := x.becomes i mv
  generalize (x.move mv).me i = me, (x.move mv).busy i = b at h
  cases h with
  | rests | calls | misses => exact .inl rfl
  | steps c p busy => exact .inr ⟨rfl, c, p, busy, rfl⟩

/-- A thread stays in its call until the call is over. -/
theorem busy_move {p : Point α} (hb : x.busy i = some (c, p)) (mv : Move α) :
    (x.move mv).busy i = none ∨ ∃ q, (x.move mv).busy i = some (c, q) := by
  have h := x.becomes i mv
  generalize (x.move mv).me i = me, (x.move mv).busy i = b at h
  cases h with
  | rests => exact .inr ⟨p, hb⟩
  | calls d q idle => cases hb.symm.trans idle
  | steps d q busy =>
    obtain ⟨rfl, rfl⟩ := Prod.mk.inj (Option.some.inj (hb.symm.trans busy))
    cases (Operation.step (x.memory, x.me i) p).next.point? with
    | none => exact .inl rfl
    | some q => exact .inr ⟨q, rfl⟩
  | misses d q q' m busy =>
    obtain ⟨rfl, rfl⟩ := Prod.mk.inj (Option.some.inj (hb.symm.trans busy))
    exact .inr ⟨q', rfl⟩

/-- Nobody else interferes with an acquisition. -/
theorem acquiring_move {mv : Move α} {t : Nat} {purpose : Purpose} {a : Acquire.Point}
    (hb : x.busy i = some (c, .acquire t purpose a)) (others : mv ≠ .step i) :
    (x.move mv).busy i = some (c, .acquire t purpose a) ∧ (x.move mv).me i = x.me i := by
  have h := x.becomes i mv
  generalize (x.move mv).me i = me, (x.move mv).busy i = b at h
  cases h with
  | rests => exact ⟨hb, rfl⟩
  | calls d p idle => cases hb.symm.trans idle
  | steps => exact absurd rfl others
  | misses d p q m busy missed =>
    obtain ⟨rfl, rfl⟩ := Prod.mk.inj (Option.some.inj (hb.symm.trans busy))
    cases missed

/-- What a move does to the record at a place. -/
inductive Changes (x : Crowd α) (mv : Move α) (place : Place) (r : Record) : Record → Prop
  | same : Changes x mv place r r
  | store (i : Nat) (a : Address) (move : mv = .step i) (h : x.stores? i = some (place, a))
    (owner : r.owner = i + 1) : Changes x mv place r { r with published := a }
  | disown (i : Nat) (move : mv = .step i) (h : x.disowns? i = some place) (owner : r.owner = i + 1) :
    Changes x mv place r { r with owner := 0 }
  | seize (i : Nat) (move : mv = .step i)
    (h : x.claims? i = some (place.table, .seize place.index)) (free : r.owner = 0) :
    Changes x mv place r { r with owner := i + 1 }

theorem Orderly.owner_eq (o : x.Orderly) (hr : x.memory.tables.record? place = some r)
    (h : ∃ r, x.memory.tables.record? place = some r ∧ r.owner = (x.me i).token) : r.owner = i + 1 := by
  obtain ⟨r', hr', ho⟩ := h
  obtain rfl := Option.some.inj (hr.symm.trans hr')
  exact ho.trans (o.token i)

theorem Orderly.changes (o : x.Orderly) {p : Point α} (hb : x.busy i = some (c, p))
    (hr : x.memory.tables.record? place = some r) (h : Alters (x.me i) p place r r') :
    Changes x (.step i) place r r' := by
  have s := o.seated_of_busy hb
  have point := point_of_busy hb
  cases h with
  | same => exact .same
  | store a h =>
    exact .store i a rfl (by rw [stores?, point]; exact h) (o.owner_eq hr (s.owner_of_store? h))
  | disown h =>
    exact .disown i rfl (by rw [disowns?, point]; exact h) (o.owner_eq hr (s.owner_of_disown? h))
  | seize h free =>
    rw [o.token i]
    exact .seize i rfl (by rw [claims?, point]; exact h) free

theorem record_move (o : x.Orderly) (mv : Move α) (hr : x.memory.tables.record? place = some r) :
    ∃ r', (x.move mv).memory.tables.record? place = some r' ∧ x.Changes mv place r r' := by
  have h := x.moves mv
  generalize x.move mv = y at h
  cases h with
  | stay => exact ⟨r, hr, .same⟩
  | call => exact ⟨r, hr, .same⟩
  | step i c p hb =>
    obtain ⟨r', hr', h⟩ := (Operation.stores_step x.memory (x.me i) p).alters hr
    exact ⟨r', hr', o.changes hb hr h⟩
  | miss i c p q m hb hm => exact ⟨r, by simpa only [set, tables_miss hm] using hr, .same⟩
  | change c => exact ⟨r, c.record hr, .same⟩

/-- An exchange that finds no owner takes the record as it is. -/
theorem record_seized (o : x.Orderly) (h : x.claims? i = some (place.table, .seize place.index))
    (hr : x.memory.tables.record? place = some r) (h0 : r.owner = 0) :
    (x.move (.step i)).memory.tables.record? place = some ⟨i + 1, r.published⟩ := by
  obtain ⟨p, hp, hq⟩ := Option.bind_eq_some_iff.mp h
  obtain ⟨c, hb⟩ := exists_busy hp
  have unfaulting : ∀ f, (Operation.step (x.memory, x.me i) p).next ≠ .fault f := by
    obtain ⟨purpose, rfl⟩ := Point.exists_acquire hq
    exact Operation.unfaulting_acquire x.memory (x.me i) place.table purpose _
  obtain ⟨r', hr', alters⟩ := (Operation.stores_step x.memory (x.me i) p).alters hr
  rw [move_step hb unfaulting]
  cases alters with
  | same _ _ owned => exact absurd h0 (owned hq)
  | store a hs => cases (Point.store?_of_claiming? hq).symm.trans hs
  | disown hd => cases (Point.disown?_of_claiming? hq).symm.trans hd
  | seize => rwa [o.token i] at hr'

theorem record_of_move (o : x.Orderly) (mv : Move α)
    (hr' : (x.move mv).memory.tables.record? place = some r') :
    (∃ r, x.memory.tables.record? place = some r ∧ x.Changes mv place r r') ∨
      x.memory.tables.record? place = none ∧ x.memory.tables.size ≤ place.table ∧ r' = {} := by
  cases hr : x.memory.tables.record? place with
  | some r =>
    obtain ⟨s, hs, h⟩ := record_move o mv hr
    obtain rfl := Option.some.inj (hr'.symm.trans hs)
    exact .inl ⟨r, rfl, h⟩
  | none =>
    have h := x.moves mv
    generalize x.move mv = y at h hr'
    cases h with
    | stay | call => cases hr.symm.trans hr'
    | step i c p hb => cases ((Operation.stores_step x.memory (x.me i) p).absent hr).symm.trans hr'
    | miss i c p q m hb hm =>
      rw [set, tables_miss hm] at hr'
      cases hr.symm.trans hr'
    | change c =>
      obtain h | h := c.record_cases hr'
      · cases hr.symm.trans h
      · exact .inr ⟨rfl, h⟩

theorem size_le_move (x : Crowd α) (mv : Move α) :
    x.memory.tables.size ≤ (x.move mv).memory.tables.size := by
  have h := x.moves mv
  generalize x.move mv = y at h
  cases h with
  | stay | call => exact Nat.le_refl _
  | step i c p hb => exact (Operation.stores_step x.memory (x.me i) p).size.ge
  | miss i c p q m hb hm => simp only [set, tables_miss hm, Nat.le_refl]
  | change c => exact c.size_le x.memory

end Crowd

end Hazard

end LockFreeStack
