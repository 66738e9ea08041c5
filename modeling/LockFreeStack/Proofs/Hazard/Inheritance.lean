import LockFreeStack.Proofs.Hazard.Moves

/-!
Nobody inherits an address. A record without an owner publishes null, and what a record publishes was
stored there by the thread that has owned it ever since.
-/

namespace LockFreeStack

variable {α : Type} {m : Memory α} {me : Thread} {p q : Point α} {place : Place} {r : Record}

namespace Hazard.Crowd

variable {x : Crowd α} {i j : Nat} {ms : List (Move α)}

/-- A record without an owner, or about to have none, publishes null. -/
structure Clean (x : Crowd α) : Prop where
  vacant : ∀ place r, x.memory.tables.record? place = some r → r.owner = 0 → r.published = .null
  leaving : ∀ i place r, x.disowns? i = some place → x.memory.tables.record? place = some r →
    r.published = .null

theorem Orderly.owner_of_disowns? (o : x.Orderly) (h : x.disowns? i = some place)
    (hr : x.memory.tables.record? place = some r) : r.owner = i + 1 := by
  obtain ⟨p, hp, hd⟩ := Option.bind_eq_some_iff.mp h
  have s := o.seated i
  rw [hp] at s
  exact o.owner_eq hr (s.owner_of_disown? hd)

namespace Clean

theorem start : (start : Crowd α).Clean :=
  ⟨fun place r hr => by simp [Crowd.start, Memory.empty, Tables.record?] at hr, fun i place r h => by cases h⟩

theorem vacant_move (k : x.Clean) (o : x.Orderly) (mv : Move α) {r' : Record}
    (hr' : (x.move mv).memory.tables.record? place = some r') (h0 : r'.owner = 0) :
    r'.published = .null := by
  obtain ⟨r, hr, h⟩ | ⟨-, -, rfl⟩ := record_of_move o mv hr'
  · cases h with
    | same => exact k.vacant place _ hr h0
    | store i a _ _ owner => exact absurd (owner.symm.trans h0) (Nat.succ_ne_zero i)
    | disown i _ h => exact k.leaving i place r h hr
    | seize i => exact absurd h0 (Nat.succ_ne_zero i)
  · rfl

/-- The moves of the others leave alone what a thread is about to disown. -/
theorem leaving_rest (k : x.Clean) (o : x.Orderly) {r' : Record} (hd : x.disowns? j = some place)
    (hr' : (x.move mv).memory.tables.record? place = some r') : r'.published = .null := by
  obtain ⟨r, hr, h⟩ | ⟨-, -, rfl⟩ := record_of_move o mv hr'
  · have null := k.leaving j place r hd hr
    cases h with
    | same | disown | seize => exact null
    | store i a _ h owner =>
      obtain rfl : i = j := by
        have := o.owner_of_disowns? hd hr
        omega
      obtain ⟨p, hp, disowns⟩ := Option.bind_eq_some_iff.mp hd
      rw [stores?, hp] at h
      cases (Point.store?_of_disown? disowns).symm.trans h
  · rfl

theorem leaving_step {r' : Record} (hq : (Operation.step (m, me) p).next = .goto q)
    (h : q.disown? = some place)
    (hr' : (Operation.step (m, me) p).memory.1.tables.record? place = some r') :
    r'.published = .null := by
  have cleared := ((Operation.leads hq).cleared_of_disown? h).2
  have stores := Operation.stores_step m me p
  cases hr : m.tables.record? place with
  | none => cases (stores.absent hr).symm.trans hr'
  | some r =>
    obtain ⟨s, hs, alters⟩ := stores.alters hr
    obtain rfl := Option.some.inj (hr'.symm.trans hs)
    cases alters with
    | same store => exact absurd cleared (store _)
    | store a h =>
      obtain ⟨-, rfl⟩ := Prod.mk.inj (Option.some.inj (h.symm.trans cleared))
      rfl
    | disown h => cases (Point.store?_of_disown? h).symm.trans cleared
    | seize h => cases (Point.store?_of_claiming? h).symm.trans cleared

theorem leaving_move (k : x.Clean) (o : x.Orderly) (mv : Move α) {r' : Record}
    (hd : (x.move mv).disowns? j = some place)
    (hr' : (x.move mv).memory.tables.record? place = some r') : r'.published = .null := by
  have h := x.becomes j mv
  rw [disowns?, point] at hd
  generalize (x.move mv).me j = me, (x.move mv).busy j = b at h hd
  cases h with
  | rests => exact k.leaving_rest o hd hr'
  | calls c p idle starts => simp [starts.plain] at hd
  | steps c p busy =>
    cases hq : (Operation.step (x.memory, x.me j) p).next with
    | goto q =>
      rw [move_step busy fun f hf => by rw [hq] at hf; cases hf] at hr'
      exact leaving_step hq (by simpa [hq, Next.point?] using hd) hr'
    | done | fault => simp [hq, Next.point?] at hd
  | misses c p q m busy missed =>
    simp [Point.plain_of_not_onRecords (Point.not_onRecords_of_miss missed)] at hd

theorem move (k : x.Clean) (o : x.Orderly) (mv : Move α) : (x.move mv).Clean :=
  ⟨fun _ _ => k.vacant_move o mv, fun _ _ _ => k.leaving_move o mv⟩

end Clean

theorem clean_after (ms : List (Move α)) : (after ms).Clean := by
  induction ms using List.reverseRecOn with
  | nil => exact .start
  | append_singleton ms mv ih => exact after_append_singleton ms mv ▸ ih.move (orderly_after ms) mv

/-- The owner of the record has stored what it publishes, as its owner, and nothing has happened to the
record since. -/
def Written (ms : List (Move α)) (place : Place) (r : Record) : Prop :=
  ∃ past i since, ms = past ++ .step i :: since ∧ r.owner = i + 1 ∧
    (after past).stores? i = some (place, r.published) ∧
    (∃ r₀, (after past).memory.tables.record? place = some r₀ ∧ r₀.owner = i + 1) ∧
    ∀ ds, ds <+: since → (after (past ++ .step i :: ds)).memory.tables.record? place = some r

theorem Written.snoc {mv : Move α} (h : Written ms place r)
    (hr : (after (ms ++ [mv])).memory.tables.record? place = some r) : Written (ms ++ [mv]) place r := by
  obtain ⟨past, i, since, rfl, owner, stored, owned, kept⟩ := h
  refine ⟨past, i, since ++ [mv], by simp, owner, stored, owned, fun ds hds => ?_⟩
  obtain rfl | hds := List.prefix_concat_iff.mp hds
  · simpa using hr
  · exact kept ds hds

theorem written_after (ms : List (Move α)) (place : Place) (r : Record)
    (hr : (after ms).memory.tables.record? place = some r) (hp : r.published ≠ .null) :
    Written ms place r := by
  induction ms using List.reverseRecOn generalizing r with
  | nil => simp [after, start, Memory.empty, Tables.record?] at hr
  | append_singleton ms mv ih =>
    have k := clean_after ms
    have hr' := hr
    rw [after_append_singleton] at hr'
    obtain ⟨r₀, hr₀, h⟩ | ⟨-, -, rfl⟩ := record_of_move (orderly_after ms) mv hr'
    · cases h with
      | same => exact (ih _ hr₀ hp).snoc hr
      | store i a move h owner =>
        subst move
        refine ⟨ms, i, [], rfl, owner, h, ⟨r₀, hr₀, owner⟩, fun ds hds => ?_⟩
        rw [List.prefix_nil.mp hds]
        exact hr
      | disown i _ h => exact absurd (k.leaving i place r₀ h hr₀) hp
      | seize i _ _ free => exact absurd (k.vacant place r₀ hr₀ free) hp
    · exact absurd rfl hp

/-- What the records publish after some moves. -/
structure Uninherited (ms : List (Move α)) : Prop where
  vacant : ∀ place r, (after ms).memory.tables.record? place = some r → r.owner = 0 → r.published = .null
  written : ∀ place r, (after ms).memory.tables.record? place = some r → r.published ≠ .null →
    Written ms place r
  seized : ∀ i place r, (after ms).claims? i = some (place.table, .seize place.index) →
    (after ms).memory.tables.record? place = some r → r.owner = 0 →
    r.published = .null ∧ (after (ms ++ [.step i])).memory.tables.record? place = some ⟨i + 1, .null⟩
  begun : ∀ mv place r r', (after ms).memory.tables.record? place = some r →
    (after (ms ++ [mv])).memory.tables.record? place = some r' → r.owner = 0 → r'.owner ≠ 0 →
    ∃ i, mv = .step i ∧ (after ms).claims? i = some (place.table, .seize place.index) ∧
      r'.owner = i + 1

/-- No owner of a record finds an address there that it has not stored itself. -/
theorem nothing_inherited (ms : List (Move α)) : Uninherited ms := by
  have o := orderly_after ms
  have k := clean_after ms
  refine ⟨k.vacant, written_after ms, fun i place r hc hr h0 => ?seized, ?begun⟩
  case seized =>
    have null := k.vacant place r hr h0
    exact ⟨null, by rw [after_append_singleton, record_seized o hc hr h0, null]⟩
  case begun =>
    intro mv place r r' hr hr' h0 h1
    rw [after_append_singleton] at hr'
    obtain ⟨r₀, hr₀, h⟩ | ⟨hr₀, -⟩ := record_of_move o mv hr'
    · obtain rfl := Option.some.inj (hr.symm.trans hr₀)
      cases h with
      | same => exact absurd h0 h1
      | store i a _ _ owner => omega
      | disown => exact absurd rfl h1
      | seize i move h => exact ⟨i, move, h, rfl⟩
    · cases hr.symm.trans hr₀

end Hazard.Crowd

end LockFreeStack
