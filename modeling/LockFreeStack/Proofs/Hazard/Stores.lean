import LockFreeStack.Proofs.Hazard.Records

/-!
What the next step does to the records. It stores an address in one, gives one back, seizes one that
nobody owns, or leaves them all alone.
-/

namespace LockFreeStack

variable {α : Type} {m : Memory α} {me : Thread} {place : Place}

namespace Point

/-- The record that the next step stores to, and the address. -/
def store? (me : Thread) : Point α → Option (Place × Address)
  | acquire _ _ (.releasing _ place .clear) | release place .clear _ | exitRelease place .clear
  | hazardPop _ place _ .withdraw | hazardPop _ place _ (.clear ..) => some (place, .null)
  | hazardPop _ place _ (.protect (.publish a)) => some (place, a)
  | publish c a | follow _ c (.publish a) | tryPublish _ c a => (me.place? c).map fun place => (place, a)
  | _ => none

/-- The record whose owner the next step resets. -/
def disown? : Point α → Option Place
  | acquire _ _ (.releasing _ place .disown) | release place .disown _ | exitRelease place .disown =>
    some place
  | _ => none

/-- The table of which a record is being claimed, and how far the claim has come. -/
def claiming? : Point α → Option (Nat × Claiming.Point)
  | acquire table _ (.claiming q) => some (table, q)
  | _ => none

theorem exists_acquire {p : Point α} {t : Nat} {q : Claiming.Point} (h : p.claiming? = some (t, q)) :
    ∃ purpose, p = acquire t purpose (.claiming q) := by
  unfold claiming? at h
  split at h
  · cases h
    exact ⟨_, rfl⟩
  · cases h

end Point

/-- The tables after the next step of a thread. -/
inductive Stores (me : Thread) (p : Point α) (ts : Tables) : Tables → Prop
  | same (store : p.store? me = none) (disown : p.disown? = none)
    (owned : ∀ t k r, p.claiming? = some (t, .seize k) → ts.record? ⟨t, k⟩ = some r → r.owner ≠ 0) :
    Stores me p ts ts
  | store (place : Place) (a : Address) (h : p.store? me = some (place, a)) :
    Stores me p ts (ts.publish place a)
  | disown (place : Place) (h : p.disown? = some place) : Stores me p ts (ts.setOwner place 0)
  | seize (t k : Nat) (r : Record) (h : p.claiming? = some (t, .seize k))
    (free : ts.record? ⟨t, k⟩ = some r) (owner : r.owner = 0) :
    Stores me p ts (ts.setOwner ⟨t, k⟩ me.token)

/-- A step without a store that does not end a record's ownership or begin one. -/
theorem Stores.quiet {p : Point α} {ts ts' : Tables} (h : ts' = ts) (store : p.store? me = none)
    (disown : p.disown? = none) (claiming : p.claiming? = none) : Stores me p ts ts' :=
  h ▸ .same store disown fun t k r hp => by rw [claiming] at hp; cases hp

namespace Operation

theorem tables_letGo (m : Memory α) (me : Thread) (c : Nat) (answer : Answer α) :
    (letGo m me c answer).memory.1.tables = m.tables := by
  obtain ⟨me', h | ⟨place, h⟩⟩ := letGo_cases m me c answer <;> rw [h]

theorem tables_exit (m : Memory α) (me : Thread) : (exit m me).memory.1.tables = m.tables := by
  obtain ⟨me', h | h | ⟨place, h⟩⟩ := exit_cases m me <;> rw [h]

/-- An acquisition goes on, ends in trouble, or has come by its claim. -/
theorem acquire_cases (m : Memory α) (me : Thread) (table : Nat) (purpose : Purpose) (a : Acquire.Point) :
    (∃ ts me' b notes,
      Acquire.step (α := α) table purpose.pins (m.tables, me) a = ⟨(ts, me'), .goto b, notes⟩ ∧
        step (m, me) (.acquire table purpose a) =
          ⟨({ m with tables := ts }, me'), .goto (.acquire table purpose b), notes⟩) ∨
    (∃ ts me' e notes,
      Acquire.step (α := α) table purpose.pins (m.tables, me) a = ⟨(ts, me'), .done (.error e), notes⟩ ∧
        step (m, me) (.acquire table purpose a) =
          ⟨({ m with tables := ts }, me'), .done (.trouble e), notes⟩) ∨
    ∃ ts me' c notes,
      Acquire.step (α := α) table purpose.pins (m.tables, me) a = ⟨(ts, me'), .done (.ok c), notes⟩ ∧
        (step (m, me) (.acquire table purpose a)).memory =
          (acquired { m with tables := ts } me' c purpose).memory ∧
        (step (m, me) (.acquire table purpose a)).next =
          (acquired { m with tables := ts } me' c purpose).next := by
  have unfaulting := (Acquire.quiet_step (α := α) table purpose.pins (m.tables, me) a).1
  rcases ho : Acquire.step (α := α) table purpose.pins (m.tables, me) a with
    ⟨⟨ts', me'⟩, b | (e | c) | f, notes⟩
  · exact .inl ⟨_, _, _, _, rfl, by simp only [step, ho]⟩
  · exact .inr (.inl ⟨_, _, _, _, rfl, by simp only [step, ho]⟩)
  · exact .inr (.inr ⟨_, _, _, _, rfl, by simp only [step, ho], by simp only [step, ho]⟩)
  · exact absurd (by rw [ho]) (unfaulting f)

theorem unfaulting_acquire (m : Memory α) (me : Thread) (table : Nat) (purpose : Purpose) (a : Acquire.Point)
    (f : Fault) : (step (m, me) (.acquire table purpose a)).next ≠ .fault f := by
  intro hf
  have stays := (stays_acquire m me table purpose a).next
  rw [hf] at stays
  exact stays

theorem tables_acquire (m : Memory α) (me : Thread) (table : Nat) (purpose : Purpose) (a : Acquire.Point) :
    (step (m, me) (.acquire table purpose a)).memory.1.tables =
      (Acquire.step (α := α) table purpose.pins (m.tables, me) a).memory.1 := by
  obtain ⟨ts, me', b, notes, ha, h⟩ | ⟨ts, me', e, notes, ha, h⟩ | ⟨ts, me', c, notes, ha, h, -⟩ :=
    acquire_cases m me table purpose a
  · rw [ha, h]
  · rw [ha, h]
  · rw [ha, h]
    obtain ⟨me'', ⟨x, h⟩ | ⟨d, x, h⟩ | ⟨s, place, h⟩⟩ :=
      acquired_cases { m with tables := ts } me' c purpose <;> rw [h]

theorem stores_claiming (m : Memory α) (me : Thread) (table : Nat) (purpose : Purpose) (q : Claiming.Point) :
    Stores me (.acquire table purpose (.claiming q) : Point α) m.tables
      (Acquire.step (α := α) table purpose.pins (m.tables, me) (.claiming q)).memory.1 := by
  have stays (owned : ∀ k r, q = .seize k → m.tables.record? ⟨table, k⟩ = some r → r.owner ≠ 0) :
      Stores me (.acquire table purpose (.claiming q) : Point α) m.tables m.tables :=
    .same rfl rfl fun t k r hp hr => by cases hp; exact owned k r rfl hr
  have looks (h : ∀ k, q ≠ .seize k) :
      Stores me (.acquire table purpose (.claiming q) : Point α) m.tables m.tables :=
    stays fun k _ hq => absurd hq (h k)
  cases ht : m.tables[table]? with
  | none =>
    simp only [Acquire.step, ht]
    exact stays fun k r _ hr => by simp [Tables.record?, ht] at hr
  | some t =>
    cases q with
    | check k =>
      cases hr : t.records[k]? with
      | none => simpa only [Acquire.step, ht, Claiming.step, hr] using looks (by simp)
      | some r =>
        by_cases ho : r.owner = me.token <;>
          simpa only [Acquire.step, ht, Claiming.step, hr, ho, ↓reduceIte] using looks (by simp)
    | probe k =>
      cases hr : t.records[k]? with
      | none => simpa only [Acquire.step, ht, Claiming.step, hr] using looks (by simp)
      | some r =>
        by_cases h0 : me.token = 0 <;> by_cases ho : r.owner = 0 <;>
          simpa only [Acquire.step, ht, Claiming.step, hr, h0, ho, ↓reduceIte] using looks (by simp)
    | seize k =>
      have record : m.tables.record? ⟨table, k⟩ = t.records[k]? := by simp only [Tables.record?, ht]
      cases hr : t.records[k]? with
      | none =>
        simp only [Acquire.step, ht, Claiming.step, hr]
        exact stays fun j r hj hr' => by cases hj; simp [record, hr] at hr'
      | some r =>
        by_cases ho : r.owner = 0
        · simp only [Acquire.step, ht, Claiming.step, hr, ho, ↓reduceIte, Tables.set_setOwner ht]
          exact .seize table k r rfl (record.trans hr) ho
        · simp only [Acquire.step, ht, Claiming.step, hr, ho, ↓reduceIte]
          refine stays fun j r' hj hr' => ?_
          cases hj
          obtain rfl := Option.some.inj ((record.trans hr).symm.trans hr')
          exact ho

theorem stores_acquire (m : Memory α) (me : Thread) (table : Nat) (purpose : Purpose) (q : Acquire.Point) :
    Stores me (.acquire table purpose q : Point α) m.tables
      (Acquire.step (α := α) table purpose.pins (m.tables, me) q).memory.1 := by
  cases q with
  | lookup =>
    refine .quiet ?_ rfl rfl rfl
    simp only [Acquire.step]
    split <;> rfl
  | prune i => exact .quiet rfl rfl rfl rfl
  | releasing i place q =>
    cases q with
    | clear => exact .store place .null rfl
    | disown => exact .disown place rfl
  | claiming q => exact stores_claiming m me table purpose q

theorem stores_hazardPop (m : Memory α) (me : Thread) (s : Nat) (place : Place) (own : Option Nat)
    (q : Hazard.Pop α) :
    Stores me (.hazardPop s place own q) m.tables (q.step m s place).memory.tables := by
  cases q with
  | protect q =>
    cases q with
    | publish a => exact .store place a rfl
    | _ => exact .quiet rfl rfl rfl rfl
  | withdraw | clear => exact .store place .null rfl
  | reclaim q v => exact .quiet (Memory.tables_drainStep ..) rfl rfl rfl
  | park | insert => exact .quiet rfl rfl rfl rfl
  | _ =>
    refine .quiet ?_ rfl rfl rfl
    simp only [Hazard.Pop.step]
    repeat' split
    all_goals rfl

theorem stores_follow (m : Memory α) (me : Thread) (cell c : Nat) (q : Protect.Point) :
    Stores me (.follow cell c q : Point α) m.tables (step (m, me) (.follow cell c q)).memory.1.tables := by
  simp only [step]
  cases hp : me.place? c with
  | none => cases q <;> exact .quiet rfl (by simp [Point.store?, hp]) rfl rfl
  | some place =>
    cases q with
    | publish a => exact .store place a (by simp [Point.store?, hp])
    | _ => exact .quiet rfl rfl rfl rfl

theorem stores_step (m : Memory α) (me : Thread) (p : Point α) :
    Stores me p m.tables (step (m, me) p).memory.1.tables := by
  cases p with
  | hazardPush s q => exact .quiet (Hazard.Push.tables_step m s q) rfl rfl rfl
  | acquire table purpose q => exact tables_acquire m me table purpose q ▸ stores_acquire m me table purpose q
  | popWith s c =>
    refine .quiet ?_ rfl rfl rfl
    simp only [step]
    repeat' split
    all_goals rfl
  | hazardPop s place own q => exact stores_hazardPop m me s place own q
  | drain l t q => exact .quiet (Memory.tables_drainStep m l t q) rfl rfl rfl
  | publish c a =>
    simp only [step]
    cases hp : me.place? c with
    | none => exact .quiet rfl (by simp [Point.store?, hp]) rfl rfl
    | some place => exact .store place a (by simp [Point.store?, hp])
  | follow cell c q => exact stores_follow m me cell c q
  | tryPublish cell c a =>
    simp only [step]
    cases hp : me.place? c with
    | none => exact .quiet rfl (by simp [Point.store?, hp]) rfl rfl
    | some place => exact .store place a (by simp [Point.store?, hp])
  | dropSlot name =>
    refine .quiet ?_ rfl rfl rfl
    simp only [step]
    split
    · rfl
    · exact tables_letGo ..
  | takeBack =>
    refine .quiet ?_ rfl rfl rfl
    simp only [step]
    split
    · rfl
    · exact tables_letGo ..
  | letGo c answer => exact .quiet (tables_letGo m me c answer) rfl rfl rfl
  | release place q answer =>
    cases q with
    | clear => exact .store place .null rfl
    | disown => exact .disown place rfl
  | exit => exact .quiet (tables_exit m me) rfl rfl rfl
  | exitRelease place q =>
    cases q with
    | clear => exact .store place .null rfl
    | disown => exact .disown place rfl
  | _ => exact .quiet rfl rfl rfl rfl

end Operation

end LockFreeStack
