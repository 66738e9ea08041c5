import LockFreeStack.Proofs.Hazard.Moves
import LockFreeStack.Proofs.Hazard.Proper

/-!
Which table a call wants a record of, and when it is told that the table is exhausted.
-/

namespace LockFreeStack

variable {α : Type} {m m' : Memory α} {me : Thread} {p q : Point α} {t : Nat}

namespace Hazard

/-- The call wants a claim on the table. -/
def Call.Seeks (m : Memory α) (t : Nat) : Call α → Prop
  | register u _ | lend u => u = t
  | pop s => s < m.hazards.size ∧ (m.hazard s).table = t
  | _ => False

/-- What the call wants it for. -/
def Call.purpose? : Call α → Option Purpose
  | register _ slot => some (.register slot)
  | lend _ => some .lend
  | pop s => some (.pop s)
  | _ => none

theorem Call.Seeks.mono {c : Call α} (h : c.Seeks m t) (grows : m.Grows m') : c.Seeks m' t := by
  cases c with
  | pop s =>
    obtain ⟨hs, ht⟩ := h
    obtain ⟨hs', ht', -⟩ := grows s hs
    exact ⟨hs', ht'.trans ht⟩
  | _ => exact h

theorem Call.Seeks.unique {c : Call α} {u : Nat} (h : c.Seeks m t) (h' : c.Seeks m u) : t = u := by
  cases c with
  | register v _ | lend v => exact h.symm.trans h'
  | pop s => exact h.2.symm.trans h'.2
  | _ => exact h.elim

theorem Call.Starts.seeks {c : Call α} (starts : c.Starts m me p)
    (placed : ∀ s, s < m.hazards.size → (m.hazard s).table < m.tables.size) (h : c.Seeks m' t) :
    ∃ u, c.Seeks m u ∧ u < m.tables.size := by
  cases starts with
  | pop s hs => exact ⟨_, ⟨hs, rfl⟩, placed s hs⟩
  | register u _ hu => exact ⟨u, rfl, hu⟩
  | lend u hu => exact ⟨u, rfl, hu⟩
  | _ => exact h.elim

end Hazard

namespace Point

/-- The answer on its way is no exhausted table. -/
def Calm : Point α → Prop
  | letGo _ a | release _ _ a => ∀ n, a ≠ .trouble (.failure (.exhausted n))
  | _ => True

theorem calm_of_not_onRecords (h : ¬p.OnRecords) : p.Calm := by
  cases p <;> first | trivial | exact absurd trivial h

end Point

theorem Leads.calm (h : Leads m me p q) (calm : p.Calm) : q.Calm := by
  cases h with
  | away _ _ h => exact Point.calm_of_not_onRecords h
  | replace => exact fun n h => by cases h
  | popped s place c a r h =>
    intro n hr
    cases r with
    | ok v => cases hr
    | error e => cases hr; exact h _ rfl
  | dropped | taken => exact fun n h => by cases h
  | last | cleared => exact calm
  | _ => trivial

namespace Operation

theorem letGo_eq_done {c : Nat} {a b : Answer α} (h : (letGo m me c a).next = .done b) : a = b := by
  obtain ⟨me', he | ⟨place, he⟩⟩ := letGo_cases m me c a <;> rw [he] at h <;> cases h
  rfl

/-- A call that has its claim does not fail for want of one. -/
theorem acquired_ne_failure (m : Memory α) (me : Thread) (c : Nat) (purpose : Purpose) (f : Failure) :
    (acquired m me c purpose).next ≠ .done (.trouble (.failure f)) := by
  intro h
  cases purpose <;> simp only [acquired] at h
  · split at h <;> cases h
  · cases h
  · split at h <;> cases h

/-- Only a claim that has looked at all records of its table reports it exhausted. -/
theorem probe_of_exhausted {n : Nat} (fitting : p.Fitting me) (calm : p.Calm)
    (size : ∀ t purpose a, p = .acquire t purpose a → t < m.tables.size)
    (h : (step (m, me) p).next = .done (.trouble (.failure (.exhausted n)))) :
    ∃ t purpose k, p = .acquire t purpose (.claiming (.probe k)) ∧ n = (m.table t).capacity ∧ n ≤ k := by
  cases p with
  | hazardPush s a =>
    obtain ⟨r, hr, ha⟩ := Next.within_eq_done h
    cases r with
    | ok => cases ha
    | error f =>
      cases ha
      exact absurd hr (a.step_ne m s _)
  | acquire t purpose a =>
    obtain ⟨ts, me', b, notes, ha, hs⟩ | ⟨ts, me', e, notes, ha, hs⟩ | ⟨ts, me', c, notes, ha, -, hs⟩ :=
      acquire_cases m me t purpose a <;> rw [hs] at h
    · cases h
    · cases h
      obtain ⟨k, tb, rfl, ht, hr, rfl⟩ := Acquire.probe_of_exhausted (size t purpose a rfl) (by rw [ha])
      refine ⟨t, purpose, k, rfl, ?_⟩
      rw [Memory.table, ht]
      exact ⟨rfl, Array.getElem?_eq_none_iff.mp hr⟩
    · exact absurd h (acquired_ne_failure _ _ _ _ _)
  | hazardPop s place own a =>
    obtain ⟨r, hr, ha⟩ := Next.within_eq_done h
    cases own with
    | none =>
      cases r with
      | ok v => cases ha
      | error e =>
        cases ha
        exact absurd hr (a.step_ne m s place _)
    | some c => cases ha
  | drain l t a =>
    obtain ⟨r, hr, ha⟩ := Next.within_eq_done h
    cases r with
    | ok k => cases ha
    | error e =>
      cases ha
      exact absurd hr (m.drainStep_ne l t a _)
  | popWith s c =>
    simp only [step] at h
    repeat' split at h
    all_goals cases h
  | publish c a =>
    simp only [step] at h
    split at h <;> cases h
  | dropSlot name =>
    simp only [step] at h
    split at h
    · cases h
    · cases letGo_eq_done h
  | takeBack =>
    simp only [step] at h
    split at h
    · cases h
    · cases letGo_eq_done h
  | letGo c a => exact absurd (letGo_eq_done h) (calm n)
  | release place a answer =>
    cases a with
    | clear => cases h
    | disown => exact absurd (Next.done.inj h) (calm n)
  | exit =>
    obtain ⟨me', he | he | ⟨place, he⟩⟩ := exit_cases m me <;> simp only [step, he] at h <;> cases h
  | exitRelease place a => cases a <;> cases h
  | _ => exact fitting.elim

end Operation

namespace Hazard.Crowd

variable {x : Crowd α} {i n : Nat} {c : Call α} {ms : List (Move α)}

/-- Stacks stand on tables that are there, an acquisition is what its call wants, and no other operation
reports an exhausted table. -/
structure Seeking (x : Crowd α) : Prop where
  placed : ∀ s, s < x.memory.hazards.size → (x.memory.hazard s).table < x.memory.tables.size
  sought : ∀ i c t purpose a, x.busy i = some (c, .acquire t purpose a) →
    c.Seeks x.memory t ∧ t < x.memory.tables.size
  purpose : ∀ i c t purpose a, x.busy i = some (c, .acquire t purpose a) → c.purpose? = some purpose
  calm : ∀ i p, x.point i = some p → p.Calm

namespace Seeking

variable {st : Operation.State α} {b : Option (Call α × Point α)}

theorem start : (start : Crowd α).Seeking where
  placed s hs := by simp [Crowd.start, Memory.empty] at hs
  sought i c t purpose a h := by cases h
  purpose i c t purpose a h := by cases h
  calm i p h := by cases h

theorem starts {a : Acquire.Point} {purpose : Purpose} (k : x.Seeking)
    (h : c.Starts x.memory me (.acquire t purpose a)) :
    (c.Seeks x.memory t ∧ t < x.memory.tables.size) ∧ c.purpose? = some purpose := by
  cases h with
  | pop s hs => exact ⟨⟨⟨hs, rfl⟩, k.placed s hs⟩, rfl⟩
  | register _ slot ht => exact ⟨⟨rfl, ht⟩, rfl⟩
  | lend _ ht => exact ⟨⟨rfl, ht⟩, rfl⟩

theorem set (k : x.Seeking) (keeps : x.memory.Keeps st.1) (size : st.1.tables.size = x.memory.tables.size)
    (sought : ∀ c t purpose a, b = some (c, .acquire t purpose a) →
      (c.Seeks x.memory t ∧ t < x.memory.tables.size) ∧ c.purpose? = some purpose)
    (calm : ∀ c p, b = some (c, p) → p.Calm) : (x.set i st b).Seeking := by
  have old {j : Nat} {c : Call α} {t : Nat} {purpose : Purpose} {a : Acquire.Point}
      (hj : (x.set i st b).busy j = some (c, .acquire t purpose a)) :
      (c.Seeks x.memory t ∧ t < x.memory.tables.size) ∧ c.purpose? = some purpose := by
    by_cases hji : j = i
    · subst hji
      exact sought c t purpose a (by simpa [Crowd.set] using hj)
    · have hj : x.busy j = some (c, .acquire t purpose a) := by simpa [Crowd.set, hji] using hj
      exact ⟨k.sought j c t purpose a hj, k.purpose j c t purpose a hj⟩
  refine ⟨fun s hs => ?placed, fun j c t purpose a hj => ?sought, fun j c t purpose a hj => (old hj).2,
    fun j p hj => ?calm⟩
  case placed =>
    have hs' : s < x.memory.hazards.size := by
      obtain h | ⟨u, a, h⟩ := keeps.hazards
      · rwa [Crowd.set, h] at hs
      · rw [Crowd.set, h] at hs
        simpa [Memory.setHead] using hs
    have ht := (keeps.grows s hs').2.1
    show (st.1.hazard s).table < st.1.tables.size
    rw [ht, size]
    exact k.placed s hs'
  case sought =>
    obtain ⟨seeks, ht⟩ := (old hj).1
    exact ⟨seeks.mono keeps.grows, size ▸ ht⟩
  case calm =>
    by_cases hji : j = i
    · subst hji
      obtain ⟨⟨c, p⟩, hb, rfl⟩ := Option.map_eq_some_iff.mp (point_set_self.symm.trans hj)
      exact calm c p hb
    · rw [point_set_of_ne hji] at hj
      exact k.calm j p hj

/-- New stacks stand on tables that are there. -/
theorem grow (k : x.Seeking) (grows : x.memory.Grows m') (size : x.memory.tables.size ≤ m'.tables.size)
    (placed : ∀ s, x.memory.hazards.size ≤ s → s < m'.hazards.size → (m'.hazard s).table < m'.tables.size) :
    Seeking { x with memory := m' } := by
  refine ⟨fun s hs => ?_, fun j c t purpose a hj => ?_, k.purpose, k.calm⟩
  · by_cases hs' : s < x.memory.hazards.size
    · show (m'.hazard s).table < _
      rw [(grows s hs').2.1]
      exact Nat.lt_of_lt_of_le (k.placed s hs') size
    · exact placed s (Nat.le_of_not_lt hs') hs
  · obtain ⟨hc, ht⟩ := k.sought j c t purpose a hj
    exact ⟨hc.mono grows, Nat.lt_of_lt_of_le ht size⟩

theorem change (k : x.Seeking) (d : Change) : Seeking { x with memory := d.apply x.memory } := by
  refine k.grow (d.grows x.memory) (d.size_le x.memory) fun s hs' hs => ?_
  cases d with
  | stack u =>
    simp only [Change.apply] at hs ⊢
    split at hs
    · rename_i hu
      have top : s = x.memory.hazards.size := by
        simp only [Memory.addHazard, Memory.addList, Memory.addHandle, Array.size_push] at hs
        omega
      subst top
      simp [hu, Memory.hazard, Memory.addHazard, Memory.addList, Memory.addHandle]
    · exact absurd hs' (Nat.not_le.mpr hs)
  | registry capacity =>
    simp only [Change.apply] at hs
    split at hs <;> exact absurd hs' (Nat.not_le.mpr hs)
  | _ => exact absurd hs' (Nat.not_le.mpr hs)

theorem move (k : x.Seeking) (o : x.Orderly) (mv : Move α) : (x.move mv).Seeking := by
  have h := x.moves mv
  generalize x.move mv = y at h
  cases h with
  | stay => exact k
  | call i c p idle starts =>
    refine k.set (.same rfl rfl) rfl (fun d t purpose a h => ?_) fun d q h => ?_
    · obtain ⟨rfl, rfl⟩ := Prod.mk.inj (Option.some.inj h)
      exact k.starts starts
    · obtain ⟨rfl, rfl⟩ := Prod.mk.inj (Option.some.inj h)
      cases starts <;> trivial
  | step i c p busy =>
    have keeps := Operation.keeps_step x.memory (x.me i) p ((o.seated_of_busy busy).fitting p rfl)
    have stores := Operation.stores_step x.memory (x.me i) p
    refine k.set keeps stores.size (fun d t purpose a h => ?_) fun d q h => ?_
    · obtain ⟨q, hq, he⟩ := Option.map_eq_some_iff.mp h
      obtain ⟨rfl, rfl⟩ := Prod.mk.inj he
      cases Operation.leads_of_point? hq with
      | away _ _ h => exact absurd trivial h
      | acquire _ _ b _ => exact ⟨k.sought i c t purpose b busy, k.purpose i c t purpose b busy⟩
    · obtain ⟨q', hq, he⟩ := Option.map_eq_some_iff.mp h
      obtain ⟨rfl, rfl⟩ := Prod.mk.inj he
      exact (Operation.leads_of_point? hq).calm (k.calm i p (point_of_busy busy))
  | miss i c p q m busy missed =>
    have away := Point.not_onRecords_of_miss missed
    refine k.set (Point.keeps_miss missed) (congrArg Array.size (tables_miss missed)) (fun d t purpose a h => ?_)
      fun d q h => ?_
    · obtain ⟨rfl, rfl⟩ := Prod.mk.inj (Option.some.inj h)
      exact absurd trivial away
    · obtain ⟨rfl, rfl⟩ := Prod.mk.inj (Option.some.inj h)
      exact Point.calm_of_not_onRecords away
  | change d => exact k.change d

end Seeking

theorem seeking_after (ms : List (Move α)) : (after ms).Seeking := by
  induction ms using List.reverseRecOn with
  | nil => exact .start
  | append_singleton ms mv ih => exact after_append_singleton ms mv ▸ ih.move (orderly_after ms) mv

/-- The capacity of the exhausted table that thread `i` is about to report. -/
def exhausts? (x : Crowd α) (i : Nat) : Option Nat :=
  (x.point i).bind fun p =>
    match (Operation.step (x.memory, x.me i) p).next with
    | .done (.trouble (.failure (.exhausted n))) => some n
    | _ => none

theorem done_of_exhausts? (h : x.exhausts? i = some n) : ∃ c p, x.busy i = some (c, p) ∧
    (Operation.step (x.memory, x.me i) p).next = .done (.trouble (.failure (.exhausted n))) := by
  obtain ⟨p, hp, h⟩ := Option.bind_eq_some_iff.mp h
  obtain ⟨c, hb⟩ := exists_busy hp
  refine ⟨c, p, hb, ?_⟩
  split at h
  · rename_i hn
    rw [hn, Option.some.inj h]
  · cases h

theorem Seeking.probe_of_exhausts? (k : x.Seeking) (o : x.Orderly) (h : x.exhausts? i = some n) :
    ∃ c t purpose j, x.busy i = some (c, .acquire t purpose (.claiming (.probe j))) ∧
      c.Seeks x.memory t ∧ t < x.memory.tables.size ∧ n = (x.memory.table t).capacity ∧ n ≤ j := by
  obtain ⟨c, p, hb, done⟩ := done_of_exhausts? h
  have size (t : Nat) (purpose : Purpose) (a : Acquire.Point) (hp : p = .acquire t purpose a) :
      t < x.memory.tables.size := (k.sought i c t purpose a (hp ▸ hb)).2
  obtain ⟨t, purpose, j, rfl, hn, hj⟩ :=
    Operation.probe_of_exhausted ((o.seated_of_busy hb).fitting p rfl) (k.calm i p (point_of_busy hb)) size done
  obtain ⟨hc, ht⟩ := k.sought i c t purpose _ hb
  exact ⟨c, t, purpose, j, hb, hc, ht, hn, hj⟩

section Lasting

variable {r : Record} {ds : List (Move α)}

theorem grows_move (o : x.Orderly) (mv : Move α) : x.memory.Grows (x.move mv).memory := by
  have h := x.moves mv
  generalize x.move mv = y at h
  cases h with
  | stay | call => exact fun s hs => ⟨hs, rfl, rfl⟩
  | step i c p busy =>
    exact (Operation.keeps_step x.memory (x.me i) p ((o.seated_of_busy busy).fitting p rfl)).grows
  | miss i c p q m busy missed => exact (Point.keeps_miss missed).grows
  | change c => exact c.grows x.memory

theorem isSome_record? (m : Memory α) (t k : Nat) :
    (m.tables.record? ⟨t, k⟩).isSome ↔ k < (m.table t).capacity := by
  rw [← Memory.records_table, Table.capacity]
  simp

/-- A table keeps its capacity. -/
theorem capacity_move (o : x.Orderly) (ht : t < x.memory.tables.size) (mv : Move α) :
    ((x.move mv).memory.table t).capacity = (x.memory.table t).capacity := by
  have same (k : Nat) : ((x.move mv).memory.tables.record? ⟨t, k⟩).isSome ↔
      (x.memory.tables.record? ⟨t, k⟩).isSome := by
    simp only [Option.isSome_iff_exists]
    constructor
    · rintro ⟨r', hr'⟩
      obtain ⟨r, hr, -⟩ | ⟨-, hsize, -⟩ := record_of_move o mv hr'
      · exact ⟨r, hr⟩
      · exact absurd ht (Nat.not_lt.mpr hsize)
    · rintro ⟨r, hr⟩
      obtain ⟨r', hr', -⟩ := record_move o mv hr
      exact ⟨r', hr'⟩
  refine le_antisymm (Nat.le_of_not_lt fun h => ?_) (Nat.le_of_not_lt fun h => ?_)
  · exact Nat.lt_irrefl _ ((isSome_record? ..).mp ((same _).mp ((isSome_record? ..).mpr h)))
  · exact Nat.lt_irrefl _ ((isSome_record? ..).mp ((same _).mpr ((isSome_record? ..).mpr h)))

theorem after_append_snoc (ms ds : List (Move α)) (mv : Move α) :
    after (ms ++ (ds ++ [mv])) = (after (ms ++ ds)).move mv := by
  rw [← List.append_assoc, after_append_singleton]

theorem grows_append (ms ds : List (Move α)) : (after ms).memory.Grows (after (ms ++ ds)).memory := by
  induction ds using List.reverseRecOn with
  | nil => exact fun s hs => by simpa using hs
  | append_singleton ds mv ih =>
    intro s hs
    obtain ⟨hs', ht, hl⟩ := ih s hs
    rw [after_append_snoc]
    obtain ⟨hs'', ht', hl'⟩ := grows_move (orderly_after (ms ++ ds)) mv s hs'
    exact ⟨hs'', ht'.trans ht, hl'.trans hl⟩

theorem size_le_append (ms ds : List (Move α)) :
    (after ms).memory.tables.size ≤ (after (ms ++ ds)).memory.tables.size := by
  induction ds using List.reverseRecOn with
  | nil => simp
  | append_singleton ds mv ih => exact after_append_snoc ms ds mv ▸ ih.trans (size_le_move _ mv)

theorem capacity_append (ht : t < (after ms).memory.tables.size) (ds : List (Move α)) :
    ((after (ms ++ ds)).memory.table t).capacity = ((after ms).memory.table t).capacity := by
  induction ds using List.reverseRecOn with
  | nil => simp
  | append_singleton ds mv ih =>
    rw [after_append_snoc, capacity_move (orderly_after _) (ht.trans_le (size_le_append ms ds)), ih]

end Lasting

end Hazard.Crowd

end LockFreeStack
