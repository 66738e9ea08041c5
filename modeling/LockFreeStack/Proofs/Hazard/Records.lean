import LockFreeStack.Proofs.Slot.Seated

/-!
Operations that have to do with the records only. They leave nodes, entries and stacks alone,
release nothing and never fault.
-/

namespace LockFreeStack

variable {α : Type}

theorem Claiming.quiet_step (t : Table) (token : Nat) (p : Claiming.Point) :
    (∀ f, (Claiming.step (α := α) t token p).next ≠ .fault f) ∧
      ∀ k, .freed k ∉ (Claiming.step (α := α) t token p).notes := by
  cases p <;> simp only [step] <;> repeat' split
  all_goals simp

theorem Acquire.quiet_step (table : Nat) (pin : Bool) (m : Tables × Thread) (p : Acquire.Point) :
    (∀ f, (Acquire.step (α := α) table pin m p).next ≠ .fault f) ∧
      ∀ k, .freed k ∉ (Acquire.step (α := α) table pin m p).notes := by
  cases p with
  | lookup =>
    simp only [step]
    split <;> simp
  | prune i => simp [step]
  | releasing i place q => cases q <;> simp [step, Release.step]
  | claiming q =>
    simp only [step]
    split
    · simp
    · rename_i t ht
      have h := Claiming.quiet_step (α := α) t m.2.token q
      rcases ho : Claiming.step (α := α) t m.2.token q with ⟨t', q' | (e | c) | f, notes⟩ <;>
        rw [ho] at h
      · exact ⟨by simp, h.2⟩
      · exact ⟨by simp, h.2⟩
      · exact ⟨by simp, h.2⟩
      · exact absurd rfl (h.1 f)

theorem Insert.freed_notMem_step (c : Chain) (m : Parking) (p : Insert.Point) (k : Nat) :
    Note.freed (α := α) k ∉ (Insert.step c m p).notes := by
  cases p with
  | load => simp [step]
  | link seen =>
    simp only [step]
    split
    · simp
    · split <;> simp

/-- An operation that has to do with the records only. -/
def Point.OnRecords : Point α → Prop
  | acquire .. | popWith .. | publish .. | dropSlot _ | takeBack | letGo .. | release .. | exit
  | exitRelease .. => True
  | _ => False

/-- A step that changes the records at most. A pop that has its record now starts from there. -/
structure Outcome.StaysOnRecords (m : Memory α)
    (o : Outcome (Operation.State α) (Point α) (Answer α) α) : Prop where
  memory : ∃ ts, o.memory.1 = { m with tables := ts }
  next : match o.next with
    | .goto q => q.OnRecords ∨ ∃ s place own, q = .hazardPop s place own .start
    | .done _ => True
    | .fault _ => False
  notes : ∀ k, .freed k ∉ o.notes

namespace Operation

/-- The last reference to a claim takes the record with it. -/
theorem letGo_cases (m : Memory α) (me : Thread) (c : Nat) (answer : Answer α) :
    ∃ me', letGo m me c answer = ⟨(m, me'), .done answer, []⟩ ∨
      ∃ place, letGo m me c answer = ⟨(m, me'), .goto (.release place .clear answer), []⟩ := by
  unfold letGo
  obtain _ | place := me.place? c <;> obtain ⟨me', _ | _⟩ := me.letGo c
  · exact ⟨me', .inl rfl⟩
  · exact ⟨me', .inl rfl⟩
  · exact ⟨me', .inl rfl⟩
  · exact ⟨me', .inr ⟨place, rfl⟩⟩

/-- The name of a slot may be that of an older one, which is dropped then. -/
theorem acquired_cases (m : Memory α) (me : Thread) (c : Nat) (purpose : Purpose) :
    ∃ me', (∃ a, acquired m me c purpose = ⟨(m, me'), .done a, []⟩) ∨
      (∃ d a, acquired m me c purpose = ⟨(m, me'), .goto (.letGo d a), []⟩) ∨
        ∃ s place, acquired m me c purpose = ⟨(m, me'), .goto (.hazardPop s place (some c) .start), []⟩ := by
  cases purpose with
  | register name =>
    simp only [acquired]
    cases me.slots.get? name with
    | none => exact ⟨_, .inl ⟨_, rfl⟩⟩
    | some old => exact ⟨_, .inr (.inl ⟨_, _, rfl⟩)⟩
  | lend => exact ⟨_, .inl ⟨_, rfl⟩⟩
  | pop s =>
    simp only [acquired]
    cases me.place? c with
    | none => exact ⟨_, .inl ⟨_, rfl⟩⟩
    | some place => exact ⟨_, .inr (.inr ⟨_, _, rfl⟩)⟩

theorem giveUp_cases (m : Memory α) (me : Thread) (c : Nat) :
    ∃ me', giveUp m me c = ⟨(m, me'), .goto .exit, []⟩ ∨
      ∃ place, giveUp m me c = ⟨(m, me'), .goto (.exitRelease place .clear), []⟩ := by
  unfold giveUp
  obtain _ | place := me.place? c <;> obtain ⟨me', _ | _⟩ := me.letGo c
  · exact ⟨me', .inl rfl⟩
  · exact ⟨me', .inl rfl⟩
  · exact ⟨me', .inl rfl⟩
  · exact ⟨me', .inr ⟨place, rfl⟩⟩

/-- An exit gives up one reference after the other. -/
theorem exit_cases (m : Memory α) (me : Thread) :
    ∃ me', exit m me = ⟨(m, me'), .done .ok, []⟩ ∨ exit m me = ⟨(m, me'), .goto .exit, []⟩ ∨
      ∃ place, exit m me = ⟨(m, me'), .goto (.exitRelease place .clear), []⟩ := by
  rw [exit_eq]
  obtain _ | ⟨⟨name, c⟩, rest⟩ := me.slots.entries
  · obtain _ | ⟨e, rest⟩ := me.cache
    · exact ⟨me, .inl rfl⟩
    · by_cases hp : e.pinned
      · obtain ⟨me', h⟩ := giveUp_cases m { me with cache := rest } e.claim
        exact ⟨me', .inr (by simpa only [if_pos hp] using h)⟩
      · exact ⟨_, .inr (.inl (if_neg hp))⟩
  · obtain ⟨me', h⟩ := giveUp_cases m { me with slots := ⟨rest⟩ } c
    exact ⟨me', .inr h⟩

theorem stays_letGo (m : Memory α) (me : Thread) (c : Nat) (answer : Answer α) :
    (letGo m me c answer).StaysOnRecords m := by
  obtain ⟨me', h | ⟨place, h⟩⟩ := letGo_cases m me c answer <;> rw [h]
  · exact ⟨⟨m.tables, rfl⟩, trivial, by simp⟩
  · exact ⟨⟨m.tables, rfl⟩, .inl trivial, by simp⟩

theorem stays_acquired (m : Memory α) (me : Thread) (c : Nat) (purpose : Purpose) :
    (acquired m me c purpose).StaysOnRecords m := by
  obtain ⟨me', ⟨a, h⟩ | ⟨d, a, h⟩ | ⟨s, place, h⟩⟩ := acquired_cases m me c purpose <;> rw [h]
  · exact ⟨⟨m.tables, rfl⟩, trivial, by simp⟩
  · exact ⟨⟨m.tables, rfl⟩, .inl trivial, by simp⟩
  · exact ⟨⟨m.tables, rfl⟩, .inr ⟨s, place, some c, rfl⟩, by simp⟩

theorem stays_exit (m : Memory α) (me : Thread) : (exit m me).StaysOnRecords m := by
  obtain ⟨me', h | h | ⟨place, h⟩⟩ := exit_cases m me <;> rw [h]
  · exact ⟨⟨m.tables, rfl⟩, trivial, by simp⟩
  · exact ⟨⟨m.tables, rfl⟩, .inl trivial, by simp⟩
  · exact ⟨⟨m.tables, rfl⟩, .inl trivial, by simp⟩

theorem stays_acquire (m : Memory α) (me : Thread) (table : Nat) (purpose : Purpose) (q : Acquire.Point) :
    (step (m, me) (.acquire table purpose q)).StaysOnRecords m := by
  obtain ⟨unfaulting, unfreed⟩ := Acquire.quiet_step (α := α) table purpose.pins (m.tables, me) q
  simp only [step]
  rcases ho : Acquire.step (α := α) table purpose.pins (m.tables, me) q with
    ⟨⟨ts', me'⟩, q' | (e | d) | f, notes⟩ <;> rw [ho] at unfaulting unfreed
  · exact ⟨⟨ts', rfl⟩, .inl trivial, unfreed⟩
  · exact ⟨⟨ts', rfl⟩, trivial, unfreed⟩
  · have a := stays_acquired { m with tables := ts' } me' d purpose
    refine ⟨a.memory, a.next, fun k hk => ?_⟩
    exact (List.mem_append.mp hk).elim (unfreed k) (a.notes k)
  · exact absurd rfl (unfaulting f)

theorem stays_step {p : Point α} (hp : p.OnRecords) (m : Memory α) (me : Thread) :
    (step (m, me) p).StaysOnRecords m := by
  cases p with
  | acquire table purpose q => exact stays_acquire m me table purpose q
  | popWith s d =>
    simp only [step]
    repeat' split
    · exact ⟨⟨m.tables, rfl⟩, .inr ⟨_, _, _, rfl⟩, by simp⟩
    · exact ⟨⟨m.tables, rfl⟩, trivial, by simp⟩
    · exact ⟨⟨m.tables, rfl⟩, trivial, by simp⟩
  | publish d a =>
    simp only [step]
    split
    · exact ⟨⟨m.tables, rfl⟩, trivial, by simp⟩
    · exact ⟨⟨_, rfl⟩, trivial, by simp⟩
  | dropSlot name =>
    simp only [step]
    split
    · exact ⟨⟨m.tables, rfl⟩, trivial, by simp⟩
    · exact stays_letGo ..
  | takeBack =>
    simp only [step]
    split
    · exact ⟨⟨m.tables, rfl⟩, trivial, by simp⟩
    · exact stays_letGo ..
  | letGo d answer => exact stays_letGo ..
  | release place q answer =>
    cases q with
    | clear => exact ⟨⟨_, rfl⟩, .inl trivial, by simp [step, Release.step, Outcome.within]⟩
    | disown => exact ⟨⟨_, rfl⟩, trivial, by simp [step, Release.step, Outcome.within]⟩
  | exit => exact stays_exit m me
  | exitRelease place q =>
    cases q <;> exact ⟨⟨_, rfl⟩, .inl trivial, by simp [step, Release.step, Outcome.within]⟩
  | _ => exact hp.elim

end Operation

end LockFreeStack
