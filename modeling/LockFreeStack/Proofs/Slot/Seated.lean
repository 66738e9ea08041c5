import LockFreeStack.Operation
import LockFreeStack.Proofs.Slot.Acquire

/-!
Every step of a thread, in whatever operation, keeps its claims and its records in order and leaves
the records of other threads alone.
-/

namespace LockFreeStack

variable {α : Type} {m : Memory α} {me : Thread} {ts : Tables} {token c : Nat}

theorem Memory.tables_drainStep (m : Memory α) (l t : Nat) (p : Drain.Point) :
    (m.drainStep l t p).memory.tables = m.tables := by
  cases p with
  | delete a d w =>
    simp only [drainStep]
    split
    · cases d <;> rfl
    · rfl
  | _ => rfl

theorem Hazard.Push.tables_step (m : Memory α) (s : Nat) (p : Hazard.Push α) :
    (p.step m s).memory.tables = m.tables := by
  cases p with
  | allocate v granted => cases granted <;> rfl
  | load node => rfl
  | link node seen =>
    simp only [step]
    split
    · rfl
    · split <;> rfl

/-- A pop writes to one record only. -/
theorem Hazard.Pop.tables_step (m : Memory α) (s : Nat) (place : Place) (p : Hazard.Pop α) :
    (p.step m s place).memory.tables = m.tables ∨
      ∃ a, (p.step m s place).memory.tables = m.tables.publish place a := by
  cases p with
  | protect p => cases p <;> first | exact .inl rfl | exact .inr ⟨_, rfl⟩
  | withdraw | clear => exact .inr ⟨_, rfl⟩
  | reclaim p v => exact .inl (Memory.tables_drainStep ..)
  | park | insert => exact .inl rfl
  | _ =>
    left
    simp only [step]
    repeat' split
    all_goals rfl

namespace Point

/-- The claim that the operation has a reference to in its hands. -/
def hand? : Point α → Option Nat
  | hazardPop _ _ own _ => own
  | letGo c _ => some c
  | _ => none

/-- The record that the operation is giving back. -/
def site? : Point α → Option Place
  | acquire _ _ p => p.site?
  | release place _ _ | exitRelease place _ => some place
  | _ => none

/-- What a thread at this point knows of its own claims. Points that belong to no operation on a
hazard stack or a slot fit no thread. -/
def Fitting (me : Thread) : Point α → Prop
  | popWith _ c | publish c _ => me.isLive c
  | hazardPop _ place _ _ => ∃ c, me.isLive c ∧ me.place? c = some place
  | acquire table _ p => p.Fitting table me
  | exit | exitRelease .. => me.lent = []
  | hazardPush .. | drain .. | dropSlot _ | takeBack | letGo .. | release .. => True
  | _ => False

end Point

/-- The claims and the records of a thread that stands at the point `o` are in order. -/
structure Seated (ts : Tables) (me : Thread) (o : Option (Point α)) : Prop where
  counts : me.Counts (o.bind Point.hand?)
  owns : Owns ts me (o.bind Point.site?)
  fitting : ∀ p, o = some p → p.Fitting me

/-- The outcome of a step keeps its thread seated, and leaves the other records of `ts` alone. -/
structure Seats (ts : Tables) (token : Nat)
    (out : Outcome (Operation.State α) (Point α) (Answer α) α) : Prop where
  leaves : ts.Leaves out.memory.1.tables token
  token : out.memory.2.token = token
  next : match out.next with
    | .goto q => Seated out.memory.1.tables out.memory.2 (some q)
    | .done _ => Seated out.memory.1.tables out.memory.2 (none : Option (Point α))
    | .fault _ => True

theorem seated_none (counts : me.Counts none) (owns : Owns ts me none) :
    Seated ts me (none : Option (Point α)) :=
  ⟨counts, owns, by simp⟩

namespace Operation

/-- A reference that the operation has in its hands goes. -/
theorem seats_letGo (counts : me.Counts (some c)) (owns : Owns m.tables me none) (answer : Answer α) :
    Seats m.tables me.token (letGo m me c answer) := by
  have hc := counts.isLive_of_eq_some
  obtain ⟨place, hplace⟩ := Thread.exists_place hc
  have owns' := owns.letGo hc hplace
  have hpair : me.letGo c = ((me.letGo c).1, (me.letGo c).2) := rfl
  unfold letGo
  rw [hplace, hpair]
  by_cases hlast : (me.letGo c).2
  · rw [if_pos hlast] at owns'
    rw [hlast]
    exact ⟨.refl _ _, rfl, counts.letGo, owns', by rintro p ⟨⟩; trivial⟩
  · rw [if_neg hlast] at owns'
    rw [Bool.not_eq_true] at hlast
    rw [hlast]
    exact ⟨.refl _ _, rfl, seated_none counts.letGo owns'⟩

/-- An operation goes on with a claim that it has just come by. -/
theorem seats_acquired (counts : me.Counts (some c)) (owns : Owns m.tables me none)
    (purpose : Purpose) : Seats m.tables me.token (acquired m me c purpose) := by
  have hc := counts.isLive_of_eq_some
  obtain ⟨place, hplace⟩ := Thread.exists_place hc
  cases purpose with
  | register name =>
    have registered := counts.register name
    have owns' : Owns m.tables { me with slots := me.slots.insert name c } none :=
      owns.congr rfl (fun _ => Iff.rfl) fun _ _ => rfl
    simp only [acquired]
    cases hold : me.slots.get? name with
    | none =>
      rw [hold] at registered
      exact ⟨.refl _ _, rfl, seated_none registered owns'⟩
    | some old =>
      rw [hold] at registered
      exact ⟨.refl _ _, rfl, registered, owns', by rintro p ⟨⟩; trivial⟩
  | lend =>
    exact ⟨.refl _ _, rfl, seated_none counts.lend (owns.congr rfl (fun _ => Iff.rfl) fun _ _ => rfl)⟩
  | pop s =>
    simp only [acquired, hplace]
    exact ⟨.refl _ _, rfl, counts, owns, by rintro p ⟨⟩; exact ⟨c, hc, hplace⟩⟩

/-- How an exiting thread gives up a reference to the claim `c`. -/
def giveUp (m : Memory α) (me : Thread) (c : Nat) : Outcome (State α) (Point α) (Answer α) α :=
  match me.place? c, me.letGo c with
  | some place, (me', true) => ⟨(m, me'), .goto (.exitRelease place .clear), []⟩
  | _, (me', _) => ⟨(m, me'), .goto .exit, []⟩

theorem exit_eq (m : Memory α) (me : Thread) :
    exit m me =
      match me.slots.entries, me.cache with
      | (_, c) :: rest, _ => giveUp m { me with slots := ⟨rest⟩ } c
      | [], e :: rest =>
        if e.pinned then giveUp m { me with cache := rest } e.claim
        else ⟨(m, { me with cache := rest }), .goto .exit, []⟩
      | [], [] => ⟨(m, me), .done .ok, []⟩ :=
  rfl

theorem seats_giveUp (hc : me.isLive c) (lent : me.lent = []) (counts : (me.letGo c).1.Counts none)
    (owns : Owns m.tables me none) : Seats m.tables me.token (giveUp m me c) := by
  obtain ⟨place, hplace⟩ := Thread.exists_place hc
  have owns' := owns.letGo hc hplace
  have hpair : me.letGo c = ((me.letGo c).1, (me.letGo c).2) := rfl
  unfold giveUp
  rw [hplace, hpair]
  by_cases hlast : (me.letGo c).2
  · rw [if_pos hlast] at owns'
    rw [hlast]
    exact ⟨.refl _ _, rfl, counts, owns', by rintro p ⟨⟩; exact lent⟩
  · rw [if_neg hlast] at owns'
    rw [Bool.not_eq_true] at hlast
    rw [hlast]
    exact ⟨.refl _ _, rfl, counts, owns', by rintro p ⟨⟩; exact lent⟩

/-- An exiting thread gives up its slots first, then the pins of its cache. -/
theorem seats_exit (counts : me.Counts none) (owns : Owns m.tables me none) (hl : me.lent = []) :
    Seats m.tables me.token (exit m me) := by
  rw [exit_eq]
  rcases hs : me.slots.entries with _ | ⟨⟨name, c⟩, rest⟩
  · rcases hc : me.cache with _ | ⟨e, rest⟩
    · exact ⟨.refl _ _, rfl, seated_none counts owns⟩
    · have owns' : Owns m.tables { me with cache := rest } none :=
        owns.congr rfl (fun _ => Iff.rfl) fun _ _ => rfl
      by_cases hp : e.pinned
      · have live : Thread.isLive { me with cache := rest } e.claim := by
          have hone : me.refs e.claim = 1 := by rw [counts.refs_first hs hl hc, if_pos hp]
          have hlive : me.isLive e.claim := Thread.isLive_iff.mpr (by simp [hone])
          exact hlive
        simp only [if_pos hp]
        exact seats_giveUp live hl (counts.dropPinned hs hl hc hp) owns'
      · simp only [if_neg hp]
        exact ⟨.refl _ _, rfl, counts.dropPlain hs hl hc hp, owns', by rintro p ⟨⟩; exact hl⟩
  · have dropped := counts.dropFirst hs
    have owns' : Owns m.tables { me with slots := ⟨rest⟩ } none :=
      owns.congr rfl (fun _ => Iff.rfl) fun _ _ => rfl
    exact seats_giveUp dropped.isLive_of_eq_some hl dropped.letGo owns'

end Operation

namespace Seated

variable {p : Point α}

/-- A step that changes nothing of what is the thread's own, and no record. -/
theorem quiet {q : Point α} (s : Seated ts me (some p)) (hand : q.hand? = p.hand?)
    (site : q.site? = p.site?) (fitting : q.Fitting me) : Seated ts me (some q) where
  counts := by
    have := s.counts
    simpa only [Option.bind_some, hand] using this
  owns := by
    have := s.owns
    simpa only [Option.bind_some, site] using this
  fitting := by
    rintro _ ⟨⟩
    exact fitting

theorem done (s : Seated ts me (some p)) (hand : p.hand? = none) (site : p.site? = none) :
    Seated ts me (none : Option (Point α)) := by
  refine seated_none ?_ ?_
  · have := s.counts
    simpa only [Option.bind_some, hand] using this
  · have := s.owns
    simpa only [Option.bind_some, site] using this

theorem publish (s : Seated ts me (some p)) (place : Place) (a : Address) :
    Seated (ts.publish place a) me (some p) :=
  ⟨s.counts, s.owns.publish .., s.fitting⟩

theorem hazardPush {stack : Nat} {q : Hazard.Push α} (s : Seated m.tables me (some (.hazardPush stack q))) :
    Seats m.tables me.token (Operation.step (m, me) (.hazardPush stack q)) := by
  show Seats _ _ ((q.step m stack).within (·, me) (.hazardPush stack) fun r => .done (.ofPush r))
  have ht := Hazard.Push.tables_step m stack q
  rcases ho : q.step m stack with ⟨m', q' | r | f, notes⟩ <;> rw [ho] at ht
  · exact ⟨ht ▸ .refl _ _, rfl, ht ▸ s.quiet rfl rfl trivial⟩
  · exact ⟨ht ▸ .refl _ _, rfl, ht ▸ s.done rfl rfl⟩
  · exact ⟨ht ▸ .refl _ _, rfl, trivial⟩

theorem drain {l t : Nat} {q : Drain.Point} (s : Seated m.tables me (some (.drain l t q : Point α))) :
    Seats m.tables me.token (Operation.step (m, me) (.drain l t q)) := by
  show Seats _ _ ((m.drainStep l t q).within (·, me) (.drain l t) fun r => .done (.ofCount r))
  have ht := Memory.tables_drainStep m l t q
  rcases ho : m.drainStep l t q with ⟨m', q' | r | f, notes⟩ <;> rw [ho] at ht
  · exact ⟨ht ▸ .refl _ _, rfl, ht ▸ s.quiet rfl rfl trivial⟩
  · exact ⟨ht ▸ .refl _ _, rfl, ht ▸ s.done rfl rfl⟩
  · exact ⟨ht ▸ .refl _ _, rfl, trivial⟩

theorem hazardPop {stack : Nat} {place : Place} {own : Option Nat} {q : Hazard.Pop α}
    (s : Seated m.tables me (some (.hazardPop stack place own q))) :
    Seats m.tables me.token (Operation.step (m, me) (.hazardPop stack place own q)) := by
  show Seats _ _ ((q.step m stack place).within (·, me) (.hazardPop stack place own) _)
  obtain ⟨c, hc, hplace⟩ := s.fitting _ rfl
  obtain ⟨r, hr, howner⟩ := s.owns.claimed c place hc hplace
  -- The records after the step, and the thread at any point of the pop or after it.
  obtain ⟨leaves, seated⟩ : m.tables.Leaves (q.step m stack place).memory.tables me.token ∧
      Seated (q.step m stack place).memory.tables me (some (.hazardPop stack place own q)) := by
    obtain ht | ⟨a, ht⟩ := Hazard.Pop.tables_step m stack place q <;> rw [ht]
    · exact ⟨.refl _ _, s⟩
    · exact ⟨.publish hr howner a, s.publish place a⟩
  rcases ho : q.step m stack place with ⟨m', q' | r | f, notes⟩ <;> rw [ho] at leaves seated
  · exact ⟨leaves, rfl, seated.quiet rfl rfl ⟨c, hc, hplace⟩⟩
  · cases own with
    | none => exact ⟨leaves, rfl, seated.done rfl rfl⟩
    | some d => exact ⟨leaves, rfl, seated.quiet rfl rfl trivial⟩
  · exact ⟨leaves, rfl, trivial⟩

theorem acquire {table : Nat} {purpose : Purpose} {q : Acquire.Point}
    (s : Seated m.tables me (some (.acquire table purpose q : Point α))) (h0 : me.token ≠ 0) :
    Seats m.tables me.token (Operation.step (m, me) (.acquire table purpose q)) := by
  have k : Acquire.Keeps table m.tables me.token
      (Acquire.step (α := α) table purpose.pins (m.tables, me) q) :=
    Acquire.Sound.step ⟨s.counts, s.owns, s.fitting _ rfl⟩ h0
  simp only [Operation.step]
  rcases ho : Acquire.step (α := α) table purpose.pins (m.tables, me) q with
    ⟨⟨ts', me'⟩, q' | (e | c) | f, notes⟩ <;> rw [ho] at k <;> obtain ⟨leaves, token, next⟩ := k
  · exact ⟨leaves, token, next.counts, next.owns, by rintro p ⟨⟩; exact next.fitting⟩
  · exact ⟨leaves, token, seated_none next.1 next.2.1⟩
  · have counts : me'.Counts (some c) := next.counts
    have owns : Owns (Memory.tables { m with tables := ts' }) me' none := next.owns
    have a := Operation.seats_acquired counts owns purpose
    exact ⟨leaves.trans (token ▸ a.leaves), a.token.trans token, a.next⟩
  · exact next.elim

theorem release {place : Place} {q : Release.Point} {answer : Answer α}
    (s : Seated m.tables me (some (.release place q answer))) (h0 : me.token ≠ 0) :
    Seats m.tables me.token (Operation.step (m, me) (.release place q answer)) := by
  obtain ⟨⟨r, hr, ho⟩, -⟩ := s.owns.returned place rfl
  cases q with
  | clear => exact ⟨.publish hr ho .null, rfl, (s.publish ..).quiet rfl rfl trivial⟩
  | disown =>
    exact ⟨.setOwner hr (.inl ho) (.inr rfl), rfl, seated_none s.counts (s.owns.disown h0)⟩

theorem exitRelease {place : Place} {q : Release.Point}
    (s : Seated m.tables me (some (.exitRelease place q : Point α))) (h0 : me.token ≠ 0) :
    Seats m.tables me.token (Operation.step (m, me) (.exitRelease place q)) := by
  obtain ⟨⟨r, hr, ho⟩, -⟩ := s.owns.returned place rfl
  have hl : me.lent = [] := s.fitting _ rfl
  cases q with
  | clear => exact ⟨.publish hr ho .null, rfl, (s.publish ..).quiet rfl rfl hl⟩
  | disown =>
    exact ⟨.setOwner hr (.inl ho) (.inr rfl), rfl, s.counts, s.owns.disown h0, by
      rintro p ⟨⟩; exact hl⟩

theorem step (s : Seated m.tables me (some p)) (h0 : me.token ≠ 0) :
    Seats m.tables me.token (Operation.step (m, me) p) := by
  cases p with
  | hazardPush stack q => exact s.hazardPush
  | acquire table purpose q => exact s.acquire h0
  | popWith stack c =>
    have hc := s.fitting _ rfl
    obtain ⟨place, hplace⟩ := Thread.exists_place hc
    simp only [Operation.step, hplace]
    split
    · exact ⟨.refl _ _, rfl, s.quiet rfl rfl ⟨c, hc, hplace⟩⟩
    · exact ⟨.refl _ _, rfl, s.done rfl rfl⟩
  | hazardPop stack place own q => exact s.hazardPop
  | drain l t q => exact s.drain
  | publish c a =>
    have hc := s.fitting _ rfl
    obtain ⟨place, hplace⟩ := Thread.exists_place hc
    obtain ⟨r, hr, ho⟩ := s.owns.claimed c place hc hplace
    simp only [Operation.step, hplace]
    exact ⟨.publish hr ho a, rfl, (s.publish ..).done rfl rfl⟩
  | dropSlot name =>
    have dropped := s.counts.dropSlot name
    simp only [Operation.step]
    cases hs : me.slots.get? name with
    | none => exact ⟨.refl _ _, rfl, s.done rfl rfl⟩
    | some c =>
      rw [hs] at dropped
      exact Operation.seats_letGo dropped (s.owns.congr rfl (fun _ => Iff.rfl) fun _ _ => rfl) .ok
  | takeBack =>
    simp only [Operation.step]
    cases hl : me.lent with
    | nil => exact ⟨.refl _ _, rfl, s.done rfl rfl⟩
    | cons c rest =>
      exact Operation.seats_letGo (s.counts.takeBack hl)
        (s.owns.congr rfl (fun _ => Iff.rfl) fun _ _ => rfl) .ok
  | letGo c answer => exact Operation.seats_letGo s.counts s.owns answer
  | release place q answer => exact s.release h0
  | exit => exact Operation.seats_exit s.counts s.owns (s.fitting _ rfl)
  | exitRelease place q => exact s.exitRelease h0
  | _ => exact (s.fitting _ rfl).elim

end Seated

end LockFreeStack
