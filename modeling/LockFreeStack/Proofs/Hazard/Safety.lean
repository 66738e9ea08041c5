import LockFreeStack.Proofs.Hazard.Reachable

/-!
Memory safety of hazard stacks. Whatever threads do and in whatever order, no step touches a node
that is not there, and nobody else has to do with a node when it is released.
-/

namespace LockFreeStack

variable {α : Type} {k : Nat}

section Notes

variable {m : Memory α}

theorem Address.eq_of_freed_mem {a : Address} (h : Note.freed (α := α) k ∈ a.freed) : a = .node k := by
  cases a <;> simp_all [freed]

theorem Memory.eq_of_freed_mem_deletion {a : Address} {d : Deleter} (h : .freed k ∈ m.deletion a d) :
    a = .node k := by
  cases d with
  | report => simp [deletion] at h
  | node => exact Address.eq_of_freed_mem (by simpa [deletion] using h)
  | box =>
    refine Address.eq_of_freed_mem (α := α) ?_
    cases hb : m.nodes.boxed? a <;> simpa [deletion, hb] using h

end Notes

namespace Hazard

variable {m : Memory α} {s : Nat} {place : Place} {r : Role} {a : Address}

/-- The node has been found to have no reader, and is the thread's own. -/
def Role.Condemns (r : Role) (a : Address) : Prop :=
  (∃ grade, r.own = some (a, grade)) ∧ ∀ due n, r.watch.Excludes due a n

/-- A step that releases a node. -/
structure Releases {κ β : Type} (k : Nat) (r : Role) (o : Outcome (Memory α) κ β α) : Prop where
  condemned : r.Condemns (.node k)
  gone : o.memory.nodes.plain? (.node k) = none

theorem releases_drainStep {l t : Nat} (p : Drain.Point) (h : .freed k ∈ (m.drainStep l t p).notes) :
    Releases k (p.role s) (m.drainStep l t p) := by
  cases p with
  | delete a d w =>
    simp only [Memory.drainStep] at h ⊢
    split at h
    · rename_i hd
      obtain rfl := Memory.eq_of_freed_mem_deletion h
      rw [if_pos hd]
      refine ⟨⟨⟨_, rfl⟩, fun _ _ => .inl rfl⟩, ?_⟩
      cases d with
      | report => simp [Memory.deletion] at h
      | node | box => simp [Memory.delete, Nodes.plain?_release]
    · simp at h
  | restore c q deferred reclaimed =>
    have := Insert.freed_notMem_step (α := α) c (m.parking l) q k
    simp only [Memory.drainStep, Drain.step, Outcome.within] at h
    rcases ho : Insert.step (α := α) c (m.parking l) q with ⟨m', q' | u | f, notes⟩ <;>
      rw [ho] at h this
    · exact absurd h this
    · simp at h
      exact absurd h this
    · exact absurd h this
  | _ =>
    simp only [Memory.drainStep, Drain.step, Outcome.within] at h
    repeat' split at h
    all_goals simp at h

theorem releases_pop (p : Pop α) (h : .freed k ∈ (p.step m s place).notes) :
    Releases k (p.role s place) (p.step m s place) := by
  cases p with
  | release a v =>
    simp only [Pop.step] at h ⊢
    split at h
    · rename_i hl
      obtain rfl := Address.eq_of_freed_mem h
      rw [if_pos hl]
      exact ⟨⟨⟨_, rfl⟩, fun _ _ => rfl⟩, by simp [Nodes.plain?_release]⟩
    · simp at h
  | insert c q v => exact absurd h (Insert.freed_notMem_step c _ q _)
  | reclaim q v =>
    have := releases_drainStep (s := s) q h
    exact ⟨this.condemned, this.gone⟩
  | protect q => cases q <;> simp [Pop.step, Protect.step, Outcome.within] at h
  | _ =>
    simp only [Pop.step] at h
    repeat' split at h
    all_goals simp at h

namespace Crowd

variable {x : Crowd α} {g : Ghost} {i j : Nat}

theorem Stable.not_faults (k : x.Stable g) (i : Nat) : ¬x.Faults i := by
  rintro ⟨c, p, f, hb, hf⟩
  have s := k.step hb
  rcases ho : Operation.step (x.memory, x.me i) p with ⟨st, q | b | f', notes⟩ <;> rw [ho] at s hf
  · cases hf
  · cases hf
  · exact s

/-- Who is going to use a node has it for itself, or reads it under the protection of a record. -/
theorem role_of_uses (h : x.Uses j a) :
    (∃ grade, (x.role j).own = some (a, grade)) ∨
      ∃ R, (x.role j).reading = some R ∧ R.Valid ∧ R.node = a := by
  obtain ⟨c, p, hb, hp⟩ := h
  rw [role_eq hb]
  unfold Point.node? at hp
  split at hp
  case h_3 | h_4 =>
    obtain rfl := Option.some.inj hp
    exact .inr ⟨_, rfl, by simp [Reading.Valid], rfl⟩
  case h_12 => cases hp
  all_goals
    obtain rfl := Option.some.inj hp
    exact .inl ⟨_, rfl⟩

theorem Stable.condemns_of_frees (s : x.Stable g) (h : x.Frees i k) :
    (x.role i).Condemns (.node k) ∧ (x.move (.step i)).memory.nodes.plain? (.node k) = none := by
  obtain ⟨c, p, hb, hk⟩ := h
  have hp := s.proper.proper i c p hb
  have onRecords (hp : p.OnRecords) : Releases k (p.role c) (Operation.step (x.memory, x.me i) p).shared :=
    absurd hk ((Operation.stays_step hp x.memory (x.me i)).notes k)
  have releases : Releases k (p.role c) (Operation.step (x.memory, x.me i) p).shared := by
    cases p with
    | hazardPush t q =>
      have : .freed k ∉ (q.step x.memory t).notes := by
        cases q <;> simp only [Push.step] <;> repeat' split
        all_goals simp
      exact absurd hk this
    | hazardPop t place own q =>
      have := releases_pop q hk
      exact ⟨this.condemned, this.gone⟩
    | drain l t q =>
      obtain ⟨u, hu, -⟩ := hp
      have := releases_drainStep (s := u) q hk
      simp only [Point.role, hu, Option.getD_some]
      exact ⟨this.condemned, this.gone⟩
    | acquire | popWith | publish | dropSlot | takeBack | letGo | release | exit | exitRelease =>
      exact onRecords trivial
    | _ => exact ((s.orderly.seated_of_busy hb).fitting _ rfl).elim
  rw [role_eq hb]
  refine ⟨releases.condemned, ?_⟩
  have gone := releases.gone
  have steps := s.step hb
  rcases ho : Operation.step (x.memory, x.me i) p with ⟨st, q | b | f, notes⟩ <;> rw [ho] at gone steps
  · simp only [Crowd.move, hb, ho]
    exact gone
  · simp only [Crowd.move, hb, ho]
    exact gone
  · exact steps.elim

/-- Nothing leads to the address any more. -/
structure Forgets (x : Crowd α) (a : Address) : Prop where
  unused : ∀ j, ¬x.Uses j a
  unparked : ∀ e y, x.memory.entries.get? e = some y → y.address ≠ a
  unlinked : ∀ s l, Path x.memory.nodes.below? (x.memory.hazard s).head l .null → a ∉ l

/-- An address without a node is known to nobody. -/
theorem Stable.forgets (k : x.Stable g) (dead : x.memory.nodes.plain? a = none) : x.Forgets a := by
  have free : g.stage a = .free := by
    have := k.sound.placed.live a
    rw [show x.memory.view.nodes.plain? a = none from dead] at this
    simpa using this
  refine ⟨fun j hu => ?_, fun e y hy ha => ?_, fun s l p ha => ?_⟩
  · obtain ⟨grade, ho⟩ | ⟨R, hr, hv, rfl⟩ := role_of_uses hu
    · have := k.sound.owned ho
      rw [free] at this
      cases this
    · have := (k.sound.backed hr).home hv
      rw [free] at this
      cases this
  · have live := (k.sound.stored.live e).mp (by rw [show x.memory.view.entries.get? e = some y from hy]; rfl)
    obtain ⟨s, hs⟩ : ∃ s, (g.keeper e).stack? = some s := by
      cases hk : g.keeper e with
      | nobody => exact absurd hk live
      | listed s | due s i | kept s i => exact ⟨s, rfl⟩
    have here : g.parked x.memory.view.entries e = some (a, s) := by
      simp [Ghost.parked, parkedAt?, show x.memory.view.entries.get? e = some y from hy, hs, ha]
    have := (k.sound.placed.parked e a s).mp here
    rw [free] at this
    cases this
  · obtain ⟨rfl, -⟩ := p.unique rfl (k.sound.placed.path s) rfl
    have := (k.sound.placed.linked a s).mp ha
    rw [free] at this
    cases this

theorem stable_start : ∃ g, (start : Crowd α).Stable g := by
  have empty (a : Address) : (Nodes.plain? .empty a : Option (α × Address)) = none := by
    cases a <;> rfl
  refine ⟨⟨fun _ => .free, fun _ => [], fun _ => .nobody⟩, .start, .start, ?_, ?_, nofun, fun _ => rfl⟩
  · exact .start _ fun _ => rfl
  · exact .start _ empty

theorem stable_after (ms : List (Move α)) : ∃ g, (after ms).Stable g := by
  induction ms using List.reverseRecOn with
  | nil => exact stable_start
  | append_singleton ms mv ih =>
    obtain ⟨g, k⟩ := ih
    obtain ⟨g', k', -⟩ := k.move mv
    exact ⟨g', by rwa [after, List.foldl_append]⟩

/-- No step reads, updates or releases a node that is not there. An address without a node is known
to nobody: no thread is going to use it, no entry keeps it, and no stack leads to it. When a node is
released, no other thread is going to use it any more, and it is gone after that. -/
theorem no_use_after_free (ms : List (Move α)) :
    (∀ i, ¬(after ms).Faults i) ∧
      (∀ a, (after ms).memory.nodes.plain? a = none → (after ms).Forgets a) ∧
        ∀ i k, (after ms).Frees i k →
          (∀ j, j ≠ i → ¬(after ms).Uses j (.node k)) ∧
            ((after ms).move (.step i)).memory.nodes.plain? (.node k) = none := by
  obtain ⟨g, s⟩ := stable_after ms
  refine ⟨s.not_faults, fun a => s.forgets, fun i k hf => ?_⟩
  obtain ⟨⟨⟨grade, ho⟩, unread⟩, gone⟩ := s.condemns_of_frees hf
  refine ⟨fun j hj hu => ?_, gone⟩
  obtain ⟨grade', ho'⟩ | ⟨R, hr, hv, hR⟩ := role_of_uses hu
  · have := (s.sound.owned ho').symm.trans (s.sound.owned ho)
    exact hj (Stage.own.inj this).1
  · exact (s.sound.backed hr).unread hv i (hR ▸ unread _ _)

end Crowd

end Hazard

end LockFreeStack
