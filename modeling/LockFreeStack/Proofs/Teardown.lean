import LockFreeStack.Proofs.Counted.Teardown
import LockFreeStack.Proofs.Hazard.Teardown

/-!
What the end of a stack of either kind makes of its nodes and values, together with all that has happened
to them before.
-/

namespace LockFreeStack

variable {α : Type}

/-- When nothing is in flight any more, the end of a stack drops the values of the linked nodes from the
top down and gives these nodes back, and then the parked ones. Each value that has been pushed has been
returned or is dropped now, and each node that has been made has been given back once, unless it belongs to
another stack. On a counted stack, operations that have ended in an overflow are excepted. -/
theorem teardown_settles :
    (∀ (ms : List (Hazard.Move α)) (s : Nat), (∀ i, (Hazard.Crowd.after ms).busy i = none) →
      s < (Hazard.Crowd.after ms).memory.hazards.size → ∃ ps ks, Hazard.Crowd.Dropped ms s ps ks) ∧
    ∀ {ι : Type} [DecidableEq ι] [Fintype ι] (ms : List (Counted.Move ι α)) (m : Memory α) (s : Nat),
      m.store s = (Counted.Crowd.run ms).1.store → (∀ i, (Counted.Crowd.run ms).1.point i = none) →
        ∃ ps lost stranded, Counted.Crowd.Dropped ms m s ps lost stranded :=
  ⟨fun _ _ rest hs => Hazard.Crowd.exists_dropped rest hs,
    fun _ _ _ store idle => Counted.Crowd.exists_dropped store idle⟩

/-- One node is parked, and another one is linked after that. -/
def hazardLeavings : List (Hazard.Move Nat) :=
  Hazard.Crowd.standoff ++ .call 0 (.push 0 8 true) :: List.replicate 3 (.step 0)

/-- A node is linked after the release of the one before. -/
def countedLeavings : List (Counted.Move Bool Nat) :=
  Counted.Crowd.settlement ++ [.call true (.push 8 true), .step true, .step true, .step true]

/-- A memory with this stack alone. -/
def Counted.Store.alone (m : Counted.Store α) : Memory α :=
  { (.empty : Memory α) with nodes := m.nodes, counteds := #[m.head] }

theorem teardown_settles_leavings :
    (∀ i, (Hazard.Crowd.after hazardLeavings).busy i = none) ∧
      0 < (Hazard.Crowd.after hazardLeavings).memory.hazards.size ∧
      (∃ ps ks, Hazard.Crowd.Dropped hazardLeavings 0 ps ks) ∧
      (∀ i, (Counted.Crowd.run countedLeavings).1.point i = none) ∧
      ∃ ps lost stranded, Counted.Crowd.Dropped countedLeavings
        (Counted.Crowd.run countedLeavings).1.store.alone 0 ps lost stranded := by
  have rest (i : Nat) : (Hazard.Crowd.after hazardLeavings).busy i = none := by
    match i with
    | 0 => decide +kernel
    | 1 => decide +kernel
    | n + 2 =>
      apply Hazard.Crowd.busy_after_of_absent
      simp [hazardLeavings, Hazard.Crowd.standoff, Hazard.Move.thread?]
  have there : 0 < (Hazard.Crowd.after hazardLeavings).memory.hazards.size := by decide +kernel
  have idle : ∀ i, (Counted.Crowd.run countedLeavings).1.point i = none :=
    Bool.forall_bool.mpr ⟨rfl, rfl⟩
  exact ⟨rest, there, teardown_settles.1 hazardLeavings 0 rest there, idle,
    teardown_settles.2 countedLeavings _ 0 rfl idle⟩

example : ((Hazard.Crowd.after hazardLeavings).memory.dropHazard 0).2 =
    [.dropped 8, .freed 1, .deleted (.node 0) .node, .freed 0, .log (.hazardDropped 1 1)] := rfl

end LockFreeStack
