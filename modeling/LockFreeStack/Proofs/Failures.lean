import LockFreeStack.Proofs.Counted.Progress
import LockFreeStack.Proofs.Hazard.Exhausted

/-!
Operations that fail. A push that is refused its node and a pop with a slot of another registry leave
everything as it was. A call that finds its table exhausted has pruned the cache of its thread.
-/

namespace LockFreeStack

variable {ι α : Type} {a : Answer α} {notes : List (Note α)}

namespace Hazard.Crowd

variable {ms : List (Move α)} {i : Nat} {c : Call α}

/-- The call ends with its first step, which changes nothing. Whatever comes later comes as if the call had not
been made. -/
structure Vain (ms : List (Move α)) (i : Nat) (c : Call α) (a : Answer α) (notes : List (Note α)) : Prop where
  step : ∃ p, (after (ms ++ [.call i c])).busy i = some (c, p) ∧
    Operation.step ((after ms).memory, (after ms).me i) p = ⟨((after ms).memory, (after ms).me i), .done a, notes⟩
  later : ∀ rest, after (ms ++ attempt i c 1 ++ rest) = after (ms ++ rest)

theorem after_append (ms rest : List (Move α)) : after (ms ++ rest) = rest.foldl move (after ms) :=
  List.foldl_append

theorem vain_of_step {p : Point α} (idle : (after ms).busy i = none)
    (hp : c.start? (after ms).memory ((after ms).me i) = some p)
    (ho : Operation.step ((after ms).memory, (after ms).me i) p =
      ⟨((after ms).memory, (after ms).me i), .done a, notes⟩) : Vain ms i c a notes := by
  have called : after (ms ++ [.call i c]) =
      (after ms).set i ((after ms).memory, (after ms).me i) (some (c, p)) := by
    rw [after_append_singleton, move, idle, hp]
  refine ⟨⟨p, by rw [called, busy_set_self], ho⟩, fun rest => ?_⟩
  have undone : after (ms ++ attempt i c 1) = after ms := by
    rw [after_attempt_succ, show attempt i c 0 = [.call i c] from rfl, called, move_set_done ho, ← idle, set_self]
  rw [after_append, undone, ← after_append]

end Hazard.Crowd

namespace Counted.Crowd

variable [DecidableEq ι] {ms : List (Move ι α)} {i : ι} {c : Call α}

/-- The same on a counted stack. -/
structure Vain (ms : List (Move ι α)) (i : ι) (c : Call α) (a : Answer α) (notes : List (Note α)) : Prop where
  step : (run (ms ++ [.call i c])).1.point i = some c.start ∧
    c.start.step (run ms).1.store = ⟨(run ms).1.store, .done a, notes⟩
  later : ∀ rest, (run (ms ++ .call i c :: .step i :: rest)).1 = (run (ms ++ rest)).1

theorem vain_of_step (idle : (run ms).1.point i = none)
    (ho : c.start.step (run ms).1.store = ⟨(run ms).1.store, .done a, notes⟩) : Vain ms i c a notes := by
  have called : (run ms).1.move (.call i c) = (run ms).1.set i (run ms).1.store (some c.start) := by
    rw [move, idle]
  have undone : ((run ms).1.move (.call i c)).move (.step i) = (run ms).1 := by
    rw [called, move_set_stop ho, ← idle, set, Function.update_eq_self]
  refine ⟨⟨?_, ho⟩, fun rest => ?_⟩
  · rw [run, play_snoc]
    show ((run ms).1.move (.call i c)).point i = _
    rw [called]
    simp [set]
  · simp only [run, play_append, play_cons]
    show (play move moments (((run ms).1.move (.call i c)).move (.step i)) rest).1 = _
    rw [undone]
    rfl

end Counted.Crowd

open Hazard.Crowd in
/-- In every state that the threads come to, wherever the others stand: a push without memory drops its value
and changes nothing, on either kind of stack; a pop with a slot of another table panics and changes nothing; a
call that is told that the table is exhausted, which is full then, has pruned the cache of its thread and changed
nothing else. -/
theorem failures_leave_state [DecidableEq ι] :
    (∀ (ms : List (Hazard.Move α)) i s v, (after ms).busy i = none → s < (after ms).memory.hazards.size →
      Vain ms i (.push s v false) (.trouble (.failure .allocation)) [.dropped v]) ∧
    (∀ (ms : List (Counted.Move ι α)) i v, (Counted.Crowd.run ms).1.point i = none →
      Counted.Crowd.Vain ms i (.push v false) (.trouble (.failure .allocation)) [.dropped v]) ∧
    (∀ (ms : List (Hazard.Move α)) i s slot c place, (after ms).busy i = none →
      s < (after ms).memory.hazards.size → ((after ms).me i).slot? slot = some c →
      ((after ms).me i).place? c = some place → place.table ≠ ((after ms).memory.hazard s).table →
      Vain ms i (.popWith s slot) (.trouble (.panic .foreignSlot)) []) ∧
    ∀ (ms : List (Hazard.Move α)) i c k n, (after ms).busy i = none →
      (after (ms ++ attempt i c k)).exhausts? i = some n →
      ∃ t ts me, c.Seeks (after ms).memory t ∧ n = ((after ms).memory.table t).capacity ∧
        (∀ j, ¬(after ms).memory.tables.Vacant ⟨t, j⟩) ∧ (after ms).OnlyPruned i t ts me ∧
        ∀ rest, after (ms ++ attempt i c (k + 1) ++ rest) =
          rest.foldl move ((after ms).set i ({ (after ms).memory with tables := ts }, me) none) := by
  refine ⟨fun ms i s v idle there => ?push, fun ms i v idle => ?counted,
    fun ms i s slot c place idle there hc hp ht => ?foreign, fun ms i c k n idle h => ?exhausted⟩
  case push => exact vain_of_step idle (if_pos there) rfl
  case counted => exact Counted.Crowd.vain_of_step idle rfl
  case foreign =>
    have start : Hazard.Call.start? (after ms).memory ((after ms).me i) (.popWith s slot : Hazard.Call α) =
        some (.popWith s c) := by
      simp [Hazard.Call.start?, there, hc]
    exact vain_of_step idle start (by simp [Operation.step, hp, ht])
  case exhausted =>
    obtain ⟨t, ts, me, seeks, hn, full, pruned, done⟩ := refused_alone idle h
    exact ⟨t, ts, me, seeks, hn, full, pruned, fun rest => by rw [after_append, done]⟩

section

open Hazard.Crowd

/-- Thread 0 has a slot of the second of two registries, and the stack is on the first. -/
def astray : List (Hazard.Move Unit) :=
  [.change (.registry 1), .change (.registry 1), .change (.stack 0), .call 0 (.register 1 "a")] ++
    List.replicate 6 (.step 0)

/-- Thread 0 has a pin on a registry that nobody has any more, and thread 1 has the only slot of another. -/
def crowded : List (Hazard.Move Unit) :=
  [.change (.registry 1), .call 0 (.lend 0)] ++ List.replicate 6 (.step 0) ++
    [.call 0 .takeBack, .step 0, .change (.unhandle 0), .change (.registry 1), .call 1 (.register 1 "a")] ++
    List.replicate 6 (.step 1)

theorem failures_leave_state_crowded :
    Vain astray 0 (.push 0 () false) (.trouble (.failure .allocation)) [.dropped ()] ∧
    Counted.Crowd.Vain ([] : List (Counted.Move Nat Unit)) 0 (.push () false) (.trouble (.failure .allocation))
      [.dropped ()] ∧
    Vain astray 0 (.popWith 0 "a") (.trouble (.panic .foreignSlot)) [] ∧
    (after (crowded ++ attempt 0 (.register 1 "b") 8)).exhausts? 0 = some 1 ∧
    ∃ ts me, (after crowded).OnlyPruned 0 1 ts me ∧
      (after (crowded ++ attempt 0 (.register 1 "b") 9)).memory.tables = ts ∧
      (after crowded).memory.tables.record? ⟨0, 0⟩ = some ⟨1, .null⟩ ∧ ts.record? ⟨0, 0⟩ = some {} := by
  obtain ⟨push, counted, foreign, exhausted⟩ := failures_leave_state (ι := Nat) (α := Unit)
  have exhausts : (after (crowded ++ attempt 0 (.register 1 "b") 8)).exhausts? 0 = some 1 := by decide +kernel
  refine ⟨push astray 0 0 () (by decide +kernel) (by decide +kernel), counted [] 0 () rfl,
    foreign astray 0 0 "a" 0 ⟨1, 0⟩ (by decide +kernel) (by decide +kernel) (by decide +kernel)
      (by decide +kernel) (by decide +kernel), exhausts, ?_⟩
  obtain ⟨t, ts, me, rfl, -, -, pruned, later⟩ :=
    exhausted crowded 0 (.register 1 "b") 8 1 (by decide +kernel) exhausts
  have tables : (after (crowded ++ attempt 0 (.register 1 "b") 9)).memory.tables = ts := by
    rw [← List.append_nil (crowded ++ _), later []]
    rfl
  exact ⟨ts, me, pruned, tables, by decide +kernel, by rw [← tables]; decide +kernel⟩

end

end LockFreeStack
