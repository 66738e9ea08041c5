import LockFreeStack.Event

/-!
One step of an operation. An operation is a program point that is advanced step by step; a step
touches shared memory at most once, so the steps of several threads can be interleaved freely.
-/

namespace LockFreeStack

/-- How an operation goes on after a step. -/
inductive Next (κ ρ : Type) where
  | goto (point : κ)
  | done (result : ρ)
  | fault (f : Fault)

/-- The memory after a step, how the operation goes on, and what was seen. -/
structure Outcome (μ κ ρ α : Type) where
  memory : μ
  next : Next κ ρ
  notes : List (Note α) := []

variable {μ μ₁ κ κ₁ ρ ρ₁ α : Type}

namespace Next

/-- The step of a part seen from the whole: a point of the part is a point of the whole, and the
part's result decides how the whole goes on. -/
def within (n : Next κ ρ) (point : κ → κ₁) (result : ρ → Next κ₁ ρ₁) : Next κ₁ ρ₁ :=
  match n with
  | goto k => goto (point k)
  | done r => result r
  | fault f => fault f

end Next

namespace Outcome

def within (o : Outcome μ κ ρ α) (memory : μ → μ₁) (point : κ → κ₁) (result : ρ → Next κ₁ ρ₁) :
    Outcome μ₁ κ₁ ρ₁ α :=
  ⟨memory o.memory, o.next.within point result, o.notes⟩

end Outcome

/-- The actions left after a step that performs this action, or none of them: nothing if there is
no allowance for it. An absent allowance has no end. -/
def spend : Option ActionKind → Option Nat → Option (Option Nat)
  | none, left => some left
  | some _, none => some none
  | some _, some 0 => none
  | some _, some (n + 1) => some (some n)

/-- Steps taken one after the other until the operation ends or comes to an action that it has no
allowance for. The first number bounds the steps. -/
def runSteps (step : μ → κ → Outcome μ κ ρ α) (action : κ → Option ActionKind) :
    Nat → Option Nat → μ → κ → Outcome μ κ ρ α
  | 0, _, m, k => ⟨m, .goto k, []⟩
  | fuel + 1, left, m, k =>
    match spend (action k) left with
    | none => ⟨m, .goto k, []⟩
    | some left' =>
      match step m k with
      | ⟨m', .goto k', notes⟩ =>
        let o := runSteps step action fuel left' m' k'
        { o with notes := notes ++ o.notes }
      | o => o

end LockFreeStack
