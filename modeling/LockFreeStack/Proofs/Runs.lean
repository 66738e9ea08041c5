import LockFreeStack.Step
import Mathlib.Data.List.Basic

/-!
Operations that nobody disturbs. A run lists the steps that an operation takes by itself, so that
the runs of its parts put together are the run of the whole. What is seen on the way is kept as far
as it tells what has become of nodes and values.
-/

namespace LockFreeStack

variable {μ μ₁ κ κ₁ ρ ρ₁ α : Type}

/-- The note tells that a node has been released or a value dropped. -/
def Note.settles : Note α → Bool
  | .freed _ | .dropped _ => true
  | _ => false

/-- The nodes released and the values dropped, in their order. -/
def settlements (notes : List (Note α)) : List (Note α) := notes.filter Note.settles

theorem settlements_append (notes more : List (Note α)) :
    settlements (notes ++ more) = settlements notes ++ settlements more :=
  List.filter_append _ _

/-- An operation at the point `k` in the memory `m` comes in `n` steps to the memory `m'` and goes on
as `o` says, having settled `q`. -/
inductive Runs (step : μ → κ → Outcome μ κ ρ α) :
    μ → κ → Nat → List (Note α) → μ → Next κ ρ → Prop where
  | stay (m : μ) (k : κ) : Runs step m k 0 [] m (.goto k)
  | step {m m' m'' : μ} {k k' : κ} {o : Next κ ρ} {notes q : List (Note α)} {n : Nat}
    (h : step m k = ⟨m', .goto k', notes⟩) (rest : Runs step m' k' n q m'' o) :
    Runs step m k (n + 1) (settlements notes ++ q) m'' o
  | last {m m' : μ} {k : κ} {o : Next κ ρ} {notes : List (Note α)} (h : step m k = ⟨m', o, notes⟩) :
    Runs step m k 1 (settlements notes) m' o

namespace Runs

variable {step : μ → κ → Outcome μ κ ρ α} {m m' m'' : μ}
  {k k' : κ} {o : Next κ ρ} {notes q q' : List (Note α)} {n n' : Nat}

/-- A step that settles nothing. -/
theorem quiet (h : step m k = ⟨m', .goto k', notes⟩) (hq : settlements notes = [])
    (rest : Runs step m' k' n q m'' o) : Runs step m k (n + 1) q m'' o := by
  have hstep := Runs.step h rest
  rwa [hq, List.nil_append] at hstep

theorem quietly (h : step m k = ⟨m', o, notes⟩) (hq : settlements notes = []) :
    Runs step m k 1 [] m' o := by
  have hlast := Runs.last h
  rwa [hq] at hlast

theorem trans (first : Runs step m k n q m' (.goto k')) (rest : Runs step m' k' n' q' m'' o) :
    Runs step m k (n + n') (q ++ q') m'' o := by
  generalize ho : Next.goto k' = o' at first
  induction first with
  | stay m k =>
    obtain rfl := Next.goto.inj ho
    simpa using rest
  | step h _ ih =>
    have hrest := Runs.step h (ih rest ho)
    rwa [← List.append_assoc, Nat.add_right_comm] at hrest
  | last h =>
    subst ho
    rw [Nat.add_comm]
    exact .step h rest

/-- An operation that nobody disturbs has one end. -/
theorem unique {r r' : ρ} (h : Runs step m k n q m' (.done r)) (h' : Runs step m k n' q' m'' (.done r')) :
    n = n' ∧ q = q' ∧ m' = m'' ∧ r = r' := by
  generalize ho : Next.done r = o at h
  induction h generalizing n' q' with
  | stay => cases ho
  | step h _ ih =>
    cases h' with
    | step h' rest' =>
      obtain ⟨rfl, hk, rfl⟩ := Outcome.mk.inj (h.symm.trans h')
      cases hk
      obtain ⟨rfl, rfl, same⟩ := ih rest' ho
      exact ⟨rfl, rfl, same⟩
    | last h' => cases (Outcome.mk.inj (h.symm.trans h')).2.1
  | last h =>
    subst ho
    cases h' with
    | step h' => cases (Outcome.mk.inj (h.symm.trans h')).2.1
    | last h' =>
      obtain ⟨rfl, hr, rfl⟩ := Outcome.mk.inj (h.symm.trans h')
      exact ⟨rfl, rfl, rfl, Next.done.inj hr⟩

/-- The run of a part seen from the whole. -/
theorem within (step₁ : μ₁ → κ₁ → Outcome μ₁ κ₁ ρ₁ α) (memory : μ → μ₁) (point : κ → κ₁)
    (result : ρ → Next κ₁ ρ₁) (part : ∀ m k, step₁ (memory m) (point k) = (step m k).within memory point result)
    (h : Runs step m k n q m' o) :
    Runs step₁ (memory m) (point k) n q (memory m') (o.within point result) := by
  induction h with
  | stay m k => exact .stay _ _
  | step h _ ih => exact .step (by rw [part, h]; rfl) ih
  | last h => exact .last (by rw [part, h]; rfl)

/-- Steps enough bring an operation to the end of its run. -/
theorem runSteps_eq {fuel : Nat} {r : ρ} (action : κ → Option ActionKind)
    (h : Runs step m k n q m' (.done r)) (enough : n ≤ fuel) :
    ∃ notes, runSteps step action fuel none m k = ⟨m', .done r, notes⟩ ∧ settlements notes = q := by
  generalize ho : Next.done r = o at h
  have free (k : κ) : spend (action k) none = some none := by
    cases action k <;> rfl
  induction h generalizing fuel with
  | stay => cases ho
  | step h _ ih =>
    obtain ⟨fuel, rfl⟩ : ∃ fuel', fuel = fuel' + 1 := ⟨fuel - 1, by omega⟩
    have enough' := Nat.le_of_succ_le_succ enough
    obtain ⟨more, hrun, rfl⟩ := ih enough' ho
    exact ⟨_, by simp only [runSteps, free, h, hrun], settlements_append _ _⟩
  | last h =>
    subst ho
    obtain ⟨fuel, rfl⟩ : ∃ fuel', fuel = fuel' + 1 := ⟨fuel - 1, by omega⟩
    exact ⟨_, by simp only [runSteps, free, h], rfl⟩

end Runs

end LockFreeStack
