import LockFreeStack.Proofs.Play
import LockFreeStack.Step

/-!
One operation amid others. It is taken step by step, and between its steps the others change the memory
that it works on. Kept are the instants at which the operation is under way.
-/

namespace LockFreeStack

variable {μ κ ρ α δ : Type}

/-- An operation under way, or over, and the memory it works on. -/
structure Undertaking (μ κ ρ : Type) where
  memory : μ
  next : Next κ ρ

/-- An instant at which an operation is under way: the memory then, and what the operation shows if it
takes a step. -/
structure Instant (μ α : Type) where
  memory : μ
  notes : List (Note α)

namespace Undertaking

/-- The operation takes a step, or the others make a change. -/
inductive Turn (δ : Type) where
  | step
  | change (d : δ)

namespace Turn

def isStep : Turn δ → Bool
  | step => true
  | change _ => false

def change? : Turn δ → Option δ
  | step => none
  | change d => some d

end Turn

section

variable (step : μ → κ → Outcome μ κ ρ α) (change : μ → δ → μ)

def turn (x : Undertaking μ κ ρ) : Turn δ → Undertaking μ κ ρ
  | .step =>
    match x.next with
    | .goto k => ⟨(step x.memory k).memory, (step x.memory k).next⟩
    | _ => x
  | .change d => { x with memory := change x.memory d }

/-- The instant of a turn, unless the operation is over. -/
def instants (x : Undertaking μ κ ρ) (u : Turn δ) : List (Instant μ α) :=
  match x.next with
  | .goto k => [⟨x.memory, if u.isStep then (step x.memory k).notes else []⟩]
  | _ => []

/-- The operation after some turns, and the instants at which it was under way. -/
def go (x : Undertaking μ κ ρ) (us : List (Turn δ)) : Undertaking μ κ ρ × List (Instant μ α) :=
  play (turn step change) (instants step) x us

end

variable {step : μ → κ → Outcome μ κ ρ α} {change : μ → δ → μ} {x : Undertaking μ κ ρ}

theorem go_snoc (us : List (Turn δ)) (u : Turn δ) :
    x.go step change (us ++ [u]) =
      ((x.go step change us).1.turn step change u,
        (x.go step change us).2 ++ (x.go step change us).1.instants step u) := play_snoc us u

/-- What holds at the start, and is kept by every step of the operation and by every change of the others,
during the operation and afterwards, holds after all turns. -/
theorem go_induction (Inv : Undertaking μ κ ρ → List (Instant μ α) → Prop) (start : Inv x [])
    (own : ∀ m k h, Inv ⟨m, .goto k⟩ h →
      Inv ⟨(step m k).memory, (step m k).next⟩ (h ++ [⟨m, (step m k).notes⟩]))
    (others : ∀ m k h d, Inv ⟨m, .goto k⟩ h → Inv ⟨change m d, .goto k⟩ (h ++ [⟨m, []⟩]))
    (afterwards : ∀ m n h d, (∀ k, n ≠ .goto k) → Inv ⟨m, n⟩ h → Inv ⟨change m d, n⟩ h)
    (us : List (Turn δ)) : Inv (x.go step change us).1 (x.go step change us).2 := by
  refine play_induction Inv start (fun y h u inv => ?_) us
  obtain ⟨m, k | r | f⟩ := y
  · cases u with
    | step => exact own m k h inv
    | change d => exact others m k h d inv
  all_goals
    rw [instants, List.append_nil]
    cases u with
    | step => exact inv
    | change d => exact afterwards m _ h d nofun inv

/-- Where every step leaves less to do, the steps that have been taken were there to take. -/
theorem left_add_steps_le (left : κ → Nat) (Ok : μ → Prop) {k k' : κ}
    (less : ∀ m k k', Ok m → (step m k).next = .goto k' → left k' < left k) (start : x.next = .goto k)
    (us : List (Turn δ)) (ok : ∀ z ∈ (x.go step change us).2, Ok z.memory)
    (now : (x.go step change us).1.next = .goto k') : left k' + us.countP Turn.isStep ≤ left k := by
  induction us using List.reverseRecOn generalizing k' with
  | nil =>
    obtain rfl := Next.goto.inj (start.symm.trans now)
    exact Nat.le_refl _
  | append_singleton us u ih =>
    rw [go_snoc] at ok now
    have before {q : κ} : (x.go step change us).1.next = .goto q →
        left q + us.countP Turn.isStep ≤ left k := ih fun z hz => ok z (List.mem_append_left _ hz)
    generalize x.go step change us = s at ok now before
    -- The operation is under way after the turn, so it was under way before.
    obtain ⟨⟨m, q | r | f⟩, h⟩ := s
    · have le := before rfl
      rw [List.countP_append, List.countP_singleton]
      cases u with
      | step =>
        have here : Ok m := ok ⟨m, (step m q).notes⟩ (by simp [instants, Turn.isStep])
        have lt := less m q k' here now
        simp only [Turn.isStep, if_true]
        omega
      | change d =>
        obtain rfl := Next.goto.inj now
        exact le
    all_goals cases u <;> cases now

/-- Two memories that no step of the operation tells apart: one has seen it, and the other has seen the
changes of the others alone. -/
theorem go_alike (R : μ → μ → Prop) (own : ∀ m m' k, R m m' → R (step m k).memory m')
    (others : ∀ m m' d, R m m' → R (change m d) (change m' d)) {m : μ} (start : R x.memory m)
    (us : List (Turn δ)) :
    R (x.go step change us).1.memory ((us.filterMap Turn.change?).foldl change m) := by
  induction us using List.reverseRecOn with
  | nil => exact start
  | append_singleton us u ih =>
    rw [go_snoc, List.filterMap_append, List.foldl_append]
    cases u with
    | step =>
      rcases hn : (x.go step change us).1.next with k | r | f <;> simp only [turn, hn]
      · exact own _ _ k ih
      · exact ih
      · exact ih
    | change d => exact others _ _ d ih

end Undertaking

end LockFreeStack
