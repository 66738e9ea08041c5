import Mathlib.Data.List.Induction

/-!
Runs of a system that is moved from outside, together with what each move adds to its history.
-/

namespace LockFreeStack

variable {σ μ η : Type}

/-- The state after some moves, and the history of them. -/
def play (move : σ → μ → σ) (moments : σ → μ → List η) (x : σ) (ms : List μ) : σ × List η :=
  ms.foldl (fun s m => (move s.1 m, s.2 ++ moments s.1 m)) (x, [])

variable {move : σ → μ → σ} {moments : σ → μ → List η} {x : σ}

theorem play_snoc (ms : List μ) (m : μ) :
    play move moments x (ms ++ [m]) =
      (move (play move moments x ms).1 m,
        (play move moments x ms).2 ++ moments (play move moments x ms).1 m) := by
  simp only [play, List.foldl_append, List.foldl_cons, List.foldl_nil]

theorem play_append (ms ns : List μ) :
    play move moments x (ms ++ ns) =
      ((play move moments (play move moments x ms).1 ns).1,
        (play move moments x ms).2 ++ (play move moments (play move moments x ms).1 ns).2) := by
  induction ns using List.reverseRecOn with
  | nil => simp [play]
  | append_singleton ns n ih => rw [← List.append_assoc, play_snoc, ih, play_snoc, List.append_assoc]

theorem play_cons (m : μ) (ms : List μ) :
    play move moments x (m :: ms) =
      ((play move moments (move x m) ms).1, moments x m ++ (play move moments (move x m) ms).2) :=
  play_append [m] ms

theorem play_fst_eq_foldl (ms : List μ) : (play move moments x ms).1 = ms.foldl move x := by
  induction ms using List.reverseRecOn with
  | nil => rfl
  | append_singleton ms m ih => rw [play_snoc, ih, List.foldl_append, List.foldl_cons, List.foldl_nil]

/-- The state does not depend on what is written down about the moves. -/
theorem play_fst {η' : Type} (moments' : σ → μ → List η') (ms : List μ) :
    (play move moments x ms).1 = (play move moments' x ms).1 :=
  (play_fst_eq_foldl ms).trans (play_fst_eq_foldl ms).symm

/-- What holds at the start, and is kept by every move between states that all have a property,
holds after all moves. -/
theorem play_induction_of (P : σ → Prop) (Inv : σ → List η → Prop) (start : P x → Inv x [])
    (step : ∀ y h m, P y → P (move y m) → Inv y h → Inv (move y m) (h ++ moments y m))
    (ms : List μ) (all : ∀ ms', ms' <+: ms → P (play move moments x ms').1) :
    Inv (play move moments x ms).1 (play move moments x ms).2 := by
  induction ms using List.reverseRecOn with
  | nil => exact start (all [] (List.prefix_refl []))
  | append_singleton ms m ih =>
    have hp := all ms (List.prefix_append ms [m])
    have hp' := all (ms ++ [m]) (List.prefix_refl _)
    rw [play_snoc] at hp' ⊢
    exact step _ _ m hp hp' (ih fun ms' h => all ms' (h.trans (List.prefix_append ms [m])))

/-- What holds at the start and is kept by every move holds after all moves. -/
theorem play_induction (Inv : σ → List η → Prop) (start : Inv x [])
    (step : ∀ y h m, Inv y h → Inv (move y m) (h ++ moments y m)) (ms : List μ) :
    Inv (play move moments x ms).1 (play move moments x ms).2 :=
  play_induction_of (fun _ => True) Inv (fun _ => start) (fun y h m _ _ => step y h m) ms
    fun _ _ => trivial

end LockFreeStack
