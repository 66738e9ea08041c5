import LockFreeStack.Step
import Mathlib.Data.List.DropRight
import Mathlib.Logic.Function.Basic

/-!
Operations that compare a word of shared memory with what they have seen there, and start over when
it is something else. Every failure is charged to a change of the word that another thread has made
since the operation began.
-/

namespace LockFreeStack

/-- What a history tells about one word. A change may be the effect of the operation that makes it,
or only be on the way to one. -/
inductive Beat (ι : Type) where
  | begins (i : ι)
  | fails (i : ι)
  | changes (i : ι) (effect : Bool)
deriving DecidableEq

/-- The point that an operation goes on from. -/
def Next.point? {κ ρ : Type} : Next κ ρ → Option κ
  | .goto q => some q
  | _ => none

variable {ι ω : Type} [DecidableEq ι]

namespace Beat

def isChangeBy (p : ι → Prop) [DecidablePred p] : Beat ι → Bool
  | changes j _ => p j
  | _ => false

def isEffectBy (p : ι → Prop) [DecidablePred p] : Beat ι → Bool
  | changes j effect => effect && p j
  | _ => false

end Beat

/-- What a history tells since thread `i` has begun its last operation. -/
def since (i : ι) (h : List (Beat ι)) : List (Beat ι) := h.rtakeWhile (· ≠ .begins i)

/-- How often the operation of thread `i` has failed. -/
def failures (i : ι) (h : List (Beat ι)) : Nat := (since i h).count (.fails i)

/-- How often other threads have changed the word since the operation of thread `i` began. -/
def rivals (i : ι) (h : List (Beat ι)) : Nat := (since i h).countP (Beat.isChangeBy (· ≠ i))

/-- How many of these changes were effects. -/
def effects (i : ι) (h : List (Beat ι)) : Nat := (since i h).countP (Beat.isEffectBy (· ≠ i))

/-- How many of them were only on the way to one. -/
def stirs (i : ι) (h : List (Beat ι)) : Nat :=
  (since i h).countP fun b => b.isChangeBy (· ≠ i) && !b.isEffectBy (· ≠ i)

section Counts

variable {i j : ι} (h : List (Beat ι)) (b : Beat ι)

theorem since_snoc (i : ι) : since i (h ++ [b]) = if b = .begins i then [] else since i h ++ [b] := by
  unfold since
  rw [List.rtakeWhile_concat]
  by_cases hb : b = .begins i <;> simp [hb]

theorem failures_snoc (i : ι) :
    failures i (h ++ [b]) = if b = .begins i then 0 else failures i h + if b = .fails i then 1 else 0 := by
  unfold failures
  rw [since_snoc]
  split
  · rfl
  · rw [List.count_append, List.count_singleton]
    simp only [beq_iff_eq]

theorem rivals_snoc (i : ι) :
    rivals i (h ++ [b]) =
      if b = .begins i then 0 else rivals i h + if b.isChangeBy (· ≠ i) then 1 else 0 := by
  unfold rivals
  rw [since_snoc]
  split
  · rfl
  · rw [List.countP_append, List.countP_singleton]

/-- An operation that begins later does not cut the history of one in flight. -/
theorem since_append {h' : List (Beat ι)} (later : .begins i ∉ h') : since i (h ++ h') = since i h ++ h' := by
  induction h' using List.reverseRecOn with
  | nil => simp
  | append_singleton h' b ih =>
    rw [List.mem_append, List.mem_singleton, not_or] at later
    rw [← List.append_assoc, since_snoc, if_neg (Ne.symm later.2), ih later.1, List.append_assoc]

theorem rivals_eq (i : ι) : rivals i h = effects i h + stirs i h := by
  unfold rivals effects stirs
  induction since i h with
  | nil => rfl
  | cons b h ih =>
    have split : b.isEffectBy (· ≠ i) → b.isChangeBy (· ≠ i) := by
      cases b <;> simp [Beat.isEffectBy, Beat.isChangeBy]
    rw [List.countP_cons, List.countP_cons, List.countP_cons, ih]
    cases he : b.isEffectBy (· ≠ i) <;> cases hc : b.isChangeBy (· ≠ i) <;> simp_all <;> omega

end Counts

/-- One move of thread `i`: the word and what the thread has seen there, before and after it, and what
the history tells of the move. -/
inductive Round (i : ι) (w w' : ω) (o o' : Option ω) : List (Beat ι) → Prop
  | quiet (word : w' = w) (own : ∀ v, o' = some v → v = w ∨ o = some v) : Round i w w' o o' []
  | begins (word : w' = w) (own : o' = none) : Round i w w' o o' [.begins i]
  | fails (v : ω) (word : w' = w) (was : o = some v) (hv : v ≠ w) (own : ∀ v, o' = some v → v = w) :
    Round i w w' o o' [.fails i]
  | changes (effect : Bool) (own : ∀ v, o' = some v → v = w') : Round i w w' o o' [.changes i effect]

namespace Round

variable {i : ι} {w w' : ω} {o : Option ω}

omit [DecidableEq ι] in
/-- A move after which the thread takes the word to be nothing any more. -/
theorem rest (word : w' = w) : Round i w w' o none [] := .quiet word nofun

omit [DecidableEq ι] in
theorem settles (effect : Bool) : Round i w w' o none [.changes i effect] := .changes effect nofun

end Round

/-- Whoever has seen something else than what is there now is yet to fail, and has been paid for it
by a change. -/
def Chased (w : ω) (seen : ι → Option ω) (h : List (Beat ι)) : Prop :=
  ∀ i, failures i h ≤ rivals i h ∧ ∀ v, seen i = some v → v ≠ w → failures i h < rivals i h

variable {i : ι} {w w' : ω} {seen seen' : ι → Option ω} {bs h : List (Beat ι)}

theorem Chased.start (w : ω) (none : ∀ i, seen i = none) : Chased (ι := ι) w seen [] :=
  fun i => ⟨Nat.le_refl _, fun v hv => by simp [none i] at hv⟩

theorem Chased.round (c : Chased w seen h) (r : Round i w w' (seen i) (seen' i) bs)
    (others : ∀ j ≠ i, seen' j = seen j) : Chased w' seen' (h ++ bs) := by
  intro j
  obtain ⟨le, lt⟩ := c j
  cases r with
  | quiet word own =>
    subst word
    rw [List.append_nil]
    refine ⟨le, fun v hv hne => ?_⟩
    by_cases hj : j = i
    · subst hj
      exact lt v ((own v hv).resolve_left hne) hne
    · exact lt v (others j hj ▸ hv) hne
  | begins word own =>
    subst word
    rw [failures_snoc, rivals_snoc]
    by_cases hj : j = i
    · subst hj
      exact ⟨by simp, fun v hv => by simp [own] at hv⟩
    · have hb : Beat.begins i ≠ .begins j := fun e => hj (Beat.begins.inj e).symm
      simp only [if_neg hb, reduceCtorEq, ↓reduceIte, Beat.isChangeBy, Bool.false_eq_true, Nat.add_zero]
      exact ⟨le, fun v hv => lt v (others j hj ▸ hv)⟩
  | fails v word was hv own =>
    subst word
    rw [failures_snoc, rivals_snoc]
    by_cases hj : j = i
    · subst hj
      have paid := lt v was hv
      simp only [reduceCtorEq, ↓reduceIte, Beat.isChangeBy, Bool.false_eq_true, Nat.add_zero]
      exact ⟨paid, fun u hu hne => (hne (own u hu)).elim⟩
    · have hb : Beat.fails i ≠ .fails j := fun e => hj (Beat.fails.inj e).symm
      simp only [if_neg hb, reduceCtorEq, ↓reduceIte, Beat.isChangeBy, Bool.false_eq_true, Nat.add_zero]
      exact ⟨le, fun v hv => lt v (others j hj ▸ hv)⟩
  | changes effect own =>
    rw [failures_snoc, rivals_snoc]
    simp only [reduceCtorEq, ↓reduceIte, Nat.add_zero, Beat.isChangeBy, ne_eq, decide_not, Bool.not_eq_true',
      decide_eq_false_iff_not]
    by_cases hj : j = i
    · subst hj
      simp only [not_true_eq_false, ↓reduceIte, Nat.add_zero]
      exact ⟨le, fun v hv hne => (hne (own v hv)).elim⟩
    · rw [if_pos (Ne.symm hj)]
      exact ⟨by omega, fun v _ _ => by omega⟩

end LockFreeStack
