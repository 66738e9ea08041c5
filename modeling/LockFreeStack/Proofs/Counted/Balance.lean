import LockFreeStack.Stack.Counted
import Mathlib.Algebra.Group.Int.Defs
import Mathlib.Algebra.Group.Nat.Defs

/-!
The life of a counted node, and how the count of the pair that points to it, its own count and the
number of its holders hang together. Counts are machine words; nothing here needs them not to
overflow.
-/

namespace LockFreeStack

/-- Words of integers less than a word's size apart are equal only if the integers are. -/
theorem ofInt_eq_ofInt_iff {z w : Int} (hl : -2 ^ 64 < z - w) (hr : z - w < 2 ^ 64) :
    Int64.ofInt z = Int64.ofInt w ↔ z = w := by
  rw [← Int64.toInt_inj, Int64.toInt_ofInt, Int64.toInt_ofInt,
    Int.bmod_eq_bmod_iff_bmod_sub_eq_zero]
  constructor
  · intro h
    obtain ⟨-, -, hd⟩ := (Int.bmod_eq_iff (by decide)).mp h
    have hs : (Int64.size : Int) = 2 ^ 64 := rfl
    rw [hs] at hd
    omega
  · rintro rfl
    simp

namespace Pair

variable {ρ : Type} {p q : Pair ρ} {more : Int64}

theorem surplus_eq_ofInt (h : p.surplus = .ok more) : more = .ofInt (p.count.toNat - 2 : Int) := by
  unfold Pair.surplus at h
  dsimp only at h
  split at h
  · obtain rfl := Except.ok.inj h
    rw [Int64.ofInt_sub, Int64.ofInt_eq_ofNat, ← UInt64.toInt64_ofNat', UInt64.ofNat_toNat]
    rfl
  · cases h

/-- The surplus can be added, and negated after that. -/
def Folds (p : Pair ρ) : Prop := ∃ more, p.surplus = .ok more ∧ more ≠ Int64.minValue

/-- Neither one more reference nor the surplus overflows. -/
def Fits (p : Pair ρ) : Prop :=
  (∃ q, p.bump = .ok q) ∧ ∃ more, p.surplus = .ok more ∧ more ≠ Int64.minValue

theorem fits_of_lt (h : p.count.toNat < 2 ^ 63) : p.Fits := by
  have hlt : p.count.toNat + 1 < UInt64.size := by
    rw [show UInt64.size = 2 ^ 64 from rfl]
    omega
  have hcount : p.count.toInt64.toInt = p.count.toNat := by
    rw [← UInt64.ofNat_toNat (x := p.count), UInt64.toInt64_ofNat',
      Int64.toInt_ofNat_of_lt (by simpa using h)]
    simp
  have hmin : Int64.minValue.toInt ≤ p.count.toInt64.toInt - 2 := by
    rw [hcount, Int64.toInt_minValue]
    omega
  have hs : p.surplus = .ok (p.count.toInt64 - 2) := by
    rw [Pair.surplus]
    exact if_pos hmin
  refine ⟨⟨_, by rw [Pair.bump, if_pos hlt]⟩, _, hs, ?_⟩
  rw [surplus_eq_ofInt hs, show Int64.minValue = .ofInt (-2 ^ 63) from rfl]
  intro e
  have := (ofInt_eq_ofInt_iff (by omega) (by omega)).mp e
  omega

theorem folds_of_lt (h : p.count.toNat < 2 ^ 63) : p.Folds := (fits_of_lt h).2

end Pair

namespace Counted

variable {ι : Type} {i : ι} {c c' : UInt64} {h : Nat} {n more : Int64} {a : Address}

/-- What has become of a node: not there, private to a push, linked under a pair with this count,
taken by a pop that has not added its surplus, left to its holders, about to be released, or never
to be released because the surplus of a pair with this count could not be added. -/
inductive Stage (ι : Type) where
  | free
  | fresh (i : ι)
  | linked (count : UInt64)
  | taken (i : ι) (count : UInt64)
  | shared
  | spent (i : ι)
  | lost (count : UInt64)

namespace Stage

/-- There may be holders of the node. -/
def IsKept : Stage ι → Prop
  | linked _ | taken _ _ | shared | lost _ => True
  | _ => False

/-- The node is in the hands of thread `i` alone. -/
def IsOf (i : ι) : Stage ι → Prop
  | fresh j | taken j _ | spent j => j = i
  | _ => False

/-- How the stage of a node may change when thread `i` lets its reference to the node go. -/
inductive Settles (i : ι) : Stage ι → Stage ι → Prop where
  | stay {st : Stage ι} (h : ∀ c, st ≠ taken i c) : Settles i st st
  | share (c : UInt64) : Settles i (taken i c) shared
  | lose {held : Pair Address} (h : ¬held.Folds) : Settles i (taken i held.count) (lost held.count)
  | spend (c : UInt64) : Settles i (taken i c) (spent i)
  | last : Settles i shared (spent i)

namespace Settles

variable {st st' : Stage ι} {j : ι}

theorem others (t : Settles i st st') (hj : j ≠ i) : st' = st ∨ ¬st.IsOf j ∧ ¬st'.IsOf j := by
  cases t with
  | stay => exact .inl rfl
  | share | lose => exact .inr ⟨fun h => hj h.symm, id⟩
  | spend => exact .inr ⟨fun h => hj h.symm, fun h => hj h.symm⟩
  | last => exact .inr ⟨id, fun h => hj h.symm⟩

theorem linked_iff (t : Settles i st st') : st = linked c ↔ st' = linked c := by
  cases t <;> simp

theorem ne_taken (t : Settles i st st') (c : UInt64) : st' ≠ taken i c := by
  cases t with
  | stay h => exact h c
  | share | lose | spend | last => exact nofun

theorem kept_or_spent (t : Settles i st st') (kept : st.IsKept) : st'.IsKept ∨ st' = spent i := by
  cases t with
  | stay => exact .inl kept
  | share | lose => exact .inl trivial
  | spend | last => exact .inr rfl

end Settles

/-- How the stage of a node changes in a step of thread `i`, if it does. -/
inductive Leads (i : ι) : Stage ι → Stage ι → Prop where
  | make : Leads i free (fresh i)
  | link : Leads i (fresh i) (linked 1)
  | raise (c c' : UInt64) : Leads i (linked c) (linked c')
  | take (c : UInt64) : Leads i (linked c) (taken i c)
  | settle {st st' : Stage ι} (t : Settles i st st') : Leads i st st'
  | release : Leads i (spent i) free

/-- What the node's own count `n` and the number `h` of its holders have to do with each other.
`r` references have been returned so far. -/
def Balanced (h : Nat) (n : Int64) : Stage ι → Prop
  | linked c | taken _ c => ∃ r : Nat, n = .ofInt (-r) ∧ c.toNat = 1 + h + r
  | shared => n = .ofInt h ∧ 0 < h ∧ h < 2 ^ 64
  | lost c => ∃ r : Nat, n = .ofInt (-r) ∧ r + h + 2 ≤ c.toNat
  | fresh _ => n = 0 ∧ h = 0
  | spent _ => n = 0 ∧ h = 0
  | free => True

namespace Balanced

theorem link : (linked 1 : Stage ι).Balanced 0 0 := ⟨0, rfl, rfl⟩

theorem raise (b : (linked c : Stage ι).Balanced h n) (hc : c'.toNat = c.toNat + 1) :
    (linked c' : Stage ι).Balanced (h + 1) n := by
  obtain ⟨r, hn, hr⟩ := b
  exact ⟨r, hn, by omega⟩

theorem take (b : (linked c : Stage ι).Balanced h n) : (taken i c).Balanced h n := b

theorem ofInt_sub_one (z : Int) : Int64.ofInt z - 1 = .ofInt (z - 1) := (Int64.ofInt_sub z 1).symm

/-- A holder that returns its reference finds one only if it is the last of a node that is not
linked any more. -/
theorem giveBack {st : Stage ι} (b : st.Balanced (h + 1) n) (kept : st.IsKept) :
    (n = 1 ∧ h = 0 ∧ st = shared) ∨ (n ≠ 1 ∧ st.Balanced h (n - 1)) := by
  have ne_one {r : Nat} (hr : r + 2 < 2 ^ 64) : Int64.ofInt (-r) ≠ 1 := by
    have := ofInt_eq_ofInt_iff (z := -r) (w := 1) (by omega) (by omega)
    exact fun h => by have := this.mp h; omega
  have sub_one (r : Nat) : Int64.ofInt (-r) - 1 = .ofInt (-(r + 1 : Nat)) := by
    rw [ofInt_sub_one]; congr 1; omega
  cases st with
  | linked c | taken j c =>
    obtain ⟨r, rfl, hr⟩ := b
    have := c.toNat_lt
    exact .inr ⟨ne_one (by omega), r + 1, sub_one r, by omega⟩
  | shared =>
    obtain ⟨rfl, _, hh⟩ := b
    have hone : Int64.ofInt (h + 1 : Nat) = 1 ↔ ((h + 1 : Nat) : Int) = 1 :=
      ofInt_eq_ofInt_iff (z := (h + 1 : Nat)) (w := 1) (by omega) (by omega)
    by_cases h0 : h = 0
    · exact .inl ⟨hone.mpr (by omega), h0, rfl⟩
    · refine .inr ⟨fun h' => h0 (by have := hone.mp h'; omega), ?_, by omega, by omega⟩
      rw [ofInt_sub_one]; congr 1; omega
  | lost c =>
    obtain ⟨r, rfl, hr⟩ := b
    have := c.toNat_lt
    exact .inr ⟨ne_one (by omega), r + 1, sub_one r, by omega⟩
  | free | fresh j | spent j => exact kept.elim

/-- The surplus brings the node's own count to the number of the other holders. -/
theorem fold (b : (taken i c).Balanced (h + 1) n) (hs : (Pair.mk c a).surplus = .ok more) :
    n + more = .ofInt h ∧ h < 2 ^ 64 ∧ (n = -more ↔ h = 0) := by
  obtain ⟨r, rfl, hr⟩ := b
  have hc := c.toNat_lt
  have hmore : more = .ofInt (c.toNat - 2 : Int) := Pair.surplus_eq_ofInt hs
  subst hmore
  refine ⟨?_, by omega, ?_⟩
  · rw [← Int64.ofInt_add]; congr 1; omega
  · rw [← Int64.ofInt_neg, ofInt_eq_ofInt_iff (by omega) (by omega)]
    omega

theorem lose (b : (taken i c).Balanced (h + 1) n) : (lost c : Stage ι).Balanced h n := by
  obtain ⟨r, hn, hr⟩ := b
  exact ⟨r, hn, by omega⟩

end Balanced

end Stage

end Counted

end LockFreeStack
