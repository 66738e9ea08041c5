import LockFreeStack.Pair.Packing
import Mathlib.Data.Nat.Bitwise

/-!
The two packings as bijections. A word and the pairs that a packing admits determine each other, and
a pair that it does not admit is refused with the panic of its first part that is too large.
-/

namespace LockFreeStack

/-! ### The seams of a word -/

section Seams

theorem getLsbD_addressMask {i : Nat} (h : i < 64) :
    (0xffffffffffff#64).getLsbD i = decide (i < 48) := by
  rw [show 0xffffffffffff#64 = BitVec.ofNat 64 (2 ^ 48 - 1) from rfl, BitVec.getLsbD_ofNat,
    Nat.testBit_two_pow_sub_one, decide_eq_true h, Bool.true_and]

theorem getLsbD_of_toNat_lt {x : BitVec 64} {k i : Nat} (h : x.toNat < 2 ^ k) (hi : k ≤ i) :
    x.getLsbD i = false :=
  Nat.testBit_lt_two_pow (h.trans_le (Nat.pow_le_pow_right (by decide) hi))

variable {c a : BitVec 64}

theorem wide_count : ((c.setWidth 128 <<< 64 ||| a.setWidth 128) >>> 64).setWidth 64 = c := by
  apply BitVec.eq_of_getLsbD_eq
  intro i hi
  have ha : a.getLsbD (64 + i) = false := BitVec.getLsbD_of_ge a _ (by omega)
  simp only [BitVec.getLsbD_setWidth, BitVec.getLsbD_ushiftRight, BitVec.getLsbD_or,
    BitVec.getLsbD_shiftLeft, ha, hi, show 64 + i < 128 by omega, show ¬64 + i < 64 by omega,
    show i < 128 by omega, Nat.add_sub_cancel_left, decide_true, decide_false, Bool.not_false,
    Bool.true_and, Bool.and_false, Bool.or_false]

theorem wide_address : (c.setWidth 128 <<< 64 ||| a.setWidth 128).setWidth 64 = a := by
  apply BitVec.eq_of_getLsbD_eq
  intro i hi
  simp only [BitVec.getLsbD_setWidth, BitVec.getLsbD_or, BitVec.getLsbD_shiftLeft, hi,
    show i < 128 by omega, decide_true, Bool.not_true, Bool.true_and, Bool.and_false,
    Bool.false_and, Bool.false_or]

theorem wide_join (w : BitVec 128) :
    ((w >>> 64).setWidth 64).setWidth 128 <<< 64 ||| (w.setWidth 64).setWidth 128 = w := by
  apply BitVec.eq_of_getLsbD_eq
  intro i hi
  by_cases h : i < 64
  · simp [hi, h]
  · simp [hi, h, show i - 64 < 64 by omega, Nat.add_sub_cancel' (Nat.le_of_not_lt h)]

theorem packed_count (ha : a.toNat < 2 ^ 48) (hc : c.toNat < 2 ^ 16) :
    (c <<< 48 ||| a) >>> 48 = c := by
  apply BitVec.eq_of_getLsbD_eq
  intro i hi
  simp only [BitVec.getLsbD_or, BitVec.getLsbD_shiftLeft, BitVec.getLsbD_ushiftRight]
  rw [getLsbD_of_toNat_lt ha (Nat.le_add_right 48 i)]
  by_cases h : i < 16
  · simp
    omega
  · simp [getLsbD_of_toNat_lt hc (Nat.le_of_not_lt h)]

theorem packed_address (ha : a.toNat < 2 ^ 48) : (c <<< 48 ||| a) &&& 0xffffffffffff#64 = a := by
  apply BitVec.eq_of_getLsbD_eq
  intro i hi
  simp only [BitVec.getLsbD_and, BitVec.getLsbD_or, BitVec.getLsbD_shiftLeft, getLsbD_addressMask hi]
  by_cases h : i < 48
  · simp [h]
  · simp [h, getLsbD_of_toNat_lt ha (Nat.le_of_not_lt h)]

theorem packed_join (w : BitVec 64) : (w >>> 48) <<< 48 ||| (w &&& 0xffffffffffff#64) = w := by
  apply BitVec.eq_of_getLsbD_eq
  intro i hi
  simp only [BitVec.getLsbD_and, BitVec.getLsbD_or, BitVec.getLsbD_shiftLeft,
    BitVec.getLsbD_ushiftRight, getLsbD_addressMask hi]
  by_cases h : i < 48
  · simp [h]
  · simp [h, hi, Nat.add_sub_cancel' (Nat.le_of_not_lt h)]

theorem shiftRight_eq_zero_iff (x k : UInt64) (hk : k.toNat < 64) :
    x >>> k = 0 ↔ x.toNat < 2 ^ k.toNat := by
  rw [← UInt64.toNat_inj, UInt64.toNat_shiftRight, Nat.mod_eq_of_lt hk, Nat.shiftRight_eq_div_pow]
  exact Nat.div_eq_zero_iff_lt (Nat.two_pow_pos _)

end Seams

namespace Packing

variable {p : Packing} {x y : Pair UInt64}

/-- The pairs that a packing has room for. -/
def Admits : Packing → Pair UInt64 → Prop
  | wide, _ => True
  | packed, x => x.count.toNat < 2 ^ 16 ∧ x.address.toNat < 2 ^ 48

instance (p : Packing) (x : Pair UInt64) : Decidable (p.Admits x) :=
  match p with
  | wide => inferInstanceAs (Decidable True)
  | packed => inferInstanceAs (Decidable (_ ∧ _))

/-- The panic that a pair without room meets: its address is looked at before its count. -/
def refusal (p : Packing) (x : Pair UInt64) : Option Panic :=
  if p.Admits x then none
  else if 2 ^ 48 ≤ x.address.toNat then some (.wideAddress x.address) else some .countOverflow

theorem refusal_eq_none_iff : p.refusal x = none ↔ p.Admits x := by
  unfold refusal
  split
  · simp only [*]
  · split <;> simp only [*, reduceCtorEq]

/-- The bits of a pair, where there is room for them. -/
def word : (p : Packing) → Pair UInt64 → BitVec p.width
  | wide, x => (x.count.toBitVec.setWidth 128 <<< 64) ||| x.address.toBitVec.setWidth 128
  | packed, x => (x.count.toBitVec <<< 48) ||| x.address.toBitVec

theorem pack_of_admits (h : p.Admits x) : p.pack x = .ok (p.word x) := by
  cases p with
  | wide => rfl
  | packed =>
    have hc : x.count >>> 16 = 0 := (shiftRight_eq_zero_iff _ 16 (by decide)).mpr h.1
    have ha : x.address >>> 48 = 0 := (shiftRight_eq_zero_iff _ 48 (by decide)).mpr h.2
    simp only [pack, ha, hc, ne_eq, not_true_eq_false, if_false, word]

theorem pack_of_refusal {e : Panic} (h : p.refusal x = some e) : p.pack x = .error e := by
  unfold refusal at h
  split at h
  · cases h
  rename_i hn
  cases p with
  | wide => exact absurd trivial hn
  | packed =>
    have ha := shiftRight_eq_zero_iff x.address 48 (by decide)
    have hc := shiftRight_eq_zero_iff x.count 16 (by decide)
    split at h
    · obtain rfl := Option.some.inj h
      exact if_pos fun h0 => absurd (ha.mp h0) (Nat.not_lt.mpr ‹_›)
    · obtain rfl := Option.some.inj h
      have hlt : x.address.toNat < 2 ^ 48 := Nat.lt_of_not_ge ‹_›
      have hge : ¬x.count.toNat < 2 ^ 16 := fun h => hn ⟨h, hlt⟩
      exact (if_neg (not_not.mpr (ha.mpr hlt))).trans (if_pos fun h0 => hge (hc.mp h0))

/-- Packing fails on exactly the pairs without room, and says what they lack. -/
theorem pack_eq (p : Packing) (x : Pair UInt64) :
    p.pack x = match p.refusal x with
      | none => .ok (p.word x)
      | some e => .error e := by
  cases h : p.refusal x with
  | none => exact pack_of_admits (refusal_eq_none_iff.mp h)
  | some e => exact pack_of_refusal h

theorem unpack_word (h : p.Admits x) : p.unpack (p.word x) = x := by
  cases p with
  | wide => simp only [word, unpack, wide_count, wide_address]
  | packed => simp only [word, unpack, packed_count h.2 h.1, packed_address h.2]

theorem word_unpack (w : BitVec p.width) : p.word (p.unpack w) = w := by
  cases p with
  | wide => exact wide_join w
  | packed => exact packed_join w

theorem admits_unpack (w : BitVec p.width) : p.Admits (p.unpack w) := by
  cases p with
  | wide => trivial
  | packed =>
    constructor
    · change (w >>> 48).toNat < 2 ^ 16
      rw [BitVec.toNat_ushiftRight, Nat.shiftRight_eq_div_pow]
      have hw : w.toNat < 2 ^ 64 := w.isLt
      omega
    · change (w &&& 0xffffffffffff#64).toNat < 2 ^ 48
      rw [BitVec.toNat_and]
      exact Nat.and_lt_two_pow _ (by decide)

/-- Every bit pattern is the word of a pair that is admitted. -/
theorem pack_unpack (w : BitVec p.width) : p.pack (p.unpack w) = .ok w := by
  rw [pack_of_admits (admits_unpack w), word_unpack]

theorem unpack_of_pack {w : BitVec p.width} (h : p.pack x = .ok w) : p.unpack w = x := by
  rw [pack_eq] at h
  split at h
  · obtain rfl := Except.ok.inj h
    exact unpack_word (refusal_eq_none_iff.mp ‹_›)
  · cases h

theorem word_inj (hx : p.Admits x) (hy : p.Admits y) : p.word x = p.word y ↔ x = y := by
  constructor
  · intro h
    rw [← unpack_word hx, ← unpack_word hy, h]
  · rintro rfl
    rfl

end Packing

end LockFreeStack
