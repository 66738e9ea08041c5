import LockFreeStack.Pair.Script
import LockFreeStack.Proofs.Pair.Words

/-!
The cell as a variable that stores the pair itself. The word of the cell is never seen through its
operations: whatever is performed, the answers and the content are those of the variable, and an
operation that is given a pair without room panics and changes nothing.
-/

namespace LockFreeStack

namespace Cell

variable {p : Packing}

namespace Op

/-- The pairs that an operation packs, in the order in which it packs them. -/
def packs : Op → List (Pair UInt64)
  | exchange expected new => [expected, new]
  | exchangeWeak _ expected new => [expected, new]
  | renew x => [x]
  | load | equal _ _ | text _ _ | isLockFree | unknown => []

/-- The panic of the first pair without room. -/
def refusal (p : Packing) (op : Op) : Option Panic := op.packs.findSome? p.refusal

theorem refusal_eq_none_iff {op : Op} : op.refusal p = none ↔ ∀ x ∈ op.packs, p.Admits x := by
  simp only [refusal, List.findSome?_eq_none_iff, Packing.refusal_eq_none_iff]

end Op

/-- What an operation does to a variable that stores the pair. -/
def Plain.perform (x : Pair UInt64) : Op → Pair UInt64 × Answer
  | .load => (x, .pair x)
  | .exchange expected new =>
    if x = expected then (new, .exchanged true x) else (x, .exchanged false x)
  | .exchangeWeak spurious expected new =>
    if x = expected ∧ ¬spurious then (new, .exchanged true x) else (x, .exchanged false x)
  | .renew y => (y, .pair y)
  | .equal y z => (x, .flag (y = z))
  | .text l y => (x, .text (y.text l))
  | .isLockFree => (x, .flag true)
  | .unknown => (x, .unknown)

def Plain.performAll (x : Pair UInt64) : List Op → List (Answer × Pair UInt64)
  | [] => []
  | op :: rest =>
    let (x', a) := Plain.perform x op
    (a, x') :: performAll x' rest

/-- The variable with the limits of a packing: what there is no room for is refused. -/
def Plain.attempt (p : Packing) (x : Pair UInt64) (op : Op) : Pair UInt64 × Answer :=
  match op.refusal p with
  | none => Plain.perform x op
  | some e => (x, .panic e)

def Plain.attemptAll (p : Packing) (x : Pair UInt64) : List Op → List (Answer × Pair UInt64)
  | [] => []
  | op :: rest =>
    let (x', a) := Plain.attempt p x op
    (a, x') :: attemptAll p x' rest

theorem admits_load (c : Cell p) : p.Admits c.load := Packing.admits_unpack c.word

/-- A cell holds the word of an admitted pair iff it holds the pair. -/
theorem word_eq_iff {c : Cell p} {x : Pair UInt64} (h : p.Admits x) :
    c.word = p.word x ↔ c.load = x := by
  rw [← Packing.word_inj c.admits_load h]
  unfold load
  rw [Packing.word_unpack]

theorem load_mk {x : Pair UInt64} (h : p.Admits x) : (⟨p.word x⟩ : Cell p).load = x :=
  Packing.unpack_word h

theorem ofPair_eq (x : Pair UInt64) : (ofPair x : Except Panic (Cell p)) = match p.refusal x with
    | none => .ok ⟨p.word x⟩
    | some e => .error e := by
  unfold ofPair
  rw [Packing.pack_eq]
  cases p.refusal x <;> rfl

theorem compareExchange_eq (c : Cell p) (expected new : Pair UInt64) :
    c.compareExchange expected new =
      match [expected, new].findSome? p.refusal with
      | none => .ok (if c.load = expected then ⟨p.word new⟩ else c, c.load = expected, c.load)
      | some e => .error e := by
  unfold compareExchange
  rw [Packing.pack_eq p expected, Packing.pack_eq p new]
  cases he : p.refusal expected with
  | some e => simp [he]
  | none =>
    cases hn : p.refusal new with
    | some e => simp [he, hn]
    | none => simp [he, hn, word_eq_iff (Packing.refusal_eq_none_iff.mp he)]

theorem compareExchangeWeak_eq (c : Cell p) (spurious : Bool) (expected new : Pair UInt64) :
    c.compareExchangeWeak spurious expected new =
      match [expected, new].findSome? p.refusal with
      | none =>
        .ok (if c.load = expected ∧ ¬spurious then ⟨p.word new⟩ else c,
          c.load = expected ∧ ¬spurious, c.load)
      | some e => .error e := by
  unfold compareExchangeWeak
  rw [compareExchange_eq]
  cases [expected, new].findSome? p.refusal with
  | some e => rfl
  | none => cases spurious <;> simp [Except.map]

/-- An operation that is given a pair without room leaves the cell as it is, to the bit. -/
theorem perform_of_refusal {op : Op} {e : Panic} (c : Cell p) (h : op.refusal p = some e) :
    c.perform op = (c, .panic e) := by
  cases op with
  | exchange expected new =>
    simp only [Op.refusal, Op.packs] at h
    simp only [perform, compareExchange_eq, h]
  | exchangeWeak spurious expected new =>
    simp only [Op.refusal, Op.packs] at h
    simp only [perform, compareExchangeWeak_eq, h]
  | renew x =>
    simp only [Op.refusal, Op.packs, List.findSome?_singleton] at h
    simp only [perform, ofPair_eq, h]
  | load | equal | text | isLockFree | unknown => cases h

/-- One operation, seen through the content of the cell. -/
theorem perform_eq (c : Cell p) (op : Op) (h : op.refusal p = none) :
    ((c.perform op).1.load, (c.perform op).2) = Plain.perform c.load op := by
  have hadmits := Op.refusal_eq_none_iff.mp h
  cases op with
  | exchange expected new =>
    have hnew : p.Admits new := hadmits new (by simp [Op.packs])
    simp only [Op.refusal, Op.packs] at h
    simp only [perform, compareExchange_eq, h, Plain.perform]
    by_cases hl : c.load = expected
    · simp [hl, load_mk hnew]
    · simp [hl]
  | exchangeWeak spurious expected new =>
    have hnew : p.Admits new := hadmits new (by simp [Op.packs])
    simp only [Op.refusal, Op.packs] at h
    simp only [perform, compareExchangeWeak_eq, h, Plain.perform]
    by_cases hl : c.load = expected ∧ ¬spurious
    · rw [decide_eq_true hl, if_pos hl, if_pos hl, load_mk hnew]
    · rw [decide_eq_false hl, if_neg hl, if_neg hl]
  | renew x =>
    simp only [Op.refusal, Op.packs, List.findSome?_singleton] at h
    simp only [perform, ofPair_eq, h, Plain.perform, load_mk (Packing.refusal_eq_none_iff.mp h)]
  | load | equal | text | isLockFree | unknown => rfl

theorem attempt_eq (c : Cell p) (op : Op) :
    ((c.perform op).1.load, (c.perform op).2) = Plain.attempt p c.load op := by
  unfold Plain.attempt
  cases h : op.refusal p with
  | none => exact perform_eq c op h
  | some e => rw [perform_of_refusal c h]

theorem performAll_eq (c : Cell p) (ops : List Op) :
    c.performAll ops = Plain.attemptAll p c.load ops := by
  induction ops generalizing c with
  | nil => rfl
  | cons op rest ih => simp only [performAll, Plain.attemptAll, ← attempt_eq c op, ih]

theorem script_eq (initial : Pair UInt64) (ops : List Op) :
    script p initial ops = match p.refusal initial with
      | none => .ok (Plain.attemptAll p initial ops)
      | some e => .error e := by
  unfold script
  rw [ofPair_eq]
  cases h : p.refusal initial with
  | some e => rfl
  | none =>
    change Except.ok (performAll ⟨p.word initial⟩ ops) = _
    rw [performAll_eq, load_mk (Packing.refusal_eq_none_iff.mp h)]

/-- With room for every pair the limits do not show. -/
theorem attemptAll_of_admits {ops : List Op} (x : Pair UInt64)
    (h : ∀ op ∈ ops, ∀ y ∈ op.packs, p.Admits y) :
    Plain.attemptAll p x ops = Plain.performAll x ops := by
  induction ops generalizing x with
  | nil => rfl
  | cons op rest ih =>
    have hop : op.refusal p = none := Op.refusal_eq_none_iff.mpr (h op (by simp))
    have hrest := fun y => ih y fun o ho => h o (by simp [ho])
    simp only [Plain.attemptAll, Plain.performAll, Plain.attempt, hop, hrest]

/-- In both packings the words are in bijection with the pairs that are admitted, and the cell is,
operation by operation, the variable that stores the pair. What is not admitted is refused for its
address before its count and for the expected pair before the new one, and leaves the cell alone. -/
theorem refines_pair (p : Packing) :
    (∀ x, p.Admits x → ∃ w, p.pack x = .ok w ∧ p.unpack w = x) ∧
    (∀ w, p.pack (p.unpack w) = .ok w) ∧
    (∀ x y v w, p.pack x = .ok v → p.pack y = .ok w → (v = w ↔ x = y)) ∧
    (∀ x, ¬p.Admits x → p.pack x = .error
      (if 2 ^ 48 ≤ x.address.toNat then .wideAddress x.address else .countOverflow)) ∧
    (∀ (c : Cell p) op e, op.refusal p = some e → c.perform op = (c, .panic e)) ∧
    (∀ initial ops, p.Admits initial → (∀ op ∈ ops, ∀ x ∈ op.packs, p.Admits x) →
      script p initial ops = .ok (Plain.performAll initial ops)) ∧
    (∀ initial ops, script p initial ops = match p.refusal initial with
      | none => .ok (Plain.attemptAll p initial ops)
      | some e => .error e) := by
  refine ⟨fun x h => ⟨p.word x, Packing.pack_of_admits h, Packing.unpack_word h⟩,
    Packing.pack_unpack, fun x y v w hx hy => ?_, fun x h => ?_, fun c _ _ => perform_of_refusal c,
    fun initial ops hi ho => ?_, script_eq⟩
  · constructor
    · rintro rfl
      rw [← Packing.unpack_of_pack hx, Packing.unpack_of_pack hy]
    · rintro rfl
      exact Except.ok.inj (hx.symm.trans hy)
  · apply Packing.pack_of_refusal
    unfold Packing.refusal
    rw [if_neg h]
    split <;> rfl
  · rw [script_eq, Packing.refusal_eq_none_iff.mpr hi, attemptAll_of_admits initial ho]

/-- The largest pair of the packed word, exchanged, missed and renewed. -/
theorem refines_pair_extremes :
    Packing.packed.Admits ⟨65535, 281474976710655⟩ ∧
    script .packed ⟨65535, 281474976710655⟩
        [.exchange ⟨65534, 281474976710655⟩ ⟨1, 1⟩, .exchangeWeak true ⟨65535, 281474976710655⟩ ⟨1, 1⟩,
          .exchange ⟨65535, 281474976710655⟩ ⟨1, 1⟩, .renew ⟨0, 0⟩] =
      .ok [(.exchanged false ⟨65535, 281474976710655⟩, ⟨65535, 281474976710655⟩),
        (.exchanged false ⟨65535, 281474976710655⟩, ⟨65535, 281474976710655⟩),
        (.exchanged true ⟨65535, 281474976710655⟩, ⟨1, 1⟩), (.pair ⟨0, 0⟩, ⟨0, 0⟩)] := by
  have hlast : Packing.packed.Admits ⟨65535, 281474976710655⟩ := by decide
  obtain ⟨-, -, -, -, -, hscript, -⟩ := refines_pair .packed
  exact ⟨hlast, (hscript _ _ hlast (by decide)).trans rfl⟩

end Cell

end LockFreeStack
