import LockFreeStack.Pair.Basic

/-!
The two ways to lay a pair out in one word, and the cell that is read and exchanged as that word.
-/

namespace LockFreeStack

/-- `wide`: 64 bits each for count and address. `packed`: 16 bits for the count, 48 for the address. -/
inductive Packing where
  | wide
  | packed
deriving DecidableEq

namespace Packing

abbrev width : Packing → Nat
  | wide => 128
  | packed => 64

/-- The word of a pair: the count in the high bits, the address in the low ones. The packed word
refuses an address that needs more than 48 bits, then a count that needs more than 16. -/
def pack : (p : Packing) → Pair UInt64 → Except Panic (BitVec p.width)
  | wide, x => .ok ((x.count.toBitVec.setWidth 128 <<< 64) ||| x.address.toBitVec.setWidth 128)
  | packed, x =>
    if x.address >>> 48 ≠ 0 then .error (.wideAddress x.address)
    else if x.count >>> 16 ≠ 0 then .error .countOverflow
    else .ok ((x.count.toBitVec <<< 48) ||| x.address.toBitVec)

def unpack : (p : Packing) → BitVec p.width → Pair UInt64
  | wide, w => ⟨.ofBitVec ((w >>> 64).setWidth 64), .ofBitVec (w.setWidth 64)⟩
  | packed, w => ⟨.ofBitVec (w >>> 48), .ofBitVec (w &&& 0xffffffffffff#64)⟩

end Packing

/-- One word of memory that holds a pair. -/
structure Cell (p : Packing) where
  word : BitVec p.width

namespace Cell

variable {p : Packing}

def ofPair (x : Pair UInt64) : Except Panic (Cell p) := (p.pack x).map Cell.mk

def load (c : Cell p) : Pair UInt64 := p.unpack c.word

/-- Replaces `expected` by `new` if the words are equal. Answers whether they were, and the pair
found. -/
def compareExchange (c : Cell p) (expected new : Pair UInt64) :
    Except Panic (Cell p × Bool × Pair UInt64) :=
  match p.pack expected with
  | .error e => .error e
  | .ok e =>
    match p.pack new with
    | .error e => .error e
    | .ok n => .ok (if c.word = e then ⟨n⟩ else c, c.word = e, c.load)

/-- The exchange that may also fail although the words are equal: `spurious` says that it does. -/
def compareExchangeWeak (c : Cell p) (spurious : Bool) (expected new : Pair UInt64) :
    Except Panic (Cell p × Bool × Pair UInt64) :=
  (c.compareExchange expected new).map fun (c', success, found) =>
    if spurious then (c, false, found) else (c', success, found)

end Cell

end LockFreeStack
