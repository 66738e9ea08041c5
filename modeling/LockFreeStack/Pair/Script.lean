import LockFreeStack.Pair.Packing

/-!
A list of operations performed on one cell, with the cell's content after each.
-/

namespace LockFreeStack.Cell

inductive Op where
  | load
  | exchange (expected new : Pair UInt64)
  | exchangeWeak (spurious : Bool) (expected new : Pair UInt64)
  | renew (x : Pair UInt64)
  | equal (x y : Pair UInt64)
  | text (l : Layout) (x : Pair UInt64)
  | isLockFree
  | unknown

inductive Answer where
  | pair (x : Pair UInt64)
  | exchanged (success : Bool) (found : Pair UInt64)
  | flag (b : Bool)
  | text (s : String)
  | panic (e : Panic)
  | unknown

variable {p : Packing}

def perform (c : Cell p) : Op → Cell p × Answer
  | .load => (c, .pair c.load)
  | .exchange expected new =>
    match c.compareExchange expected new with
    | .ok (c', success, found) => (c', .exchanged success found)
    | .error e => (c, .panic e)
  | .exchangeWeak spurious expected new =>
    match c.compareExchangeWeak spurious expected new with
    | .ok (c', success, found) => (c', .exchanged success found)
    | .error e => (c, .panic e)
  | .renew x =>
    match ofPair x with
    | .ok c' => (c', .pair x)
    | .error e => (c, .panic e)
  | .equal x y => (c, .flag (x = y))
  | .text l x => (c, .text (x.text l))
  | .isLockFree => (c, .flag true)
  | .unknown => (c, .unknown)

def performAll (c : Cell p) : List Op → List (Answer × Pair UInt64)
  | [] => []
  | op :: rest =>
    let (c', a) := c.perform op
    (a, c'.load) :: performAll c' rest

/-- The answers of a script, unless the initial pair cannot be stored. -/
def script (p : Packing) (initial : Pair UInt64) (ops : List Op) :
    Except Panic (List (Answer × Pair UInt64)) :=
  (ofPair initial : Except Panic (Cell p)).map fun c => c.performAll ops

end LockFreeStack.Cell
