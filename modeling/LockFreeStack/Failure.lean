import LockFreeStack.Address

/-!
The ways an operation ends without its result: a failure that it reports to its caller, a panic
at a violated contract, and a fault, an access that memory safety forbids.
-/

namespace LockFreeStack

/-- What an operation reports to its caller. -/
inductive Failure where
  | allocation
  | exhausted (capacity : Nat)
deriving DecidableEq

namespace Failure

def name : Failure → String
  | allocation => "AllocationFailure"
  | exhausted _ => "ReclamationCapacityExceeded"

def message : Failure → String
  | allocation => "memory allocation for a stack node failed"
  | exhausted capacity => "all " ++ toString capacity ++ " hazard pointer slots are in use"

def text (l : Layout) : Failure → String
  | allocation => "AllocationFailure"
  | exhausted capacity =>
    l.record "ReclamationCapacityExceeded" [("capacity", toString capacity)]

end Failure

/-- A contract broken by the caller, or an assertion that does not hold. -/
inductive Panic where
  | noSlots
  | foreignSlot
  | secondClaim (token : Nat)
  | unownedToken
  | outOfBounds (length index : Nat)
  | countOverflow
  | wideAddress (address : UInt64)
  | additionOverflow
  | subtractionOverflow
  | negationOverflow
  | selfLink (entry : Nat)
deriving DecidableEq

namespace Panic

def message : Panic → String
  | noSlots => "a hazard pointer registry needs at least one slot"
  | foreignSlot => "hazard slot belongs to a different registry than the stack"
  | secondClaim token => "thread " ++ toString token ++ " already owns a slot in this registry"
  | unownedToken => "assertion \x60left != right\x60 failed\n  left: 0\n right: 0"
  | outOfBounds length index =>
    "index out of bounds: the len is " ++ toString length ++ " but the index is " ++ toString index
  | countOverflow => "external count overflow"
  | wideAddress a =>
    "assertion \x60left == right\x60 failed: address wider than 48 bits\n  left: " ++
      toString (a >>> 48 <<< 48).toNat ++ "\n right: 0"
  | additionOverflow => "attempt to add with overflow"
  | subtractionOverflow => "attempt to subtract with overflow"
  | negationOverflow => "attempt to negate with overflow"
  | selfLink _ => "assertion \x60left != right\x60 failed"

end Panic

/-- Why an operation has no result of its own. -/
inductive Trouble where
  | failure (f : Failure)
  | panic (p : Panic)
deriving DecidableEq

/-- An access to memory that is not, or no longer, what the operation takes it for. -/
inductive Fault where
  /-- A node read, updated or released at an address that holds no such live node. -/
  | node (a : Address)
  /-- The same for an entry of a parked list. -/
  | entry (e : Nat)
deriving DecidableEq

end LockFreeStack
