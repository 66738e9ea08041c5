import LockFreeStack.Event

/-!
What an operation or a request answers.
-/

namespace LockFreeStack

/-- Why a request is not carried out at all. It changes nothing then. -/
inductive Refusal where
  | noStack
  | noRegistry
  | noSlot
  | noList
  | noCell
  | badAddress
  | nameTaken
  | unknownKind
  | unknownStep
  | unknownOperation
  | unknownTableOperation
  | unknownMode
  | hazardOnly
  | directOnly
  | noHandle
  | threadBusy
  | threadNotPaused
  | busy
deriving DecidableEq

namespace Refusal

def message : Refusal → String
  | noStack => "no such stack"
  | noRegistry => "no such registry"
  | noSlot => "no such slot"
  | noList => "no such list"
  | noCell => "no such cell"
  | badAddress => "bad ptr"
  | nameTaken => "name taken"
  | unknownKind => "unknown kind"
  | unknownStep => "unknown do"
  | unknownOperation => "unknown seq op"
  | unknownTableOperation => "unknown table op"
  | unknownMode => "unknown mode"
  | hazardOnly => "hazard stacks only"
  | directOnly => "not on dyn"
  | noHandle => "no handle"
  | threadBusy => "thread busy"
  | threadNotPaused => "thread not paused"
  | busy => "busy"

end Refusal

inductive Answer (α : Type) where
  | ok
  | popped (v : Option α)
  | values (vs : List α)
  | flag (b : Bool)
  | count (n : Nat)
  | text (s : String)
  | address (a : Address)
  | addresses (as : List Address)
  /-- Whether a source still held the address expected, and what it held. -/
  | followed (same : Bool) (now : Address)
  /-- Whether a record is claimed, and what it publishes. -/
  | record (claimed : Bool) (published : Address)
  | trouble (t : Trouble)
  | fault (f : Fault)
  | refused (r : Refusal)
  | several (as : List (Answer α))

namespace Answer

variable {α : Type}

def ofPush : Except Failure Unit → Answer α
  | .ok () => ok
  | .error f => trouble (.failure f)

def ofPop : Except Trouble (Option α) → Answer α
  | .ok v => popped v
  | .error e => trouble e

def ofCount : Except Trouble Nat → Answer α
  | .ok n => count n
  | .error e => trouble e

end Answer

end LockFreeStack
