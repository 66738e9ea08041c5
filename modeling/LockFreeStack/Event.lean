import LockFreeStack.Pair.Basic

/-!
What a run shows from outside: log events, actions on shared memory, nodes released and values
dropped.
-/

namespace LockFreeStack

inductive Level where
  | trace
  | debug
  | warn
deriving DecidableEq

namespace Level

def name : Level → String
  | trace => "TRACE"
  | debug => "DEBUG"
  | warn => "WARN"

end Level

/-- A log event. Owners are thread tokens. -/
inductive Event where
  | claimed (slot owner : Nat)
  | released (slot : Nat)
  | exhausted (capacity owner : Nat)
  | pass (reclaimed deferred : Nat)
  | hazardDropped (drained released : Nat)
  | countedDropped (drained : Nat)
deriving DecidableEq

namespace Event

inductive Field where
  | count (n : Nat)
  | owner (token : Nat)

def level : Event → Level
  | exhausted .. => .warn
  | pass .. => .trace
  | _ => .debug

def message : Event → String
  | claimed .. => "claimed hazard pointer slot"
  | released .. => "released hazard pointer slot"
  | exhausted .. => "hazard pointer registry exhausted"
  | pass .. => "reclaim pass"
  | hazardDropped .. => "dropped hazard pointer stack"
  | countedDropped .. => "dropped reference-counted stack"

def fields : Event → List (String × Field)
  | claimed slot owner => [("slot", .count slot), ("owner", .owner owner)]
  | released slot => [("slot", .count slot)]
  | exhausted capacity owner => [("capacity", .count capacity), ("owner", .owner owner)]
  | pass reclaimed deferred => [("reclaimed", .count reclaimed), ("deferred", .count deferred)]
  | hazardDropped linked parked => [("drained", .count linked), ("released", .count parked)]
  | countedDropped linked => [("drained", .count linked)]

end Event

/-- What the head of a stack holds. -/
inductive Head where
  | link (a : Address)
  | pair (p : Pair Address)
deriving DecidableEq

/-- The kinds of actions at which an operation can be stopped. -/
inductive ActionKind where
  | headLoad
  | headCas
  | hazardStore
  | listSwap
  | listCas
  | countAdd
  | countSub
deriving DecidableEq

namespace ActionKind

def name : ActionKind → String
  | headLoad => "head.load"
  | headCas => "head.cas"
  | hazardStore => "hazard.store"
  | listSwap => "list.swap"
  | listCas => "list.cas"
  | countAdd => "count.add"
  | countSub => "count.sub"

end ActionKind

/-- An action performed, with what it read and wrote. -/
inductive Action where
  | headLoad (value : Head)
  | headCas (expected new : Head) (success : Bool) (found : Head)
  | hazardStore (a : Address)
  | listSwap (nonEmpty : Bool)
  | listCas (success : Bool)
  | countAdd (delta before : Int64)
  | countSub (delta before : Int64)
deriving DecidableEq

namespace Action

def kind : Action → ActionKind
  | headLoad .. => .headLoad
  | headCas .. => .headCas
  | hazardStore .. => .hazardStore
  | listSwap .. => .listSwap
  | listCas .. => .listCas
  | countAdd .. => .countAdd
  | countSub .. => .countSub

end Action

/-- What happens to the object of a parked list's entry when the entry is deleted: a popped
node's memory is released, a boxed value is dropped and its memory released, or the address is
only reported. -/
inductive Deleter where
  | node
  | box
  | report
deriving DecidableEq

/-- One thing seen while an operation runs. -/
inductive Note (α : Type) where
  | log (e : Event)
  | action (a : Action)
  | freed (k : Nat)
  | dropped (v : α)
  | deleted (a : Address) (d : Deleter)

end LockFreeStack
