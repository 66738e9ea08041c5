import LockFreeStack.Operation

/-!
What a thread can be asked to do in a scenario, in terms of names.
-/

namespace LockFreeStack

/-- A request to a thread. An address is absent where none can be read. -/
inductive Request (α : Type) where
  | push (stack : String) (v : α)
  | tryPush (stack : String) (v : α) (granted : Bool)
  | pop (stack : String)
  | popWith (stack slot : String)
  | isEmpty (stack : String)
  | pending (stack : String)
  | reclaim (stack : String)
  | registryOf (stack id : String)
  | stackText (stack : String)
  | capacity (registry : String)
  | claimed (registry : String)
  | registryText (registry : String)
  | sameAs (registry other : String)
  | isProtected (registry : String) (a : Option Address)
  | publications (registry : String)
  | hasHandles (registry : String)
  | record (registry : String) (index : Nat)
  | register (registry slot : String)
  | dropSlot (slot : String)
  | withSlot (registry : String) (body : List (Request α))
  | slotIndex (slot : String)
  | reset (slot : String)
  | publish (slot : String) (a : Option Address)
  | publishes (slot : String) (a : Option Address)
  | isFrom (registry slot : String)
  | slotText (slot : String)
  | follow (cell slot : String)
  | tryFollow (cell slot : String) (a : Option Address)
  | park (list : String) (a : Option Address)
  | parkBox (list : String) (v : α)
  | drain (list registry : String)
  | length (list : String)
  | listIsEmpty (list : String)
  | unknown

namespace Request

variable {α : Type}

mutual

/-- The number of things to do one after the other. -/
def weight : Request α → Nat
  | withSlot _ body => bodyWeight body + 2
  | _ => 1

def bodyWeight : List (Request α) → Nat
  | [] => 0
  | r :: rest => r.weight + bodyWeight rest

end

/-- The objects that a request keeps busy while it runs. -/
structure Uses where
  stackIds : List String := []
  registryIds : List String := []
  listIds : List String := []

/-- Every stack, registry and list that a request names. The requests of a body name their own. -/
def uses : Request α → Uses
  | push s _ | tryPush s _ _ | pop s | popWith s _ | isEmpty s | pending s | reclaim s
  | registryOf s _ | stackText s => { stackIds := [s] }
  | capacity r | claimed r | registryText r | isProtected r _ | publications r | hasHandles r
  | record r _ | register r _ | isFrom r _ | withSlot r _ => { registryIds := [r] }
  | sameAs r o => { registryIds := [r, o] }
  | park l _ | parkBox l _ | length l | listIsEmpty l => { listIds := [l] }
  | drain l r => { listIds := [l], registryIds := [r] }
  | _ => {}

end Request

end LockFreeStack
