import LockFreeStack.Memory
import LockFreeStack.Stack.Counted

/-!
A stack of either kind as it is found in the shared memory.
-/

namespace LockFreeStack.Memory

variable {α : Type}

def head (m : Memory α) : StackRef → Head
  | .hazard s => .link (m.hazard s).head
  | .counted s => .pair (m.pair s)

def isEmpty (m : Memory α) : StackRef → Bool
  | .hazard s => (m.hazard s).head = .null
  | .counted s => (m.pair s).address = .null

def stackText (m : Memory α) (l : Layout) (s : StackRef) : String :=
  let isEmpty := ("is_empty", Layout.flag (m.isEmpty s))
  match s with
  | .hazard s =>
    let h := m.hazard s
    l.record "HazardStack"
      [isEmpty, ("pending_reclaims", toString (m.list h.list).length),
        ("registry", (m.table h.table).text l)]
  | .counted _ => l.record "RefCountStack" [isEmpty]

/-- The part of the memory that a counted stack works on. -/
def store (m : Memory α) (s : Nat) : Counted.Store α := ⟨m.nodes, m.pair s⟩

/-- The memory without what `store` takes out of it. -/
def withoutNodes (m : Memory α) : Memory α := { m with nodes := .empty }

def setStore (m : Memory α) (s : Nat) (x : Counted.Store α) : Memory α :=
  { m with nodes := x.nodes }.setPair s x.head

end LockFreeStack.Memory
