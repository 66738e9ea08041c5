import LockFreeStack.Scenario.Request

/-!
The names of a scenario's objects, and what a request means under them.
-/

namespace LockFreeStack

/-- `registries` are the handles that exist. `tables` remembers the table of every registry name
that was ever given. -/
structure Names where
  stackRefs : Directory String StackRef := .empty
  registries : Directory String Nat := .empty
  tables : Directory String Nat := .empty
  lists : Directory String Nat := .empty
  cells : Directory String Nat := .empty

namespace Names

def stack (n : Names) (id : String) : Except Refusal StackRef :=
  match n.stackRefs.get? id with
  | some s => .ok s
  | none => .error .noStack

def hazard (n : Names) (id : String) : Except Refusal Nat := do
  match ← n.stack id with
  | .hazard s => .ok s
  | .counted _ => .error .hazardOnly

def registry (n : Names) (id : String) : Except Refusal Nat :=
  match n.registries.get? id with
  | some t => .ok t
  | none => .error .noRegistry

/-- The table behind a registry name, also after the registry was dropped. -/
def table (n : Names) (id : String) : Except Refusal Nat :=
  match n.tables.get? id with
  | some t => .ok t
  | none => .error .noRegistry

def list (n : Names) (id : String) : Except Refusal Nat :=
  match n.lists.get? id with
  | some l => .ok l
  | none => .error .noList

def cell (n : Names) (id : String) : Except Refusal Nat :=
  match n.cells.get? id with
  | some c => .ok c
  | none => .error .noCell

def addRegistry (n : Names) (id : String) (table : Nat) : Names :=
  { n with registries := n.registries.insert id table, tables := n.tables.insert id table }

end Names

namespace Thread

def slot (t : Thread) (name : String) : Except Refusal Nat :=
  match t.slot? name with
  | some c => .ok c
  | none => .error .noSlot

/-- A slot that the thread holds itself, not one lent to it. -/
def ownSlot (t : Thread) (name : String) : Except Refusal Nat :=
  match t.slots.get? name with
  | some c => .ok c
  | none => .error .noSlot

end Thread

/-- What a request comes to: an answer at once, a new handle on a registry, an operation, or a body
to run with a slot of a table. -/
inductive Meaning (α : Type) where
  | answer (a : Answer α)
  | handle (id : String) (table : Nat)
  | operation (p : Point α)
  | lend (table : Nat) (body : List (Request α))

namespace Request

variable {α : Type}

private def given : Option Address → Except Refusal Address
  | some a => .ok a
  | none => .error .badAddress

private def placeOf (me : Thread) (c : Nat) : Place := (me.place? c).getD ⟨0, 0⟩

/-- Names are looked up in the order in which they are written. -/
def meaning? (names : Names) (m : Memory α) (me : Thread) :
    Request α → Except Refusal (Meaning α)
  | push s v => do return .operation (.push (← names.stack s) v true)
  | tryPush s v granted => do return .operation (.push (← names.stack s) v granted)
  | pop s => do return .operation (.pop m (← names.stack s))
  | popWith s slot => do
    let s ← names.hazard s
    return .operation (.popWith s (← me.slot slot))
  | isEmpty s => do return .operation (.isEmpty (← names.stack s))
  | pending s => do
    let s ← names.hazard s
    return .answer (.count (m.list (m.hazard s).list).length)
  | reclaim s => do return .operation (.reclaim m (← names.hazard s))
  | registryOf s id => do
    let s ← names.hazard s
    if names.registries.contains id then .error .nameTaken
    else return .handle id (m.hazard s).table
  | stackText s => do return .operation (.describe .line (← names.stack s))
  | capacity r => do return .answer (.count (m.table (← names.registry r)).capacity)
  | claimed r => do return .answer (.count (m.table (← names.registry r)).claimed)
  | registryText r => do return .answer (.text ((m.table (← names.registry r)).text .line))
  | sameAs r o => do
    let t ← names.registry r
    let u ← names.registry o
    return .answer (.flag (t = u))
  | isProtected r a => do
    let t ← names.registry r
    return .answer (.flag ((m.table t).isProtected (← given a)))
  | publications r => do return .answer (.addresses (m.table (← names.registry r)).publications)
  | hasHandles r => do return .answer (.flag (m.table (← names.table r)).hasHandles)
  | record r i => do
    let t := m.table (← names.table r)
    match t.records[i]? with
    | some x => return .answer (.record x.isClaimed x.published)
    | none => return .answer (.trouble (.panic (.outOfBounds t.capacity i)))
  | register r slot => do return .operation (.acquire (← names.registry r) (.register slot) .lookup)
  | dropSlot slot => do
    let _ ← me.ownSlot slot
    return .operation (.dropSlot slot)
  | withSlot r body => do return .lend (← names.registry r) body
  | slotIndex slot => do return .answer (.count (placeOf me (← me.slot slot)).index)
  | reset slot => do return .operation (.publish (← me.slot slot) .null)
  | publish slot a => do
    let c ← me.slot slot
    return .operation (.publish c (← given a))
  | publishes slot a => do
    let c ← me.slot slot
    return .answer (.flag (m.tables.published (placeOf me c) = (← given a)))
  | isFrom r slot => do
    let t ← names.registry r
    return .answer (.flag ((placeOf me (← me.slot slot)).table = t))
  | slotText slot => do
    let place := placeOf me (← me.slot slot)
    return .answer (.text (Layout.line.record "HazardSlot"
      [("index", toString place.index), ("protected", (m.tables.published place).text .line)]))
  | follow cell slot => do
    let x ← names.cell cell
    return .operation (.follow x (← me.slot slot) .load)
  | tryFollow cell slot a => do
    let x ← names.cell cell
    let c ← me.slot slot
    return .operation (.tryPublish x c (← given a))
  | park l a => do
    let l ← names.list l
    return .operation (.park l (← given a) .report .ok)
  | parkBox l v => do return .operation (.parkBox (← names.list l) v)
  | drain l r => do
    let l ← names.list l
    return .operation (.drain l (← names.registry r) Drain.start)
  | length l => do return .answer (.count (m.list (← names.list l)).length)
  | listIsEmpty l => do return .answer (.flag (m.list (← names.list l)).isEmpty)
  | unknown => .error .unknownStep

def meaning (names : Names) (m : Memory α) (me : Thread) (r : Request α) : Meaning α :=
  match r.meaning? names m me with
  | .ok x => x
  | .error e => .answer (.refused e)

end Request

end LockFreeStack
