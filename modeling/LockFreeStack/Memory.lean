import LockFreeStack.Parking.Drain
import LockFreeStack.Slot.Release

/-!
The memory that all threads share.
-/

namespace LockFreeStack

inductive StackKind where
  | hazard
  | counted
deriving DecidableEq

/-- A stack of either kind by its position among those of its kind. -/
inductive StackRef where
  | hazard (s : Nat)
  | counted (s : Nat)
deriving DecidableEq

/-- A stack whose popped nodes are parked on a list while a record of its table publishes them. -/
structure Hazard.Stack where
  head : Address
  table : Nat
  list : Nat

/-- Hazard stacks, the heads of counted stacks, tables, parked lists and pointer cells are known
by their positions here. -/
structure Memory (α : Type) where
  nodes : Nodes α
  entries : Entries
  tables : Tables
  lists : Array ParkedList
  hazards : Array Hazard.Stack
  counteds : Array (Pair Address)
  cells : Array Address

namespace Memory

variable {α : Type}

def empty : Memory α := ⟨.empty, .empty, #[], #[], #[], #[], #[]⟩

def hazard (m : Memory α) (s : Nat) : Hazard.Stack := m.hazards[s]?.getD ⟨.null, 0, 0⟩

def setHead (m : Memory α) (s : Nat) (a : Address) : Memory α :=
  { m with hazards := m.hazards.modify s fun h => { h with head := a } }

def pair (m : Memory α) (s : Nat) : Pair Address := m.counteds[s]?.getD ⟨0, .null⟩

def setPair (m : Memory α) (s : Nat) (p : Pair Address) : Memory α :=
  { m with counteds := m.counteds.setIfInBounds s p }

def list (m : Memory α) (l : Nat) : ParkedList := m.lists[l]?.getD .empty

def setList (m : Memory α) (l : Nat) (x : ParkedList) : Memory α :=
  { m with lists := m.lists.setIfInBounds l x }

def cell (m : Memory α) (c : Nat) : Address := m.cells[c]?.getD .null

def table (m : Memory α) (t : Nat) : Table := m.tables[t]?.getD ⟨#[], 0⟩

def addTable (m : Memory α) (t : Table) : Memory α := { m with tables := m.tables.push t }

def addList (m : Memory α) : Memory α := { m with lists := m.lists.push .empty }

/-- An empty hazard stack on a table, with a parked list of its own. -/
def addHazard (m : Memory α) (table : Nat) : Memory α :=
  { m.addList with hazards := m.hazards.push ⟨.null, table, m.lists.size⟩ }

def addCounted (m : Memory α) : Memory α := { m with counteds := m.counteds.push ⟨0, .null⟩ }

def addCell (m : Memory α) (a : Address) : Memory α := { m with cells := m.cells.push a }

def setCell (m : Memory α) (c : Nat) (a : Address) : Memory α :=
  { m with cells := m.cells.setIfInBounds c a }

/-- A parked list with the memory of the entries, taken out of the shared memory. -/
def parking (m : Memory α) (l : Nat) : Parking := ⟨m.entries, m.list l⟩

/-- The memory without what `parking` takes out of it. -/
def withoutEntries (m : Memory α) : Memory α := { m with entries := .empty }

def setParking (m : Memory α) (l : Nat) (p : Parking) : Memory α :=
  { m with entries := p.entries }.setList l p.list

/-- A deleter needs a live node, or a live box, at the address that it is called on. -/
def deletable (m : Memory α) (a : Address) : Deleter → Bool
  | .report => true
  | .node => m.nodes.isLiveAt a
  | .box => (m.nodes.boxed? a).isSome

/-- What the call of a deleter shows. -/
def deletion (m : Memory α) (a : Address) (d : Deleter) : List (Note α) :=
  .deleted a d :: match d with
    | .report => []
    | .node => a.freed
    | .box => ((m.nodes.boxed? a).map Note.dropped).toList ++ a.freed

/-- The call of a deleter on an address. -/
def delete (m : Memory α) (a : Address) : Deleter → Memory α
  | .report => m
  | .node | .box => { m with nodes := m.nodes.release a }

/-- A new entry of the list `l`, as a chain of its own that is not linked yet. -/
def park (m : Memory α) (l : Nat) (a : Address) (d : Deleter) : Memory α × Chain :=
  let park := m.parking l
  let rest := m.withoutEntries
  let (park, e) := park.park a d
  (rest.setParking l park, ⟨e, e⟩)

/-- A step of an insertion into the list `l`. -/
def insertStep (m : Memory α) (l : Nat) (c : Chain) (p : Insert.Point) :
    Outcome (Memory α) Insert.Point Unit α :=
  let park := m.parking l
  let rest := m.withoutEntries
  (Insert.step c park p).within (rest.setParking l ·) id .done

/-- A step of a pass over the list `l` against the table `t`. Deleters act on the nodes. -/
def drainStep (m : Memory α) (l t : Nat) (p : Drain.Point) :
    Outcome (Memory α) Drain.Point (Except Trouble Nat) α :=
  match p with
  | .delete a d w =>
    if m.deletable a d then
      let notes := m.deletion a d
      ⟨m.delete a d, .goto (.walk w), notes⟩
    else ⟨m, .fault (.node a), []⟩
  | p =>
    let table := m.table t
    let park := m.parking l
    let rest := m.withoutEntries
    (Drain.step table park p).within (rest.setParking l ·) id .done

end Memory

end LockFreeStack
