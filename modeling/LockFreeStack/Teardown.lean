import LockFreeStack.Memory

/-!
The end of a stack or a parked list. Nothing else uses it any more, so whatever is still linked
or parked is settled in one go, from the head on.
-/

namespace LockFreeStack

variable {α : Type}

/-- A memory after a teardown, the number of things settled, and what was seen. -/
structure Settled (μ α : Type) where
  memory : μ
  count : Nat
  notes : List (Note α)

namespace Nodes

/-- Drops the value of each plain node from `a` on and releases the node, in at most `fuel` steps. -/
def dropPlain : Nat → Nodes α → Address → Settled (Nodes α) α
  | 0, h, _ => ⟨h, 0, []⟩
  | fuel + 1, h, a =>
    match h.plain? a with
    | none => ⟨h, 0, []⟩
    | some (v, next) =>
      let s := dropPlain fuel (h.release a) next
      { s with count := s.count + 1, notes := .dropped v :: a.freed ++ s.notes }

def dropCounted : Nat → Nodes α → Address → Settled (Nodes α) α
  | 0, h, _ => ⟨h, 0, []⟩
  | fuel + 1, h, a =>
    match h.counted? a with
    | none => ⟨h, 0, []⟩
    | some (v, next, _) =>
      let s := dropCounted fuel (h.release a) next.address
      { s with count := s.count + 1, notes := .dropped v :: a.freed ++ s.notes }

end Nodes

namespace Memory

/-- Calls the deleters one after the other, up to one that may not be called. -/
def deleteAll : Memory α → List (Address × Deleter) → Settled (Memory α) α
  | m, [] => ⟨m, 0, []⟩
  | m, (a, d) :: rest =>
    if m.deletable a d then
      let notes := m.deletion a d
      let s := (m.delete a d).deleteAll rest
      { s with count := s.count + 1, notes := notes ++ s.notes }
    else ⟨m, 0, []⟩

/-- Empties a parked list, whatever the records publish. -/
def reclaimAll (m : Memory α) (l : Nat) : Settled (Memory α) α :=
  let park := m.parking l
  let rest := m.withoutEntries
  let (park, calls) := park.takeAll
  (rest.setParking l park).deleteAll calls

def dropHandle (m : Memory α) (t : Nat) : Memory α :=
  { m with tables := m.tables.modify t fun x => { x with handles := x.handles - 1 } }

def addHandle (m : Memory α) (t : Nat) : Memory α :=
  { m with tables := m.tables.modify t fun x => { x with handles := x.handles + 1 } }

/-- The end of a hazard stack: linked nodes from the top down with their values, then the parked
ones without, then the stack's handle on its registry. -/
def dropHazard (m : Memory α) (s : Nat) : Memory α × List (Note α) :=
  let h := m.hazard s
  let nodes := m.nodes
  let rest : Memory α := { m with nodes := .empty }
  let ⟨nodes, linked, notes⟩ := nodes.dropPlain nodes.size h.head
  let ⟨m, parked, more⟩ := ({ rest with nodes := nodes }.setHead s .null).reclaimAll h.list
  (m.dropHandle h.table, notes ++ more ++ [.log (.hazardDropped linked parked)])

def dropCounted (m : Memory α) (s : Nat) : Memory α × List (Note α) :=
  let head := m.pair s
  let nodes := m.nodes
  let rest : Memory α := { m with nodes := .empty }
  let ⟨nodes, linked, notes⟩ := nodes.dropCounted nodes.size head.address
  ({ rest with nodes := nodes }.setPair s ⟨0, .null⟩, notes ++ [.log (.countedDropped linked)])

def dropStack (m : Memory α) : StackRef → Memory α × List (Note α)
  | .hazard s => m.dropHazard s
  | .counted s => m.dropCounted s

end Memory

end LockFreeStack
