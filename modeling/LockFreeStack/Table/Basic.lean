import LockFreeStack.Heap

/-!
A registry's table: a fixed number of records, each with the token of the thread that owns it and
the address that this thread currently publishes.
-/

namespace LockFreeStack

/-- Owner 0 means that nobody owns the record. -/
structure Record where
  owner : Nat := 0
  published : Address := .null
deriving DecidableEq

namespace Record

def isClaimed (r : Record) : Bool := r.owner ≠ 0

end Record

/-- `handles` counts the registry values that refer to the table. Claims keep a table, not a handle. -/
structure Table where
  records : Array Record
  handles : Nat

namespace Table

/-- The number of slots of a registry built without a capacity. -/
def defaultCapacity : Nat := 100

def new (capacity : Nat) : Except Panic Table :=
  if capacity = 0 then .error .noSlots else .ok ⟨Array.replicate capacity {}, 1⟩

def capacity (t : Table) : Nat := t.records.size

def hasHandles (t : Table) : Bool := t.handles ≠ 0

def claimed (t : Table) : Nat := t.records.countP Record.isClaimed

/-- Some record publishes exactly this address, whoever owns it. -/
def isProtected (t : Table) (a : Address) : Bool :=
  a ≠ .null && t.records.any fun r => r.published = a

/-- The addresses published, in ascending order and each once. -/
def publications (t : Table) : List Address :=
  t.records.foldl (fun as r => if r.published = .null then as else r.published.insert as) []

def update (t : Table) (i : Nat) (f : Record → Record) : Table :=
  { t with records := t.records.modify i f }

@[simp] theorem capacity_update (t : Table) (i : Nat) (f : Record → Record) :
    (t.update i f).capacity = t.capacity := by simp [update, capacity]

theorem record_update (t : Table) (i : Nat) (f : Record → Record) (j : Nat) :
    (t.update i f).records[j]? = if i = j then (t.records[j]?).map f else t.records[j]? := by
  simp only [update, Array.getElem?_modify]

def publish (t : Table) (i : Nat) (a : Address) : Table :=
  t.update i fun r => { r with published := a }

def setOwner (t : Table) (i token : Nat) : Table :=
  t.update i fun r => { r with owner := token }

def text (l : Layout) (t : Table) : String :=
  l.record "Registry" [("capacity", toString t.capacity), ("claimed", toString t.claimed)]

end Table

end LockFreeStack
