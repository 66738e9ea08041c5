import LockFreeStack.Heap

/-!
A parked list: objects that could not be deleted yet, newest first. Its entries live in memory of their
own and are linked by the numbers of their places.
-/

namespace LockFreeStack

structure Entry where
  address : Address
  deleter : Deleter
  next : Option Nat
deriving DecidableEq

/-- The memory of all entries of all parked lists. -/
abbrev Entries := Heap Entry

/-- `pending` is a machine word that counts the entries not deleted yet, those on their way to or
from the list included. -/
structure ParkedList where
  head : Option Nat
  pending : UInt64

/-- A list together with the memory of the entries. -/
structure Parking where
  entries : Entries
  list : ParkedList

namespace Parking

/-- A new entry for `a`, not linked yet, and the count of it. -/
def park (m : Parking) (a : Address) (d : Deleter) : Parking × Nat :=
  let e := m.entries.next
  (⟨m.entries.alloc ⟨a, d, none⟩, { m.list with pending := m.list.pending + 1 }⟩, e)

/-- Gives back the entries from `e` on, in at most `fuel` steps: the deleters to call, in order. -/
def takeFrom : Nat → Entries → Option Nat → Entries × List (Address × Deleter)
  | 0, entries, _ => (entries, [])
  | _, entries, none => (entries, [])
  | fuel + 1, entries, some e =>
    match entries.get? e with
    | none => (entries, [])
    | some x =>
      let (entries, calls) := takeFrom fuel (entries.free e) x.next
      (entries, (x.address, x.deleter) :: calls)

/-- Empties the list, whatever is published. -/
def takeAll (m : Parking) : Parking × List (Address × Deleter) :=
  let ⟨entries, list⟩ := m
  let fuel := entries.size
  let (entries, calls) := takeFrom fuel entries list.head
  (⟨entries, ⟨none, list.pending - .ofNat calls.length⟩⟩, calls)

end Parking

namespace ParkedList

def empty : ParkedList := ⟨none, 0⟩

def isEmpty (l : ParkedList) : Bool := l.head.isNone

def length (l : ParkedList) : Nat := l.pending.toNat

/-- The live entries met from `e` on, in at most `fuel` steps. -/
def chain (entries : Entries) : Nat → Option Nat → List (Nat × Entry)
  | 0, _ => []
  | _, none => []
  | fuel + 1, some e =>
    match entries.get? e with
    | none => []
    | some x => (e, x) :: chain entries fuel x.next

end ParkedList

end LockFreeStack
