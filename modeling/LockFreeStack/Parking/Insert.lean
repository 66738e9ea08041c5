import LockFreeStack.Parking.Basic
import LockFreeStack.Step

/-!
Putting a chain of entries in front of a parked list. The chain belongs to the operation until the
exchange of the list's head succeeds.
-/

namespace LockFreeStack

/-- A chain of entries by its first and its last one. -/
structure Chain where
  first : Nat
  last : Nat
deriving DecidableEq

namespace Insert

inductive Point where
  | load
  | link (seen : Option Nat)

def action : Point → Option ActionKind
  | .load => none
  | .link _ => some .listCas

variable {α : Type}

def step (c : Chain) (m : Parking) : Point → Outcome Parking Point Unit α
  | .load => ⟨m, .goto (.link m.list.head), []⟩
  | .link seen =>
    match m.entries.get? c.last with
    | none => ⟨m, .fault (.entry c.last), []⟩
    | some _ =>
      let ⟨entries, list⟩ := m
      let entries := entries.update c.last fun e => { e with next := seen }
      if list.head = seen then
        ⟨⟨entries, { list with head := some c.first }⟩, .done (), [.action (.listCas true)]⟩
      else ⟨⟨entries, list⟩, .goto (.link list.head), [.action (.listCas false)]⟩

end Insert

end LockFreeStack
