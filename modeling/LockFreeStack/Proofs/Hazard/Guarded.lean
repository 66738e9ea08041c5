import LockFreeStack.Proofs.Hazard.Placed
import LockFreeStack.Slot.Release
import LockFreeStack.Table.Scan

/-!
A pop that has found the address it publishes at the head again may read that node, as whoever
deletes a node has looked at all records after the node came off and has not found it there.
-/

namespace LockFreeStack.Hazard

/-- How far a pop has come with the address that it publishes: the head is still to be looked at
again, the node may be read, or it has been read and links to `next`. -/
inductive Trust where
  | asked
  | granted
  | followed (next : Address)
deriving DecidableEq

structure Reading where
  stack : Nat
  place : Place
  node : Address
  trust : Trust

def Reading.Valid (r : Reading) : Prop := r.trust ≠ .asked

/-- What an operation has found out about the readers of nodes. A retirement looks for one node
among the records, a pass collects what they publish, and sorts the entries due by it. -/
inductive Watch where
  | nothing
  | scan (a : Address) (n : Nat)
  | release (a : Address)
  | snapshot (c : Scan.Collected)
  | sort (met : List Address)
  | delete (a : Address) (met : List Address)

/-- The node `a` has no reader in a record of index `n`. -/
def Watch.Excludes (due : Address → Prop) : Watch → Address → Nat → Prop
  | nothing, _, _ => False
  | scan b k, a, n => a = b ∧ n < k
  | release b, a, _ => a = b
  | snapshot c, a, n => due a ∧ n < c.next ∧ a ∉ c.met
  | sort met, a, _ => due a ∧ a ∉ met
  | delete b met, a, _ => a = b ∨ due a ∧ a ∉ met

/-- The one node that the operation is about to release. -/
def Watch.node? : Watch → Option Address
  | scan a _ | release a | delete a _ => some a
  | _ => none

theorem Watch.Excludes.mono {due due' : Address → Prop} {w : Watch} {a : Address} {n : Nat}
    (h : w.Excludes due a n) (hd : due a → due' a) : w.Excludes due' a n := by
  cases w with
  | nothing => exact h
  | scan b k => exact h
  | release b => exact h
  | snapshot c => exact ⟨hd h.1, h.2⟩
  | sort met => exact ⟨hd h.1, h.2⟩
  | delete b met => exact h.imp_right fun h => ⟨hd h.1, h.2⟩

/-- What a pop relies on that publishes an address. -/
structure Reading.Backed (ts : Tables) (table : Nat → Nat) (below? : Address → Option Address)
    (excludes : Nat → Address → Nat → Prop) (stage : Address → Stage) (r : Reading) : Prop where
  published : ∃ x, ts.record? r.place = some x ∧ x.published = r.node
  table : r.place.table = table r.stack
  home : r.Valid → (stage r.node).home? = some r.stack
  below : ∀ next, r.trust = .followed next → below? r.node = some next
  unread : r.Valid → ∀ i, ¬excludes i r.node r.place.index

def Guarded (ts : Tables) (table : Nat → Nat) (below? : Address → Option Address)
    (reading : Nat → Option Reading) (excludes : Nat → Address → Nat → Prop)
    (stage : Address → Stage) : Prop :=
  ∀ j r, reading j = some r → r.Backed ts table below? excludes stage

section

variable {ts ts' : Tables} {table : Nat → Nat} {below? below?' : Address → Option Address}
  {reading : Nat → Option Reading} {excludes excludes' : Nat → Address → Nat → Prop}
  {stage stage' : Address → Stage} {i : Nat} {o : Option Reading} {r : Reading}

theorem Reading.valid_of_followed {next : Address} (h : r.trust = .followed next) : r.Valid := by
  simp [Valid, h]

namespace Guarded

/-- Thread `i` moves, and the readings of all other threads stay backed. -/
theorem turn (g : Guarded ts table below? reading excludes stage)
    (others : ∀ j r, j ≠ i → reading j = some r → r.Backed ts table below? excludes stage →
      r.Backed ts' table below?' excludes' stage')
    (mine : ∀ r, o = some r → r.Backed ts' table below?' excludes' stage') :
    Guarded ts' table below?' (Function.update reading i o) excludes' stage' := by
  intro j r h
  by_cases hj : j = i
  · subst hj
    rw [Function.update_self] at h
    exact mine r h
  · rw [Function.update_of_ne hj] at h
    exact others j r hj h (g j r h)

end Guarded

end

end LockFreeStack.Hazard
