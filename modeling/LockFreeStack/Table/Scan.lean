import LockFreeStack.Table.Basic
import LockFreeStack.Step

/-!
Looking through the published addresses while their owners go on working: each step loads one
record, so the answer need not fit the table at any one instant.
-/

namespace LockFreeStack.Scan

/-- Is `a` published? The point is the next record to load. Null never is. -/
def find (t : Table) (a : Address) (i : Nat) : Next Nat Bool :=
  if a = .null then .done false
  else match t.records[i]? with
    | none => .done false
    | some r => if r.published = a then .done true else .goto (i + 1)

/-- A snapshot on its way: the next record to load, and the addresses met so far in ascending
order. -/
structure Collected where
  next : Nat := 0
  met : List Address := []

def collect (t : Table) (c : Collected) : Next Collected (List Address) :=
  match t.records[c.next]? with
  | none => .done c.met
  | some r => .goto ⟨c.next + 1, if r.published = .null then c.met else r.published.insert c.met⟩

end LockFreeStack.Scan
