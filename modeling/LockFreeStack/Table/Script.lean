import LockFreeStack.Answer
import LockFreeStack.Table.Claiming

/-!
A list of operations on one registry's table, with the tokens chosen by the caller.
-/

namespace LockFreeStack.Table

/-- Operations on a record by its index need no handle; those after `clone` need one. -/
inductive Op where
  | tryClaim (i token : Nat)
  | release (i : Nat)
  | protect (i : Nat) (a : Address)
  | reset (i : Nat)
  | load (i : Nat)
  | ownedBy (i token : Nat)
  | isClaimed (i : Nat)
  | hasHandles
  | dropHandle
  | clone
  | claim (token : Nat)
  | claimed
  | capacity
  | isProtected (a : Address)
  | publications
  | text (l : Layout)
  | sameAsClone
  | sameAsNew
  | unknown

abbrev Result := Table × Answer Empty × List (Note Empty)

/-- An operation on the record at an index, which must exist. -/
def onRecord (t : Table) (i : Nat) (f : Record → Result) : Result :=
  match t.records[i]? with
  | none => (t, .trouble (.panic (.outOfBounds t.capacity i)), [])
  | some r => f r

/-- An operation through a handle, which must exist. -/
def withHandle (t : Table) (r : Result) : Result :=
  if t.hasHandles then r else (t, .refused .noHandle, [])

def answered (t : Table) (a : Answer Empty) : Result := (t, a, [])

def perform (t : Table) : Op → Result
  | .tryClaim i token =>
    t.onRecord i fun r =>
      if token = 0 then t.answered (.trouble (.panic .unownedToken))
      else if r.owner = 0 then (t.setOwner i token).answered (.flag true)
      else t.answered (.flag false)
  | .release i => t.onRecord i fun _ => ((t.publish i .null).setOwner i 0).answered .ok
  | .protect i a => t.onRecord i fun _ => (t.publish i a).answered .ok
  | .reset i => t.onRecord i fun _ => (t.publish i .null).answered .ok
  | .load i => t.onRecord i fun r => t.answered (.address r.published)
  | .ownedBy i token => t.onRecord i fun r => t.answered (.flag (r.owner = token))
  | .isClaimed i => t.onRecord i fun r => t.answered (.flag r.isClaimed)
  | .hasHandles => t.answered (.flag t.hasHandles)
  | .dropHandle => { t with handles := t.handles - 1 }.answered (.flag t.hasHandles)
  | .clone =>
    t.withHandle ({ t with handles := t.handles + 1 }.answered (.count (t.handles + 1)))
  | .claim token =>
    t.withHandle <| match Claiming.run t token with
      | ⟨t', .done (.ok i), notes⟩ => (t', .count i, notes)
      | ⟨t', .done (.error e), notes⟩ => (t', .trouble e, notes)
      | ⟨t', .fault f, notes⟩ => (t', .fault f, notes)
      | ⟨t', .goto _, notes⟩ => (t', .refused .busy, notes)
  | .claimed => t.withHandle (t.answered (.count t.claimed))
  | .capacity => t.withHandle (t.answered (.count t.capacity))
  | .isProtected a => t.withHandle (t.answered (.flag (t.isProtected a)))
  | .publications => t.withHandle (t.answered (.addresses t.publications))
  | .text l => t.withHandle (t.answered (.text (t.text l)))
  | .sameAsClone => t.withHandle (t.answered (.flag true))
  | .sameAsNew => t.withHandle (t.answered (.flag false))
  | .unknown => t.withHandle (t.answered (.refused .unknownTableOperation))

def performAll (t : Table) : List Op → List (Answer Empty × List (Note Empty))
  | [] => []
  | op :: rest =>
    let (t, a, notes) := t.perform op
    (a, notes) :: performAll t rest

/-- The answers of a script on a new table with one handle. -/
def script (capacity : Nat) (ops : List Op) :
    Except Panic (List (Answer Empty × List (Note Empty))) :=
  (new capacity).map fun t => t.performAll ops

end LockFreeStack.Table
