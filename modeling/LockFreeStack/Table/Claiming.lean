import LockFreeStack.Table.Basic
import LockFreeStack.Step

/-!
Claiming a record of a table for a token: the lowest one that nobody owns, or a failure if each
was found owned when it was looked at.
-/

namespace LockFreeStack.Claiming

/-- `check` asserts record by record that the token owns none, `probe` looks at an owner, `seize`
exchanges the owner 0 for the token. -/
inductive Point where
  | check (i : Nat)
  | probe (i : Nat)
  | seize (i : Nat)

def start : Point := .check 0

variable {α : Type}

def step (t : Table) (token : Nat) : Point → Outcome Table Point (Except Trouble Nat) α
  | .check i =>
    match t.records[i]? with
    | none => ⟨t, .goto (.probe 0), []⟩
    | some r =>
      if r.owner = token then ⟨t, .done (.error (.panic (.secondClaim token))), []⟩
      else ⟨t, .goto (.check (i + 1)), []⟩
  | .probe i =>
    match t.records[i]? with
    | none =>
      ⟨t, .done (.error (.failure (.exhausted t.capacity))), [.log (.exhausted t.capacity token)]⟩
    | some r =>
      if token = 0 then ⟨t, .done (.error (.panic .unownedToken)), []⟩
      else if r.owner = 0 then ⟨t, .goto (.seize i), []⟩
      else ⟨t, .goto (.probe (i + 1)), []⟩
  | .seize i =>
    match t.records[i]? with
    | none => ⟨t, .goto (.probe (i + 1)), []⟩
    | some r =>
      if r.owner = 0 then ⟨t.setOwner i token, .done (.ok i), [.log (.claimed i token)]⟩
      else ⟨t, .goto (.probe (i + 1)), []⟩

/-- Enough steps for a claim that nobody disturbs. -/
def patience (t : Table) : Nat := 3 * t.capacity + 3

/-- A claim that nobody disturbs. -/
def run (t : Table) (token : Nat) : Outcome Table Point (Except Trouble Nat) α :=
  runSteps (fun t p => step t token p) (fun _ => none) (patience t) none t start

end LockFreeStack.Claiming
