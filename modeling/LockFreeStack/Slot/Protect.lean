import LockFreeStack.Slot.Release

/-!
Protecting what a shared source holds: publish the address read, read the source again, and start
over with the new address if it has changed. At the end the source held the address at an instant
when it was already published.
-/

namespace LockFreeStack.Protect

inductive Point where
  | load
  | publish (a : Address)
  | validate (a : Address)

def action : Point → Option ActionKind
  | .load => some .headLoad
  | .publish _ => some .hazardStore
  | .validate _ => some .headLoad

variable {α : Type}

/-- `source` is what the shared source holds at this step. -/
def step (source : Address) (p : Place) (ts : Tables) : Point → Outcome Tables Point Address α
  | .load => ⟨ts, .goto (.publish source), [.action (.headLoad (.link source))]⟩
  | .publish a => ⟨ts.publish p a, .goto (.validate a), [.action (.hazardStore a)]⟩
  | .validate a =>
    ⟨ts, if a = source then .done a else .goto (.publish source),
      [.action (.headLoad (.link source))]⟩

end LockFreeStack.Protect
