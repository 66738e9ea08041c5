import LockFreeStack.Scenario.World

/-!
A whole scenario: its commands one after the other, and then its end, at which every stopped
request is finished, every thread exits, and every object is dropped.
-/

namespace LockFreeStack

/-- What is seen of an object between two commands. -/
inductive Status where
  | hazard (isEmpty : Bool) (pending : Nat)
  | counted (isEmpty : Bool)
  | registry (claimed : Nat)
  | list (isEmpty : Bool) (length : Nat)

/-- Something that is settled at the end of a scenario. -/
inductive Ending where
  | finish (thread : Nat)
  | exit (thread : Nat)
  | dropStack (id : String)
  | dropList (id : String)
  | dropRegistry (id : String)

namespace Ending

def command {α : Type} : Ending → Command α
  | finish t => .resume t none
  | exit t => .exit t
  | dropStack id => .dropStack id
  | dropList id => .dropList id
  | dropRegistry id => .dropRegistry id

end Ending

namespace World

variable {α : Type}

/-- All named objects in the order stacks, registries, lists, each in the order of their names. -/
def status (w : World α) : List (String × Status) :=
  let m := w.memory
  (w.names.stackRefs.entries.map fun (id, s) =>
    ("stack " ++ id, match s with
      | .hazard i => .hazard (m.isEmpty s) (m.list (m.hazard i).list).length
      | .counted _ => .counted (m.isEmpty s))) ++
  (w.names.registries.entries.map fun (id, t) => ("registry " ++ id, .registry (m.table t).claimed)) ++
  (w.names.lists.entries.map fun (id, l) =>
    ("list " ++ id, .list (m.list l).isEmpty (m.list l).length))

def stopped (w : World α) : List Ending :=
  w.seats.entries.filterMap fun s => s.2.task.map fun _ => .finish s.1

def running (w : World α) : List Ending := w.seats.entries.map fun s => .exit s.1

def objects (w : World α) : List Ending :=
  (w.names.stackRefs.entries.map fun s => .dropStack s.1) ++
  (w.names.lists.entries.map fun l => .dropList l.1) ++
  (w.names.registries.entries.map fun r => .dropRegistry r.1)

end World

namespace Scenario

variable {α : Type}

/-- One command's reply, what was seen, and the objects after it. -/
structure Entry (α : Type) where
  reply : Reply α
  notes : List (Note α)
  status : List (String × Status)

structure Closing (α : Type) where
  ending : Ending
  reply : Reply α
  notes : List (Note α)

structure Report (α : Type) where
  entries : List (Entry α)
  closings : List (Closing α)
  allocated : Nat
  freed : Nat

def perform (w : World α) : List (Command α) → World α × List (Entry α)
  | [] => (w, [])
  | c :: rest =>
    let (w, reply, notes) := w.command c
    let entry : Entry α := ⟨reply, notes, w.status⟩
    let (w, entries) := perform w rest
    (w, entry :: entries)

def close (w : World α) : List Ending → World α × List (Closing α)
  | [] => (w, [])
  | e :: rest =>
    let (w, reply, notes) := w.command e.command
    let (w, closings) := close w rest
    (w, ⟨e, reply, notes⟩ :: closings)

def freedIn (notes : List (Note α)) : Nat := notes.countP fun | .freed _ => true | _ => false

def run (commands : List (Command α)) : Report α :=
  let (w, entries) := perform .empty commands
  let (w, finished) := close w w.stopped
  let (w, exited) := close w w.running
  let (w, dropped) := close w w.objects
  let closings := finished ++ exited ++ dropped
  ⟨entries, closings, w.memory.nodes.size,
    freedIn (entries.flatMap Entry.notes) + freedIn (closings.flatMap Closing.notes)⟩

end Scenario

end LockFreeStack
