import LockFreeStack.Scenario.Task

/-!
Several threads in one memory, of which one runs at a time: named objects, threads that may be
stopped in the middle of a request, and the commands that drive them.
-/

namespace LockFreeStack

/-- A command of a scenario. A registry without a capacity has the usual number of slots. -/
inductive Command (α : Type) where
  | perform (thread : Nat) (pause : Option Nat) (r : Request α)
  | resume (thread : Nat) (actions : Option Nat)
  | exit (thread : Nat)
  | registry (id : String) (capacity : Nat)
  | cloneRegistry (registry id : String)
  | dropRegistry (registry : String)
  | stack (id : String) (kind : Option StackKind) (registry : Option String)
  | dropStack (stack : String)
  | list (id : String)
  | dropList (list : String)
  | reclaimAll (list : String)
  | cell (id : String) (a : Option Address)

/-- A thread and the request in which it is stopped. -/
structure Seat (α : Type) where
  thread : Thread
  task : Option (Task α)

structure World (α : Type) where
  names : Names
  memory : Memory α
  seats : Directory Nat (Seat α)

/-- What a command comes to. -/
inductive Reply (α : Type) where
  | answer (a : Answer α)
  | paused (next : ActionKind)

namespace World

variable {α : Type}

def empty : World α := ⟨{}, .empty, .empty⟩

/-- The token of a thread; 0 is nobody's. -/
def token (thread : Nat) : Nat := thread + 1

/-- What the stopped requests keep busy. -/
def uses (w : World α) : List Request.Uses :=
  w.seats.entries.flatMap fun s => (s.2.task.map Task.uses).getD []

def stackBusy (w : World α) (id : String) : Bool := w.uses.any fun u => u.stackIds.contains id

def registryBusy (w : World α) (id : String) : Bool := w.uses.any fun u => u.registryIds.contains id

def listBusy (w : World α) (id : String) : Bool := w.uses.any fun u => u.listIds.contains id

/-- The world after a piece of a thread's task. -/
def settle (seats : Directory Nat (Seat α)) (thread : Nat) (o : Task.Progress α) :
    World α × Reply α × List (Note α) :=
  let (m, me) := o.state
  match o.rest with
  | .done a => (⟨o.names, m, seats.insert thread ⟨me, none⟩⟩, .answer a, o.notes)
  | .paused t next => (⟨o.names, m, seats.insert thread ⟨me, some t⟩⟩, .paused next, o.notes)

def refuse (w : World α) (r : Refusal) : World α × Reply α × List (Note α) :=
  (w, .answer (.refused r), [])

def perform (w : World α) (thread : Nat) (pause : Option Nat) (r : Request α) :
    World α × Reply α × List (Note α) :=
  match w.seats.get? thread with
  | some ⟨_, some _⟩ => w.refuse .threadBusy
  | some ⟨me, none⟩ => settle w.seats thread (Task.start r pause w.names (w.memory, me))
  | none => settle w.seats thread (Task.start r pause w.names (w.memory, .new (token thread)))

def resume (w : World α) (thread : Nat) (actions : Option Nat) :
    World α × Reply α × List (Note α) :=
  match w.seats.get? thread with
  | some ⟨me, some t⟩ => settle w.seats thread (t.resume actions w.names (w.memory, me))
  | _ => w.refuse .threadNotPaused

/-- The end of a thread, with the log of the slots that it gives back. -/
def exit (w : World α) (thread : Nat) : World α × Reply α × List (Note α) :=
  match w.seats.get? thread with
  | none => (w, .answer (.flag false), [])
  | some ⟨_, some _⟩ => w.refuse .threadBusy
  | some ⟨me, none⟩ =>
    let o := Operation.run none (w.memory, me) .exit
    let notes := o.notes.filter fun | .action _ => false | _ => true
    (⟨w.names, o.memory.1, w.seats.erase thread⟩, .answer (.flag true), notes)

def answer (names : Names) (m : Memory α) (w : World α) (a : Answer α) (notes : List (Note α)) :
    World α × Reply α × List (Note α) :=
  (⟨names, m, w.seats⟩, .answer a, notes)

def newStack (w : World α) (id : String) (kind : Option StackKind) (registry : Option String) :
    Except Refusal (World α × Reply α × List (Note α)) :=
  if w.names.stackRefs.contains id then .error .nameTaken
  else match kind with
    | none => .error .unknownKind
    | some .counted =>
      let s : StackRef := .counted w.memory.counteds.size
      .ok (w.answer { w.names with stackRefs := w.names.stackRefs.insert id s } w.memory.addCounted .ok [])
    | some .hazard => do
      let s : StackRef := .hazard w.memory.hazards.size
      let names := { w.names with stackRefs := w.names.stackRefs.insert id s }
      match registry with
      | none =>
        let t := w.memory.tables.size
        let fresh : Table := ⟨Array.replicate Table.defaultCapacity {}, 1⟩
        return w.answer names ((w.memory.addTable fresh).addHazard t) .ok []
      | some r =>
        let t ← w.names.registry r
        return w.answer names ((w.memory.addHandle t).addHazard t) .ok []

/-- The commands that name objects and belong to no thread. -/
def command? (w : World α) :
    Command α → Except Refusal (World α × Reply α × List (Note α))
  | .perform t pause r => .ok (w.perform t pause r)
  | .resume t n => .ok (w.resume t n)
  | .exit t => .ok (w.exit t)
  | .registry id capacity =>
    match Table.new capacity with
    | .error e => .ok (w, .answer (.trouble (.panic e)), [])
    | .ok t =>
      if w.names.registries.contains id then .error .nameTaken
      else .ok (w.answer (w.names.addRegistry id w.memory.tables.size) (w.memory.addTable t) .ok [])
  | .cloneRegistry r id => do
    let t ← w.names.registry r
    if w.names.registries.contains id then .error .nameTaken
    else return w.answer (w.names.addRegistry id t) (w.memory.addHandle t) .ok []
  | .dropRegistry r => do
    let t ← w.names.registry r
    if w.registryBusy r then .error .busy
    else
      let names := { w.names with registries := w.names.registries.erase r }
      return w.answer names (w.memory.dropHandle t) .ok []
  | .stack id kind registry => w.newStack id kind registry
  | .dropStack id => do
    let s ← w.names.stack id
    if w.stackBusy id then .error .busy
    else
      let names := { w.names with stackRefs := w.names.stackRefs.erase id }
      let (m, notes) := w.memory.dropStack s
      return w.answer names m .ok notes
  | .list id =>
    if w.names.lists.contains id then .error .nameTaken
    else
      let names := { w.names with lists := w.names.lists.insert id w.memory.lists.size }
      .ok (w.answer names w.memory.addList .ok [])
  | .dropList id => do
    let l ← w.names.list id
    if w.listBusy id then .error .busy
    else
      let s := w.memory.reclaimAll l
      return w.answer { w.names with lists := w.names.lists.erase id } s.memory .ok s.notes
  | .reclaimAll id => do
    let l ← w.names.list id
    if w.listBusy id then .error .busy
    else
      let s := w.memory.reclaimAll l
      return w.answer w.names s.memory (.count s.count) s.notes
  | .cell id a =>
    match a with
    | none => .error .badAddress
    | some a =>
      match w.names.cells.get? id with
      | some c => .ok (w.answer w.names (w.memory.setCell c a) .ok [])
      | none =>
        let names := { w.names with cells := w.names.cells.insert id w.memory.cells.size }
        .ok (w.answer names (w.memory.addCell a) .ok [])

def command (w : World α) (c : Command α) : World α × Reply α × List (Note α) :=
  match w.command? c with
  | .ok x => x
  | .error e => w.refuse e

end World

end LockFreeStack
