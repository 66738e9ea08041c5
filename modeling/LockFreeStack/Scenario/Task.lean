import LockFreeStack.Scenario.Names
import LockFreeStack.Teardown

/-!
A request on its way. A body that runs with a lent slot is a list of things to do one after the
other, closed by taking the slot back; a pause can fall between any two actions of them. Each
request of a body looks its names up when its turn comes, and keeps them busy only until it is over.
-/

namespace LockFreeStack

inductive Item (α : Type) where
  | request (r : Request α)
  | close

/-- What the end of the running operation means: an answer, the start of a body, or its end. -/
inductive Phase (α : Type) where
  | plain
  | opening (body : List (Request α))
  | closing

/-- A task at rest: the operation that is running and what follows. `running` holds the request that
the operation belongs to and those whose bodies it runs in, innermost first, and `answers` the
answers given so far, newest first, in the innermost body and in the ones around it. -/
structure Task (α : Type) where
  running : List (Request α)
  point : Point α
  phase : Phase α
  agenda : List (Item α)
  answers : List (List (Answer α))

namespace Task

variable {α : Type}

/-- What the requests that are running keep busy. Those of a body that are over, or still to come,
keep nothing. -/
def uses (t : Task α) : List Request.Uses := t.running.map Request.uses

/-- The number of things left to do. -/
def weight : List (Item α) → Nat
  | [] => 0
  | .request r :: rest => r.weight + weight rest
  | .close :: rest => 1 + weight rest

/-- An answer joins the others of its body. -/
def give (a : Answer α) : List (List (Answer α)) → List (List (Answer α))
  | [] => [[a]]
  | as :: rest => (a :: as) :: rest

/-- What is left of a task between two operations: the requests whose bodies are running, the
agenda, and the answers. -/
structure Remainder (α : Type) where
  running : List (Request α)
  agenda : List (Item α)
  answers : List (List (Answer α))

/-- The end of the running operation, and with it of its request, unless a body starts now. -/
def finish (a : Answer α) (t : Task α) : Remainder α :=
  match t.phase, a, t.answers with
  | .opening body, .ok, answers =>
    ⟨t.running, body.map .request ++ .close :: t.agenda, [] :: answers⟩
  | .closing, _, as :: answers => ⟨t.running.tail, t.agenda, give (.several as.reverse) answers⟩
  | .closing, _, [] => ⟨t.running.tail, t.agenda, []⟩
  | _, a, answers => ⟨t.running.tail, t.agenda, give a answers⟩

/-- How a task came to rest. -/
inductive Rest (α : Type) where
  | done (a : Answer α)
  | paused (t : Task α) (next : ActionKind)

/-- The names and the memory after a piece of a task, how it came to rest, and what was seen. -/
structure Progress (α : Type) where
  names : Names
  state : Operation.State α
  rest : Rest α
  notes : List (Note α)

/-- The number of actions among the things seen. -/
def spent (notes : List (Note α)) : Nat :=
  notes.countP fun | .action _ => true | _ => false

/-- The names and the memory after the requests at the head of an agenda that are answered at once,
and the task that the next one comes to, or the answers if there is none. -/
structure Dispatch (α : Type) where
  names : Names
  state : Operation.State α
  next : Task α ⊕ List (List (Answer α))

def dispatch (names : Names) (st : Operation.State α) (running : List (Request α)) :
    List (Item α) → List (List (Answer α)) → Dispatch α
  | [], answers => ⟨names, st, .inr answers⟩
  | .close :: agenda, answers => ⟨names, st, .inl ⟨running, .takeBack, .closing, agenda, answers⟩⟩
  | .request r :: agenda, answers =>
    match r.meaning names st.1 st.2 with
    | .answer a => dispatch names st running agenda (give a answers)
    | .handle id table =>
      let (m, me) := st
      dispatch (names.addRegistry id table) (m.addHandle table, me) running agenda (give .ok answers)
    | .operation p => ⟨names, st, .inl ⟨r :: running, p, .plain, agenda, answers⟩⟩
    | .lend table body =>
      ⟨names, st, .inl ⟨r :: running, .acquire table .lend .lookup, .opening body, agenda, answers⟩⟩

/-- The answer of a task from the answers at its end. -/
def last (answers : List (List (Answer α))) : Answer α := (answers.flatten.head?).getD .ok

/-- The running operation goes on, and after it the agenda, for at most `fuel` operations. -/
def advance (fuel : Nat) (left : Option Nat) (names : Names) (st : Operation.State α)
    (t : Task α) : Progress α :=
  match Operation.run left st t.point with
  | ⟨st, .goto q, notes⟩ =>
    ⟨names, st, .paused { t with point := q } (q.action.getD .headLoad), notes⟩
  | ⟨st, .fault f, notes⟩ => ⟨names, st, .done (.fault f), notes⟩
  | ⟨st, .done a, notes⟩ =>
    let p := t.finish a
    let d := dispatch names st p.running p.agenda p.answers
    match fuel, d.next with
    | fuel + 1, .inl t =>
      let o := advance fuel (left.map (· - spent notes)) d.names d.state t
      { o with notes := notes ++ o.notes }
    | _, .inl t => ⟨d.names, d.state, .done (last t.answers), notes⟩
    | _, .inr answers => ⟨d.names, d.state, .done (last answers), notes⟩

def start (r : Request α) (left : Option Nat) (names : Names) (st : Operation.State α) :
    Progress α :=
  let d := dispatch names st [] [.request r] [[]]
  match d.next with
  | .inl t => advance r.weight left d.names d.state t
  | .inr answers => ⟨d.names, d.state, .done (last answers), []⟩

def resume (t : Task α) (left : Option Nat) (names : Names) (st : Operation.State α) :
    Progress α :=
  let body := match t.phase with
    | .opening body => Request.bodyWeight body + 1
    | _ => 0
  advance (weight t.agenda + body + 1) left names st t

end Task

end LockFreeStack
