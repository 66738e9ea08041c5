import LockFreeStack.Operation
import LockFreeStack.Teardown

/-!
One stack of either kind, used by one thread and dropped at the end.
-/

namespace LockFreeStack

namespace Solo

variable {α : Type}

/-- Whether the stack is used directly or through the interface that both kinds share. -/
inductive Access where
  | direct
  | shared
deriving DecidableEq

inductive Op (α : Type) where
  | push (v : α)
  | tryPush (v : α) (granted : Bool)
  | pop
  | isEmpty
  | fill (vs : List α)
  | drain
  | text (l : Layout)
  | pending
  | reclaim
  | claimed
  | capacity
  | isLockFree
  | unknown

/-- The memory, the thread and its stack. -/
structure Session (α : Type) where
  state : Operation.State α
  stack : StackRef

/-- A session after an operation, its answer, and what was seen. -/
structure Reply (α : Type) where
  session : Session α
  answer : Answer α
  notes : List (Note α)

namespace Session

/-- A new stack; a hazard stack has a registry of its own with so many slots. -/
def new (token : Nat) (kind : StackKind) (capacity : Nat) : Except Panic (Session α) :=
  match kind with
  | .hazard => (Table.new capacity).map fun t =>
    ⟨((Memory.empty.addTable t).addHazard 0, .new token), .hazard 0⟩
  | .counted => .ok ⟨(Memory.empty.addCounted, .new token), .counted 0⟩

/-- An operation from its start to its end. -/
def finish (st : Operation.State α) (s : StackRef) (p : Point α) : Reply α :=
  match Operation.run none st p with
  | ⟨st, .done a, notes⟩ => ⟨⟨st, s⟩, a, notes⟩
  | ⟨st, .fault f, notes⟩ => ⟨⟨st, s⟩, .fault f, notes⟩
  | ⟨st, .goto _, notes⟩ => ⟨⟨st, s⟩, .refused .busy, notes⟩

def push (x : Session α) (v : α) (granted : Bool) : Reply α :=
  let ⟨st, s⟩ := x
  finish st s (.push s v granted)

def pop (x : Session α) : Reply α :=
  let ⟨st, s⟩ := x
  let p := Point.pop st.1 s
  finish st s p

def fill (x : Session α) : List α → Reply α
  | [] => ⟨x, .ok, []⟩
  | v :: rest =>
    let ⟨x, _, notes⟩ := x.push v true
    let o := fill x rest
    { o with notes := notes ++ o.notes }

/-- Pops until the stack is empty or a pop fails, at most `fuel` times. -/
def drain : Nat → Session α → List α → Reply α
  | 0, x, vs => ⟨x, .values vs.reverse, []⟩
  | fuel + 1, x, vs =>
    match x.pop with
    | ⟨x, .popped (some v), notes⟩ =>
      let o := drain fuel x (v :: vs)
      { o with notes := notes ++ o.notes }
    | ⟨x, _, notes⟩ => ⟨x, .values vs.reverse, notes⟩

/-- The hazard stack of a session that uses one directly. -/
def hazard? (x : Session α) : Access → Option Hazard.Stack
  | .shared => none
  | .direct =>
    match x.stack with
    | .hazard s => some (x.state.1.hazard s)
    | .counted _ => none

def ofHazard (access : Access) (x : Session α) (f : Hazard.Stack → Answer α) : Reply α :=
  ⟨x, ((x.hazard? access).map f).getD (.refused .hazardOnly), []⟩

def perform (access : Access) (x : Session α) : Op α → Reply α
  | .push v => x.push v true
  | .tryPush v granted => x.push v granted
  | .pop => x.pop
  | .isEmpty =>
    let ⟨st, s⟩ := x
    finish st s (.isEmpty s)
  | .fill vs => x.fill vs
  | .drain =>
    let n := x.state.1.nodes.size
    x.drain (n + 1) []
  | .text l =>
    if access = .direct then ⟨x, .text (x.state.1.stackText l x.stack), []⟩
    else ⟨x, .refused .directOnly, []⟩
  | .pending => x.ofHazard access fun h => .count (x.state.1.list h.list).length
  | .reclaim =>
    match x.hazard? access with
    | none => ⟨x, .refused .hazardOnly, []⟩
    | some h =>
      let ⟨st, s⟩ := x
      finish st s (.drain h.list h.table Drain.start)
  | .claimed => x.ofHazard access fun h => .count (x.state.1.table h.table).claimed
  | .capacity => x.ofHazard access fun h => .count (x.state.1.table h.table).capacity
  | .isLockFree => ⟨x, .flag true, []⟩
  | .unknown => ⟨x, .refused .unknownOperation, []⟩

def performAll (access : Access) (x : Session α) :
    List (Op α) → Session α × List (Answer α) × List (Note α)
  | [] => (x, [], [])
  | op :: rest =>
    let ⟨x, a, notes⟩ := x.perform access op
    let (x, as, more) := performAll access x rest
    (x, a :: as, notes ++ more)

end Session

/-- The answers, what was seen meanwhile, what was seen when the stack was dropped, and the number
of nodes obtained. -/
structure Report (α : Type) where
  answers : List (Answer α)
  notes : List (Note α)
  teardown : List (Note α)
  allocated : Nat

def run (kind : StackKind) (access : Access) (capacity : Nat) (ops : List (Op α)) :
    Except Panic (Report α) :=
  (Session.new 1 kind capacity).map fun x =>
    let (⟨(m, _), s⟩, answers, notes) := x.performAll access ops
    let (m, teardown) := m.dropStack s
    ⟨answers, notes, teardown, m.nodes.size⟩

end Solo

end LockFreeStack
