import LockFreeStack.Stack.Counted
import LockFreeStack.Proofs.History
import LockFreeStack.Proofs.Path
import LockFreeStack.Proofs.Play

/-!
Several threads on one counted stack. They move in any order, one step of one thread at a time, and
the allocator may hand out the place of a released node again at any time.
-/

namespace LockFreeStack.Counted

variable {ι α : Type}

/-- Where a thread stands in an operation on the stack. -/
inductive Point (α : Type) where
  | push (p : Push α)
  | pop (p : Pop α)

/-- Whether memory is granted is not up to the stack. -/
inductive Call (α : Type) where
  | push (v : α) (granted : Bool)
  | pop

def Call.start : Call α → Point α
  | push v granted => .push (.allocate v granted)
  | pop => .pop .load

/-- Answers that fit the effects of an operation. -/
inductive Call.Fits : Call α → List (Effect α) → Answer α → Prop where
  | pushed (v : α) : Fits (.push v true) [.push v] .ok
  | refused (v : α) : Fits (.push v false) [] (.trouble (.failure .allocation))
  | popped (v : α) : Fits .pop [.pop v] (.popped (some v))
  | empty : Fits .pop [.empty] (.popped none)

/-- Answers after which an operation is over: one that fits its effects, or an overflow of a count. -/
inductive Call.Ends : Call α → List (Effect α) → Answer α → Prop where
  | fits {c : Call α} {es : List (Effect α)} {a : Answer α} (h : c.Fits es a) : Ends c es a
  | overflows (e : Panic) : Ends .pop [] (.trouble (.panic e))
  | loses (v : α) (e : Panic) : Ends .pop [.pop v] (.trouble (.panic e))

namespace Point

def step (m : Store α) : Point α → Outcome (Store α) (Point α) (Answer α) α
  | push p => (p.step m).within id push fun r => .done (.ofPush r)
  | pop p => (p.step m).within id pop fun r => .done (.ofPop r)

/-- The effect of the next step. A push has it when its node is linked, a pop when it detaches a
node or raises the count of a pair without one. -/
def effect? (m : Store α) : Point α → Option (Effect α)
  | push (.link node seen) =>
    if m.head = seen then (m.nodes.counted? node).map fun x => .push x.1 else none
  | pop (.bump seen) =>
    match seen.bump with
    | .ok _ => if m.head = seen ∧ seen.address = .null then some .empty else none
    | .error _ => none
  | pop (.detach held _) =>
    if m.head = held then (m.nodes.counted? held.address).map fun x => .pop x.1 else none
  | _ => none

/-- The node of a push that is not linked yet. -/
def fresh? : Point α → Option Address
  | push (.load a) | push (.link a _) => some a
  | _ => none

/-- The pair through which a pop holds a reference to a node. -/
def held? : Point α → Option (Pair Address)
  | pop (.readNext held) | pop (.detach held _) | pop (.take held) | pop (.fold held _)
  | pop (.giveBack held _) => some held
  | _ => none

/-- The same for a pop that has detached the node and has not added the surplus yet. -/
def taken? : Point α → Option (Pair Address)
  | pop (.take held) | pop (.fold held _) => some held
  | _ => none

/-- The node that a pop is about to release. -/
def spent? : Point α → Option Address
  | pop (.release a _) | pop (.releaseLate a _) => some a
  | _ => none

/-- The operation is still going to read, update or release the node at `a`. -/
def Uses (p : Point α) (a : Address) : Prop :=
  p.fresh? = some a ∨ p.held?.map Pair.address = some a ∨ p.spent? = some a

end Point

/-- A stack, and where each thread stands in its operation if it is in one. -/
structure Crowd (ι α : Type) where
  store : Store α
  point : ι → Option (Point α)

/-- `miss` is a weak exchange that fails although it finds what it expects. -/
inductive Move (ι α : Type) where
  | call (i : ι) (c : Call α)
  | step (i : ι)
  | miss (i : ι)
  | recycle (k : Nat)

def Move.thread? : Move ι α → Option ι
  | call i _ | step i | miss i => some i
  | recycle _ => none

namespace Crowd

variable [DecidableEq ι]

def start : Crowd ι α := ⟨⟨.empty, ⟨0, .null⟩⟩, fun _ => none⟩

def set (x : Crowd ι α) (i : ι) (m : Store α) (p : Option (Point α)) : Crowd ι α :=
  ⟨m, Function.update x.point i p⟩

/-- A thread in the middle of an operation takes no call, and one that is idle no step. -/
def move (x : Crowd ι α) : Move ι α → Crowd ι α
  | .call i c =>
    match x.point i with
    | none => x.set i x.store (some c.start)
    | some _ => x
  | .step i =>
    match x.point i with
    | none => x
    | some p =>
      match p.step x.store with
      | ⟨m, .goto q, _⟩ => x.set i m (some q)
      | ⟨m, .done _, _⟩ => x.set i m none
      | ⟨_, .fault _, _⟩ => x
  | .miss i =>
    match x.point i with
    | some (.push (.link node seen)) =>
      x.set i ⟨x.store.nodes.updateAt node (·.setPair seen), x.store.head⟩
        (some (.push (.link node x.store.head)))
    | _ => x
  | .recycle k => ⟨⟨x.store.nodes.recycle k, x.store.head⟩, x.point⟩

/-- What a move adds to the history. -/
def moments (x : Crowd ι α) : Move ι α → List (Moment ι (Call α) α)
  | .call i c =>
    match x.point i with
    | none => [.call i c]
    | some _ => []
  | .step i =>
    match x.point i with
    | none => []
    | some p =>
      ((p.effect? x.store).map (Moment.effect i)).toList ++
        match (p.step x.store).next with
        | .done a => [.answer i a]
        | _ => []
  | _ => []

/-- The threads and their history after some moves. -/
def run (ms : List (Move ι α)) : Crowd ι α × List (Moment ι (Call α) α) :=
  play move moments start ms

/-- The next step of the thread is an access that memory safety forbids. -/
def Faults (x : Crowd ι α) (i : ι) : Prop :=
  ∃ p f, x.point i = some p ∧ (p.step x.store).next = .fault f

/-- The next step of the thread releases the node at the place `k`. -/
def Frees (x : Crowd ι α) (i : ι) (k : Nat) : Prop :=
  ∃ p, x.point i = some p ∧ .freed k ∈ (p.step x.store).notes

def Uses (x : Crowd ι α) (i : ι) (a : Address) : Prop := ∃ p, x.point i = some p ∧ p.Uses a

end Crowd

end LockFreeStack.Counted
