import LockFreeStack.Proofs.History
import LockFreeStack.Proofs.Parking.Crowd
import LockFreeStack.Proofs.Path
import LockFreeStack.Proofs.Play
import LockFreeStack.Scenario.World

/-!
Several threads on hazard stacks that may share registries. They move in any order, one step of one
thread at a time. In between, registries and stacks come up, handles come and go, and the allocator
may hand out released places again.
-/

namespace LockFreeStack

variable {α : Type}

namespace Hazard

/-- What happens to the memory apart from the steps of the threads. -/
inductive Change where
  | registry (capacity : Nat)
  | handle (table : Nat)
  | unhandle (table : Nat)
  | stack (table : Nat)
  | recycleNode (k : Nat)
  | recycleEntry (k : Nat)

def Change.apply (m : Memory α) : Change → Memory α
  | registry capacity =>
    match Table.new capacity with
    | .ok t => m.addTable t
    | .error _ => m
  | handle t => m.addHandle t
  | unhandle t => m.dropHandle t
  | stack t => if t < m.tables.size then (m.addHandle t).addHazard t else m
  | recycleNode k => { m with nodes := m.nodes.recycle k }
  | recycleEntry k => { m with entries := m.entries.recycle k }

/-- What a thread can be asked to do. `lend` and `takeBack` are the two ends of a body that runs
with a slot, and publishing null takes a protection back. -/
inductive Call (α : Type) where
  | push (s : Nat) (v : α) (granted : Bool)
  | pop (s : Nat)
  | popWith (s : Nat) (slot : String)
  | reclaim (s : Nat)
  | register (table : Nat) (slot : String)
  | lend (table : Nat)
  | takeBack
  | publish (slot : String) (a : Address)
  | dropSlot (slot : String)
  | exit

namespace Call

/-- The stack that a call is about. -/
def stack? : Call α → Option Nat
  | push s _ _ | pop s | popWith s _ | reclaim s => some s
  | _ => none

/-- Where the operation starts, if what it is about is there. No thread exits in the middle of a
body. -/
def start? (m : Memory α) (me : Thread) : Call α → Option (Point α)
  | push s v granted => if s < m.hazards.size then some (.push (.hazard s) v granted) else none
  | pop s => if s < m.hazards.size then some (.pop m (.hazard s)) else none
  | popWith s slot => if s < m.hazards.size then (me.slot? slot).map (.popWith s) else none
  | reclaim s => if s < m.hazards.size then some (.reclaim m s) else none
  | register t slot => if t < m.tables.size then some (.acquire t (.register slot) .lookup) else none
  | lend t => if t < m.tables.size then some (.acquire t .lend .lookup) else none
  | takeBack => if me.lent = [] then none else some .takeBack
  | publish slot a => (me.slot? slot).map fun c => .publish c a
  | dropSlot slot => if me.slots.contains slot then some (.dropSlot slot) else none
  | exit => if me.lent = [] then some .exit else none

/-- Answers that fit the effects of an operation on a stack. -/
inductive Fits : Call α → List (Effect α) → Answer α → Prop where
  | pushed (s : Nat) (v : α) : Fits (.push s v true) [.push v] .ok
  | refused (s : Nat) (v : α) : Fits (.push s v false) [] (.trouble (.failure .allocation))
  | popped (s : Nat) (v : α) : Fits (.pop s) [.pop v] (.popped (some v))
  | empty (s : Nat) : Fits (.pop s) [.empty] (.popped none)
  | exhausted (s capacity : Nat) : Fits (.pop s) [] (.trouble (.failure (.exhausted capacity)))
  | poppedWith (s : Nat) (slot : String) (v : α) : Fits (.popWith s slot) [.pop v] (.popped (some v))
  | emptyWith (s : Nat) (slot : String) : Fits (.popWith s slot) [.empty] (.popped none)
  | foreign (s : Nat) (slot : String) : Fits (.popWith s slot) [] (.trouble (.panic .foreignSlot))
  | reclaimed (s n : Nat) : Fits (.reclaim s) [] (.count n)

end Call

end Hazard

/-- The same with the list `l` of the shared memory. -/
def Memory.missInsert (m : Memory α) (l : Nat) (c : Chain) (seen : Option Nat) :
    Memory α × Insert.Point :=
  let out := Insert.miss c (m.parking l) seen
  (m.withoutEntries.setParking l out.1, out.2)

namespace Point

/-- The effect of the next step on the content of a stack. A push has it when its node is linked, a
pop when it detaches a node or finds that the head it has read twice is null. -/
def effect? (m : Memory α) : Point α → Option (Nat × Effect α)
  | hazardPush s (.link node seen) =>
    if (m.hazard s).head = seen then (m.nodes.plain? node).map fun x => (s, .push x.1) else none
  | hazardPop s _ _ (.protect (.validate a)) =>
    if (m.hazard s).head = a ∧ a = .null then some (s, .empty) else none
  | hazardPop s _ _ (.detach node _) =>
    if (m.hazard s).head = node then (m.nodes.plain? node).map fun x => (s, .pop x.1) else none
  | _ => none

section

variable {m : Memory α} {s : Nat} {place : Place} {own : Option Nat} {a below seen next : Address} {v : α}

theorem effect?_link (hs : (m.hazard s).head = seen) (hx : m.nodes.plain? a = some (v, below)) :
    (hazardPush s (.link a seen)).effect? m = some (s, .push v) := by
  simp [effect?, hs, hx]

theorem effect?_link_of_ne (hs : (m.hazard s).head ≠ seen) :
    (hazardPush s (.link a seen)).effect? m = none := by
  simp [effect?, hs]

theorem effect?_validate (hs : (m.hazard s).head = .null) :
    (hazardPop s place own (.protect (.validate .null)) : Point α).effect? m = some (s, .empty) := by
  simp [effect?, hs]

theorem effect?_validate_of_ne (h : a ≠ (m.hazard s).head ∨ a ≠ .null) :
    (hazardPop s place own (.protect (.validate a)) : Point α).effect? m = none := by
  refine if_neg fun ⟨hs, hn⟩ => ?_
  exact h.elim (fun h => h hs.symm) fun h => h hn

theorem effect?_detach (hs : (m.hazard s).head = a) (hx : m.nodes.plain? a = some (v, below)) :
    (hazardPop s place own (.detach a next)).effect? m = some (s, .pop v) := by
  simp [effect?, hs, hx]

theorem effect?_detach_of_ne (hs : (m.hazard s).head ≠ a) :
    (hazardPop s place own (.detach a next) : Point α).effect? m = none := by
  simp [effect?, hs]

end

/-- The node that the operation is going to read, update, release or park. -/
def node? : Point α → Option Address
  | hazardPush _ (.load a) | hazardPush _ (.link a _) => some a
  | hazardPop _ _ _ (.readNext a) | hazardPop _ _ _ (.detach a _) | hazardPop _ _ _ (.take a)
  | hazardPop _ _ _ (.clear a _) | hazardPop _ _ _ (.scan a _ _) | hazardPop _ _ _ (.release a _)
  | hazardPop _ _ _ (.park a _) | hazardPop _ _ _ (.reclaim (.delete a _ _) _)
  | drain _ _ (.delete a _ _) => some a
  | _ => none

/-- A weak exchange that fails although it finds what it expects. -/
def miss? (m : Memory α) : Point α → Option (Memory α × Point α)
  | hazardPush s (.link node seen) =>
    some ({ m with nodes := m.nodes.updateAt node (·.setLink seen) },
      hazardPush s (.link node (m.hazard s).head))
  | hazardPop s place own (.insert c (.link seen) v) =>
    let out := m.missInsert (m.hazard s).list c seen
    some (out.1, hazardPop s place own (.insert c out.2 v))
  | hazardPop s place own (.reclaim (.restore c (.link seen) deferred reclaimed) v) =>
    let out := m.missInsert (m.hazard s).list c seen
    some (out.1, hazardPop s place own (.reclaim (.restore c out.2 deferred reclaimed) v))
  | drain list table (.restore c (.link seen) deferred reclaimed) =>
    let out := m.missInsert list c seen
    some (out.1, drain list table (.restore c out.2 deferred reclaimed))
  | _ => none

end Point

namespace Hazard

inductive Move (α : Type) where
  | call (i : Nat) (c : Call α)
  | step (i : Nat)
  | miss (i : Nat)
  | change (c : Change)

/-- The shared memory, what each thread has of its own, and the call that it is in with the point
where it stands. -/
structure Crowd (α : Type) where
  memory : Memory α
  me : Nat → Thread
  busy : Nat → Option (Call α × Point α)

namespace Crowd

def start : Crowd α := ⟨.empty, fun i => .new (World.token i), fun _ => none⟩

def set (x : Crowd α) (i : Nat) (st : Operation.State α) (b : Option (Call α × Point α)) : Crowd α :=
  ⟨st.1, Function.update x.me i st.2, Function.update x.busy i b⟩

def move (x : Crowd α) : Move α → Crowd α
  | .call i c =>
    match x.busy i, c.start? x.memory (x.me i) with
    | none, some p => x.set i (x.memory, x.me i) (some (c, p))
    | _, _ => x
  | .step i =>
    match x.busy i with
    | none => x
    | some (c, p) =>
      match Operation.step (x.memory, x.me i) p with
      | ⟨st, .goto q, _⟩ => x.set i st (some (c, q))
      | ⟨st, .done _, _⟩ => x.set i st none
      | ⟨_, .fault _, _⟩ => x
  | .miss i =>
    match x.busy i with
    | none => x
    | some (c, p) =>
      match p.miss? x.memory with
      | some (m, q) => x.set i (m, x.me i) (some (c, q))
      | none => x
  | .change c => { x with memory := c.apply x.memory }

/-- What a move adds to the history of the stack `s`. -/
def moments (s : Nat) (x : Crowd α) : Move α → List (Moment Nat (Call α) α)
  | .call i c =>
    match x.busy i, c.start? x.memory (x.me i) with
    | none, some _ => if c.stack? = some s then [.call i c] else []
    | _, _ => []
  | .step i =>
    match x.busy i with
    | none => []
    | some (c, p) =>
      (((p.effect? x.memory).filter fun e => e.1 = s).map fun e => Moment.effect i e.2).toList ++
        match (Operation.step (x.memory, x.me i) p).next with
        | .done a => if c.stack? = some s then [.answer i a] else []
        | _ => []
  | _ => []

/-- The threads and the history of the stack `s` after some moves. -/
def run (s : Nat) (ms : List (Move α)) : Crowd α × List (Moment Nat (Call α) α) :=
  play move (moments s) start ms

/-- The threads after some moves. -/
def after (ms : List (Move α)) : Crowd α := ms.foldl move start

theorem after_append_singleton (ms : List (Move α)) (mv : Move α) :
    after (ms ++ [mv]) = (after ms).move mv :=
  List.foldl_append

/-- The next step of the thread is an access that memory safety forbids. -/
def Faults (x : Crowd α) (i : Nat) : Prop :=
  ∃ c p f, x.busy i = some (c, p) ∧ (Operation.step (x.memory, x.me i) p).next = .fault f

/-- The next step of the thread releases the node at the place `k`. -/
def Frees (x : Crowd α) (i k : Nat) : Prop :=
  ∃ c p, x.busy i = some (c, p) ∧ .freed k ∈ (Operation.step (x.memory, x.me i) p).notes

def Uses (x : Crowd α) (i : Nat) (a : Address) : Prop :=
  ∃ c p, x.busy i = some (c, p) ∧ p.node? = some a

end Crowd

end Hazard

end LockFreeStack
