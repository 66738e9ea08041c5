import LockFreeStack.Solo

/-!
Loads of several threads of which every schedule gives the same account. They are run here one
thread after the other.
-/

namespace LockFreeStack.Workload

open Solo

/-- The values of the `t`-th of several threads that push `k` values each. -/
def share (t k : Nat) : List Nat := (List.range k).map (t * k + ·)

/-- At most `n` pops: the values popped. -/
def pops : Nat → Session Nat → Session Nat × List Nat
  | 0, x => (x, [])
  | n + 1, x =>
    match x.pop with
    | ⟨x, .popped (some v), _⟩ =>
      let (x, vs) := pops n x
      (x, v :: vs)
    | ⟨x, _, _⟩ => (x, [])

def exit (x : Session Nat) : Memory Nat :=
  let ⟨st, s⟩ := x
  (Session.finish st s .exit).session.state.1

/-- Each thread pushes its share, pops as many values less `left`, and exits. -/
def shifts (s : StackRef) (k left : Nat) : List Nat → Memory Nat → Memory Nat × List Nat
  | [], m => (m, [])
  | t :: rest, m =>
    let x : Session Nat := ⟨(m, .new (t + 1)), s⟩
    let (x, vs) := pops (k - left) (x.fill (share t k)).session
    let (m, more) := shifts s k left rest (exit x)
    (m, vs ++ more)

/-- The account of threads that push and pop, and of a last thread that pops the rest. For a hazard
stack it ends with the nodes still parked and the slots still claimed. -/
structure Shared where
  popped : Nat
  isEmpty : Bool
  rest : Nat
  total : Nat
  distinct : Nat
  sum : Nat
  dropped : Nat
  slots : Option (Nat × Nat)

def total (values : List Nat) : Nat := values.foldl (· + ·) 0

/-- The number of different values: in ascending order, those that differ from the one before. -/
def distinct (values : List Nat) : Nat :=
  let sorted := values.mergeSort fun a b => decide (a ≤ b)
  let pairs := sorted.zip sorted.tail
  pairs.countP (fun p => p.1 ≠ p.2) + if sorted.isEmpty then 0 else 1

def droppedIn (notes : List (Note Nat)) : List Nat :=
  notes.filterMap fun | .dropped v => some v | _ => none

def work (kind : StackKind) (threads k left capacity : Nat) : Except Panic Shared :=
  (Session.new 0 kind capacity).map fun x =>
    let ⟨(m, _), s⟩ := x
    let (m, popped) := shifts s k left (List.range threads) m
    let isEmpty := m.isEmpty s
    let x : Session Nat := ⟨(m, .new (threads + 1)), s⟩
    let (x, rest) := pops (threads * k + 1) x
    let x := (x.perform .direct .reclaim).session
    let m := x.state.1
    let slots := match s with
      | .hazard i => some ((m.list (m.hazard i).list).length, (m.table (m.hazard i).table).claimed)
      | .counted _ => none
    let all := popped ++ rest
    { popped := popped.length
      isEmpty := isEmpty
      rest := rest.length
      total := all.length
      distinct := distinct all
      sum := total all
      dropped := (droppedIn (m.dropStack s).2).length
      slots := slots }

/-- The account of threads that only push, after which the stack is dropped. -/
structure Pushed where
  isEmpty : Bool
  dropped : Nat
  sum : Nat
  first : Option Nat
  last : Option Nat

def pushOnly (kind : StackKind) (threads k capacity : Nat) : Except Panic Pushed :=
  (Session.new 0 kind capacity).map fun x =>
    let ⟨(m, _), s⟩ := x
    let (m, _) := shifts s k k (List.range threads) m
    let values := droppedIn (m.dropStack s).2
    ⟨m.isEmpty s, values.length, total values, values.min?, values.max?⟩

/-- Threads that pop once each and stay: the threads and the texts of their results. -/
def arrivals (s : StackRef) : List Nat → Memory Nat → Memory Nat × List Thread × List String
  | [], m => (m, [], [])
  | t :: rest, m =>
    let x : Session Nat := ⟨(m, .new (t + 1)), s⟩
    let r := x.pop
    let text := match r.answer with
      | .popped v => Layout.flag v.isSome
      | .trouble (.failure f) => f.message
      | .trouble (.panic p) => p.message
      | _ => ""
    let (m, me) := r.session.state
    let (m, threads, texts) := arrivals s rest m
    (m, me :: threads, text :: texts)

def exits (s : StackRef) : List Thread → Memory Nat → Memory Nat
  | [], m => m
  | t :: rest, m => exits s rest (exit ⟨(m, t), s⟩)

/-- The account of two groups of threads that come for a slot, of all of them leaving, and of what
a reclamation leaves parked then. -/
structure Exhausted where
  first : List String
  claimed : Nat
  second : List String
  claimedFull : Nat
  claimedAfter : Nat
  reclaimLeaves : Nat

def exhaust (threads k capacity : Nat) : Except Panic Exhausted :=
  (Session.new 0 .hazard capacity).map fun x =>
    let x := (x.fill (List.range (threads + k))).session
    let ⟨(m, _), s⟩ := x
    let sort (texts : List String) : List String := texts.mergeSort fun a b => decide (a ≤ b)
    let (m, early, first) := arrivals s (List.range threads) m
    let claimed := (m.table 0).claimed
    let (m, late, second) := arrivals s ((List.range k).map (threads + ·)) m
    let claimedFull := (m.table 0).claimed
    let m := exits s (early ++ late) m
    let claimedAfter := (m.table 0).claimed
    let x : Session Nat := ⟨(m, .new (threads + k + 1)), s⟩
    let m := (x.perform .direct .reclaim).session.state.1
    ⟨sort first, claimed, sort second, claimedFull, claimedAfter, (m.list 0).length⟩

end LockFreeStack.Workload
