import LockFreeStack.Parking.Drain
import LockFreeStack.Proofs.Parking.Stored
import LockFreeStack.Proofs.Play

/-!
Several threads that push to parked lists and pass over them. They move in any order, one step of
one thread at a time. What registries publish is up to others: each step of a pass may find any
table.
-/

namespace LockFreeStack

namespace Insert

/-- An exchange of the list's head that fails although it finds what it expects. -/
def miss (c : Chain) (m : Parking) (seen : Option Nat) : Parking × Point :=
  (⟨m.entries.update c.last fun e => { e with next := seen }, m.list⟩, .link m.list.head)

end Insert

namespace Parking

/-- Where a thread stands that puts something on a list, or passes over the list. -/
inductive Point where
  | park (a : Address) (d : Deleter)
  | insert (c : Chain) (p : Insert.Point)
  | drain (p : Drain.Point)

inductive Call where
  | push (a : Address) (d : Deleter)
  | drain

def Call.start : Call → Point
  | push a d => .park a d
  | drain => .drain Drain.start

namespace Point

/-- A step on one list, at a time when the registry is `t`. -/
def step (t : Table) (m : Parking) : Point → Outcome Parking Point (Except Trouble Nat) Unit
  | park a d =>
    let (m', e) := m.park a d
    ⟨m', .goto (.insert ⟨e, e⟩ .load), []⟩
  | insert c p => (Insert.step c m p).within id (.insert c) fun _ => .done (.ok 0)
  | drain p => (Drain.step t m p).within id .drain .done

/-- A weak exchange that fails although it finds what it expects. -/
def miss? (m : Parking) : Point → Option (Parking × Point)
  | insert c (.link seen) =>
    let out := Insert.miss c m seen
    some (out.1, .insert c out.2)
  | drain (.restore c (.link seen) deferred reclaimed) =>
    let out := Insert.miss c m seen
    some (out.1, .drain (.restore c out.2 deferred reclaimed))
  | _ => none

end Point

/-- What happens to an entry, and the calls of deleters. -/
inductive Deed where
  | parked (e : Nat) (x : Address × Deleter)
  | unlinked (e i : Nat) (x : Address × Deleter)
  | called (i : Nat) (x : Address × Deleter)

namespace Deed

/-- The entry that something happens to. -/
def about? : Deed → Option Nat
  | parked e _ | unlinked e _ _ => some e
  | called .. => none

/-- The thread that takes an entry out and calls its deleter. -/
def thread? : Deed → Option Nat
  | parked .. => none
  | unlinked _ i _ | called i _ => some i

/-- The call that a note tells of. -/
def ofNote? (i : Nat) : Note Unit → Option Deed
  | .deleted a d => some (.called i (a, d))
  | _ => none

end Deed

/-- What a step of thread `i` does to entries, and the deleter that it calls. -/
def Point.deeds (i : Nat) (t : Table) (m : Parking) (p : Point) : List Deed :=
  let out := p.step t m
  let moved : List Deed :=
    match p, out.next with
    | park a d, _ => [.parked m.entries.next (a, d)]
    | drain (.walk w), .goto (drain (.delete a d _)) => w.at?.toList.map fun e => .unlinked e i (a, d)
    | _, _ => []
  moved ++ out.notes.filterMap (Deed.ofNote? i)

/-- The entries, the lists that they belong to, and for each thread the list that it is at work on
with the point where it stands. -/
structure Crowd where
  entries : Entries
  list : Nat → ParkedList
  busy : Nat → Option (Nat × Point)

inductive Move where
  | call (i l : Nat) (c : Call)
  | step (i : Nat) (t : Table)
  | miss (i : Nat)
  | recycle (k : Nat)

namespace Crowd

def start : Crowd := ⟨.empty, fun _ => .empty, fun _ => none⟩

def parking (x : Crowd) (l : Nat) : Parking := ⟨x.entries, x.list l⟩

def set (x : Crowd) (i l : Nat) (m : Parking) (o : Option Point) : Crowd :=
  ⟨m.entries, Function.update x.list l m.list, Function.update x.busy i (o.map fun p => (l, p))⟩

/-- A thread in the middle of an operation takes no call, and one that is idle no step. -/
def move (x : Crowd) : Move → Crowd
  | .call i l c =>
    match x.busy i with
    | none => x.set i l (x.parking l) (some c.start)
    | some _ => x
  | .step i t =>
    match x.busy i with
    | none => x
    | some (l, p) =>
      match p.step t (x.parking l) with
      | ⟨m, .goto q, _⟩ => x.set i l m (some q)
      | ⟨m, .done _, _⟩ => x.set i l m none
      | ⟨_, .fault _, _⟩ => x
  | .miss i =>
    match x.busy i with
    | none => x
    | some (l, p) =>
      match p.miss? (x.parking l) with
      | some (m, q) => x.set i l m (some q)
      | none => x
  | .recycle k => { x with entries := x.entries.recycle k }

/-- The deeds of a move. -/
def deeds (x : Crowd) : Move → List Deed
  | .step i t =>
    match x.busy i with
    | none => []
    | some (l, p) => p.deeds i t (x.parking l)
  | _ => []

/-- The threads and the deeds after some moves. -/
def run (ms : List Move) : Crowd × List Deed := play move deeds start ms

/-- The next step of the thread is an access that memory safety forbids, or finds an entry that is
linked to itself. -/
def Fails (x : Crowd) (i : Nat) (t : Table) : Prop :=
  ∃ l p, x.busy i = some (l, p) ∧
    ((∃ f, (p.step t (x.parking l)).next = .fault f) ∨
      ∃ e, (p.step t (x.parking l)).next = .done (.error e))

end Crowd

end Parking

end LockFreeStack
