import LockFreeStack.Answer
import LockFreeStack.Slot.Acquire
import LockFreeStack.Stack.Hazard
import LockFreeStack.Stack.View

/-!
The operations of a thread on the shared memory and on its own slots, as program points advanced
step by step.
-/

namespace LockFreeStack

/-- What a claim is acquired for: to be kept as a slot of that name, to be lent to a body, or to
pop from a hazard stack. -/
inductive Purpose where
  | register (name : String)
  | lend
  | pop (s : Nat)

namespace Purpose

/-- The claim stays with the thread unless it was made for a slot of a name. -/
def pins : Purpose → Bool
  | register _ => false
  | _ => true

end Purpose

/-- Where an operation stands. Claims are the thread's own, by their number. -/
inductive Point (α : Type) where
  | hazardPush (s : Nat) (p : Hazard.Push α)
  | countedPush (s : Nat) (p : Counted.Push α)
  | acquire (table : Nat) (purpose : Purpose) (p : Acquire.Point)
  | popWith (s c : Nat)
  | hazardPop (s : Nat) (place : Place) (own : Option Nat) (p : Hazard.Pop α)
  | countedPop (s : Nat) (p : Counted.Pop α)
  | isEmpty (s : StackRef)
  | describe (l : Layout) (s : StackRef)
  | drain (list table : Nat) (p : Drain.Point)
  | park (list : Nat) (a : Address) (d : Deleter) (answer : Answer α)
  | parkBox (list : Nat) (v : α)
  | insert (list : Nat) (c : Chain) (p : Insert.Point) (answer : Answer α)
  | publish (c : Nat) (a : Address)
  | follow (cell c : Nat) (p : Protect.Point)
  | tryPublish (cell c : Nat) (a : Address)
  | tryValidate (cell : Nat) (a : Address)
  | dropSlot (name : String)
  | takeBack
  | letGo (c : Nat) (answer : Answer α)
  | release (place : Place) (p : Release.Point) (answer : Answer α)
  | exit
  | exitRelease (place : Place) (p : Release.Point)

namespace Point

variable {α : Type}

def push (s : StackRef) (v : α) (granted : Bool) : Point α :=
  match s with
  | .hazard s => hazardPush s (.allocate v granted)
  | .counted s => countedPush s (.allocate v granted)

def pop (m : Memory α) (s : StackRef) : Point α :=
  match s with
  | .hazard s => acquire (m.hazard s).table (.pop s) .lookup
  | .counted s => countedPop s .load

def reclaim (m : Memory α) (s : Nat) : Point α :=
  drain (m.hazard s).list (m.hazard s).table Drain.start

/-- The action that the next step performs, if it performs one. -/
def action : Point α → Option ActionKind
  | hazardPush _ p => p.action
  | countedPush _ p => p.action
  | acquire _ _ p => Acquire.action p
  | hazardPop _ _ _ p => p.action
  | countedPop _ p => p.action
  | isEmpty _ => some .headLoad
  | describe .. => some .headLoad
  | drain _ _ p => Drain.action p
  | insert _ _ p _ => Insert.action p
  | publish .. => some .hazardStore
  | follow _ _ p => Protect.action p
  | tryPublish .. => some .hazardStore
  | tryValidate .. => some .headLoad
  | release _ p _ => Release.action p
  | exitRelease _ p => Release.action p
  | _ => none

end Point

namespace Operation

variable {α : Type}

/-- The shared memory and the thread's own. -/
abbrev State (α : Type) := Memory α × Thread

/-- One reference to the claim `c` less; the last one gives the record back before the answer. -/
def letGo (m : Memory α) (me : Thread) (c : Nat) (answer : Answer α) :
    Outcome (State α) (Point α) (Answer α) α :=
  match me.place? c, me.letGo c with
  | some place, (me', true) => ⟨(m, me'), .goto (.release place .clear answer), []⟩
  | _, (me', _) => ⟨(m, me'), .done answer, []⟩

/-- How an operation goes on with the claim it has acquired. -/
def acquired (m : Memory α) (me : Thread) (c : Nat) :
    Purpose → Outcome (State α) (Point α) (Answer α) α
  | .register name =>
    let index := ((me.place? c).map Place.index).getD 0
    let me' := { me with slots := me.slots.insert name c }
    match me.slots.get? name with
    | none => ⟨(m, me'), .done (.count index), []⟩
    | some old => ⟨(m, me'), .goto (.letGo old (.count index)), []⟩
  | .lend => ⟨(m, { me with lent := c :: me.lent }), .done .ok, []⟩
  | .pop s =>
    match me.place? c with
    | none => ⟨(m, me), .done (.trouble (.panic .foreignSlot)), []⟩
    | some place => ⟨(m, me), .goto (.hazardPop s place (some c) .start), []⟩

/-- The next reference that an exiting thread gives up: its slots first, then the pins of its
cache. -/
def exit (m : Memory α) (me : Thread) : Outcome (State α) (Point α) (Answer α) α :=
  let give (me : Thread) (c : Nat) : Outcome (State α) (Point α) (Answer α) α :=
    match me.place? c, me.letGo c with
    | some place, (me', true) => ⟨(m, me'), .goto (.exitRelease place .clear), []⟩
    | _, (me', _) => ⟨(m, me'), .goto .exit, []⟩
  match me.slots.entries, me.cache with
  | (_, c) :: rest, _ => give { me with slots := ⟨rest⟩ } c
  | [], e :: rest =>
    let me := { me with cache := rest }
    if e.pinned then give me e.claim else ⟨(m, me), .goto .exit, []⟩
  | [], [] => ⟨(m, me), .done .ok, []⟩

def step (st : State α) : Point α → Outcome (State α) (Point α) (Answer α) α
  | .hazardPush s p =>
    let (m, me) := st
    (p.step m s).within (·, me) (.hazardPush s) fun r => .done (.ofPush r)
  | .countedPush s p =>
    let (m, me) := st
    let store := m.store s
    let rest := m.withoutNodes
    (p.step store).within (rest.setStore s ·, me) (.countedPush s) fun r => .done (.ofPush r)
  | .acquire table purpose p =>
    let (⟨nodes, entries, tables, lists, hazards, counteds, cells⟩, me) := st
    match Acquire.step table purpose.pins (tables, me) p with
    | ⟨(ts, me), .goto q, notes⟩ =>
      ⟨(⟨nodes, entries, ts, lists, hazards, counteds, cells⟩, me),
        .goto (.acquire table purpose q), notes⟩
    | ⟨(ts, me), .done (.ok c), notes⟩ =>
      let o := acquired ⟨nodes, entries, ts, lists, hazards, counteds, cells⟩ me c purpose
      { o with notes := notes ++ o.notes }
    | ⟨(ts, me), .done (.error e), notes⟩ =>
      ⟨(⟨nodes, entries, ts, lists, hazards, counteds, cells⟩, me), .done (.trouble e), notes⟩
    | ⟨(ts, me), .fault f, notes⟩ =>
      ⟨(⟨nodes, entries, ts, lists, hazards, counteds, cells⟩, me), .fault f, notes⟩
  | .popWith s c =>
    let (m, me) := st
    match me.place? c with
    | some place =>
      if place.table = (m.hazard s).table then ⟨(m, me), .goto (.hazardPop s place none .start), []⟩
      else ⟨(m, me), .done (.trouble (.panic .foreignSlot)), []⟩
    | none => ⟨(m, me), .done (.trouble (.panic .foreignSlot)), []⟩
  | .hazardPop s place own p =>
    let (m, me) := st
    (p.step m s place).within (·, me) (.hazardPop s place own) fun r =>
      match own with
      | none => .done (.ofPop r)
      | some c => .goto (.letGo c (.ofPop r))
  | .countedPop s p =>
    let (m, me) := st
    let store := m.store s
    let rest := m.withoutNodes
    (p.step store).within (rest.setStore s ·, me) (.countedPop s) fun r => .done (.ofPop r)
  | .isEmpty s => ⟨st, .done (.flag (st.1.isEmpty s)), [.action (.headLoad (st.1.head s))]⟩
  | .describe l s => ⟨st, .done (.text (st.1.stackText l s)), [.action (.headLoad (st.1.head s))]⟩
  | .drain list table p =>
    let (m, me) := st
    (m.drainStep list table p).within (·, me) (.drain list table) fun r => .done (.ofCount r)
  | .park list a d answer =>
    let (m, me) := st
    let (m, c) := m.park list a d
    ⟨(m, me), .goto (.insert list c .load answer), []⟩
  | .parkBox list v =>
    let (m, me) := st
    let k := m.nodes.next
    ⟨({ m with nodes := m.nodes.alloc (.boxed v) }, me),
      .goto (.park list (.node k) .box (.address (.node k))), []⟩
  | .insert list c p answer =>
    let (m, me) := st
    (m.insertStep list c p).within (·, me) (.insert list c · answer) fun _ => .done answer
  | .publish c a =>
    let (m, me) := st
    match me.place? c with
    | none => ⟨(m, me), .done .ok, []⟩
    | some place =>
      ⟨({ m with tables := m.tables.publish place a }, me), .done .ok, [.action (.hazardStore a)]⟩
  | .follow cell c p =>
    let (m, me) := st
    match me.place? c with
    | none => ⟨(m, me), .done .ok, []⟩
    | some place =>
      (Protect.step (m.cell cell) place m.tables p).within ({ m with tables := · }, me)
        (.follow cell c) fun a => .done (.address a)
  | .tryPublish cell c a =>
    let (m, me) := st
    match me.place? c with
    | none => ⟨(m, me), .done .ok, []⟩
    | some place =>
      ⟨({ m with tables := m.tables.publish place a }, me), .goto (.tryValidate cell a),
        [.action (.hazardStore a)]⟩
  | .tryValidate cell a =>
    let now := st.1.cell cell
    ⟨st, .done (.followed (a = now) now), [.action (.headLoad (.link now))]⟩
  | .dropSlot name =>
    let (m, me) := st
    match me.slots.get? name with
    | none => ⟨(m, me), .done .ok, []⟩
    | some c => letGo m { me with slots := me.slots.erase name } c .ok
  | .takeBack =>
    let (m, me) := st
    match me.lent with
    | [] => ⟨(m, me), .done .ok, []⟩
    | c :: rest => letGo m { me with lent := rest } c .ok
  | .letGo c answer => letGo st.1 st.2 c answer
  | .release place p answer =>
    let (⟨nodes, entries, tables, lists, hazards, counteds, cells⟩, me) := st
    (Release.step tables place p).within
      (fun ts => (⟨nodes, entries, ts, lists, hazards, counteds, cells⟩, me))
      (.release place · answer) fun _ => .done answer
  | .exit => exit st.1 st.2
  | .exitRelease place p =>
    let (⟨nodes, entries, tables, lists, hazards, counteds, cells⟩, me) := st
    (Release.step tables place p).within
      (fun ts => (⟨nodes, entries, ts, lists, hazards, counteds, cells⟩, me))
      (.exitRelease place) fun _ => .goto .exit

/-- Enough steps for an operation that nobody disturbs. -/
def patience (st : State α) : Nat :=
  let (m, me) := st
  64 + 8 * (me.slots.entries.length + me.cache.length) + 2 * m.entries.size +
    8 * m.tables.foldl (fun n t => n + t.capacity) 0

/-- The operation goes on by itself until its end, or until it comes to an action that it has no
allowance for. -/
def run (left : Option Nat) (st : State α) (p : Point α) :
    Outcome (State α) (Point α) (Answer α) α :=
  runSteps step Point.action (patience st) left st p

end Operation

end LockFreeStack
