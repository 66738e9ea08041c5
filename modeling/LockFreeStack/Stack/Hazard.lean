import LockFreeStack.Memory
import LockFreeStack.Slot.Protect

/-!
The stack with hazard pointers. A pop publishes the address of the node on top and reads the head
again before it looks into the node; a node taken off is released at once if no record publishes
it, and parked otherwise.
-/

namespace LockFreeStack.Hazard

variable {α : Type}

/-- A push obtains a node, reads the head, and links the node above what it has seen. Whether
memory is granted is not up to the stack. -/
inductive Push (α : Type) where
  | allocate (v : α) (granted : Bool)
  | load (node : Address)
  | link (node seen : Address)

namespace Push

def action : Push α → Option ActionKind
  | allocate .. => none
  | load _ => some .headLoad
  | link .. => some .headCas

def step (m : Memory α) (s : Nat) : Push α → Outcome (Memory α) (Push α) (Except Failure Unit) α
  | allocate v granted =>
    if granted then
      let k := m.nodes.next
      ⟨{ m with nodes := m.nodes.alloc (.plain v .null) }, .goto (.load (.node k)), []⟩
    else ⟨m, .done (.error .allocation), [.dropped v]⟩
  | load node =>
    let head := (m.hazard s).head
    ⟨m, .goto (.link node head), [.action (.headLoad (.link head))]⟩
  | link node seen =>
    match m.nodes.plain? node with
    | none => ⟨m, .fault (.node node), []⟩
    | some _ =>
      let m := { m with nodes := m.nodes.updateAt node (·.setLink seen) }
      let head := (m.hazard s).head
      let seenThere : Action := .headCas (.link seen) (.link node) (head = seen) (.link head)
      if head = seen then ⟨m.setHead s node, .done (.ok ()), [.action seenThere]⟩
      else ⟨m, .goto (.link node head), [.action seenThere]⟩

end Push

/-- A pop with a slot. `withdraw` clears the slot of an empty stack's reader; `clear` clears it
after the detachment of `node`, whose value is `v` from then on. -/
inductive Pop (α : Type) where
  | protect (p : Protect.Point)
  | withdraw
  | readNext (node : Address)
  | detach (node next : Address)
  | take (node : Address)
  | clear (node : Address) (v : α)
  | scan (node : Address) (v : α) (i : Nat)
  | release (node : Address) (v : α)
  | park (node : Address) (v : α)
  | insert (c : Chain) (p : Insert.Point) (v : α)
  | check (v : α)
  | reclaim (p : Drain.Point) (v : α)

namespace Pop

def start : Pop α := .protect .load

def action : Pop α → Option ActionKind
  | protect p => Protect.action p
  | withdraw => some .hazardStore
  | detach .. => some .headCas
  | clear .. => some .hazardStore
  | insert _ p _ => Insert.action p
  | reclaim p _ => Drain.action p
  | _ => none

/-- A step of a pop on the stack `s` that publishes in the record at `place`. -/
def step (m : Memory α) (s : Nat) (place : Place) :
    Pop α → Outcome (Memory α) (Pop α) (Except Trouble (Option α)) α
  | protect p =>
    let head := (m.hazard s).head
    let ⟨nodes, entries, tables, lists, hazards, counteds, cells⟩ := m
    (Protect.step head place tables p).within
      (fun ts => ⟨nodes, entries, ts, lists, hazards, counteds, cells⟩) .protect
      (fun a => .goto (if a = .null then .withdraw else .readNext a))
  | withdraw =>
    ⟨{ m with tables := m.tables.publish place .null }, .done (.ok none),
      [.action (.hazardStore .null)]⟩
  | readNext node =>
    match m.nodes.plain? node with
    | none => ⟨m, .fault (.node node), []⟩
    | some (_, next) => ⟨m, .goto (.detach node next), []⟩
  | detach node next =>
    let head := (m.hazard s).head
    let seenThere : Action := .headCas (.link node) (.link next) (head = node) (.link head)
    if head = node then ⟨m.setHead s next, .goto (.take node), [.action seenThere]⟩
    else ⟨m, .goto start, [.action seenThere]⟩
  | take node =>
    match m.nodes.plain? node with
    | none => ⟨m, .fault (.node node), []⟩
    | some (v, _) => ⟨m, .goto (.clear node v), []⟩
  | clear node v =>
    ⟨{ m with tables := m.tables.publish place .null }, .goto (.scan node v 0),
      [.action (.hazardStore .null)]⟩
  | scan node v i =>
    match Scan.find (m.table (m.hazard s).table) node i with
    | .goto j => ⟨m, .goto (.scan node v j), []⟩
    | .done found => ⟨m, .goto (if found then .park node v else .release node v), []⟩
    | .fault f => ⟨m, .fault f, []⟩
  | release node v =>
    if m.nodes.isLiveAt node then
      ⟨{ m with nodes := m.nodes.release node }, .goto (.check v), node.freed⟩
    else ⟨m, .fault (.node node), []⟩
  | park node v =>
    let (m', c) := m.park (m.hazard s).list node .node
    ⟨m', .goto (.insert c .load v), []⟩
  | insert c p v =>
    (m.insertStep (m.hazard s).list c p).within id (.insert c · v) fun _ => .goto (.check v)
  | check v =>
    if (m.list (m.hazard s).list).isEmpty then ⟨m, .done (.ok (some v)), []⟩
    else ⟨m, .goto (.reclaim Drain.start v), []⟩
  | reclaim p v =>
    let h := m.hazard s
    (m.drainStep h.list h.table p).within id (.reclaim · v) fun
      | .ok _ => .done (.ok (some v))
      | .error e => .done (.error e)

/-- Enough steps for a pop that nobody disturbs. -/
def patience (m : Memory α) (s : Nat) : Nat :=
  let t := m.table (m.hazard s).table
  24 + 2 * t.capacity + Drain.patience m.entries t

end Pop

end LockFreeStack.Hazard
