import LockFreeStack.Heap
import LockFreeStack.Step

/-!
The stack with split reference counts. A pop raises the count of the head before it looks into the
node below it. Whoever detaches the node adds the references that others still hold to the node's
own count, everybody else takes one off that count when done, and the node is released by the one
who brings it to zero.
-/

namespace LockFreeStack.Counted

variable {α : Type}

/-- The nodes and the head of one counted stack. -/
structure Store (α : Type) where
  nodes : Nodes α
  head : Pair Address

inductive Push (α : Type) where
  | allocate (v : α) (granted : Bool)
  | load (node : Address)
  | link (node : Address) (seen : Pair Address)

/-- The note of an exchange of the head. -/
def exchanged (expected new found : Pair Address) : Note α :=
  .action (.headCas (.pair expected) (.pair new) (found = expected) (.pair found))

namespace Push

def action : Push α → Option ActionKind
  | allocate .. => none
  | load _ => some .headLoad
  | link .. => some .headCas

def step (m : Store α) : Push α → Outcome (Store α) (Push α) (Except Failure Unit) α
  | allocate v granted =>
    if granted then
      let ⟨nodes, head⟩ := m
      let k := nodes.next
      ⟨⟨nodes.alloc (.counted v ⟨0, .null⟩ 0), head⟩, .goto (.load (.node k)), []⟩
    else ⟨m, .done (.error .allocation), [.dropped v]⟩
  | load node => ⟨m, .goto (.link node m.head), [.action (.headLoad (.pair m.head))]⟩
  | link node seen =>
    match m.nodes.counted? node with
    | none => ⟨m, .fault (.node node), []⟩
    | some _ =>
      let ⟨nodes, head⟩ := m
      let nodes := nodes.updateAt node (·.setPair seen)
      let new : Pair Address := ⟨1, node⟩
      if head = seen then ⟨⟨nodes, new⟩, .done (.ok ()), [exchanged seen new head]⟩
      else ⟨⟨nodes, head⟩, .goto (.link node head), [exchanged seen new head]⟩

end Push

/-- `held` is the pair that this pop's own bump has made. `fold` adds the surplus after a
detachment, `giveBack` returns the reference after a failed one, and `now` is the head that made it
fail. -/
inductive Pop (α : Type) where
  | load
  | bump (seen : Pair Address)
  | readNext (held : Pair Address)
  | detach (held next : Pair Address)
  | take (held : Pair Address)
  | fold (held : Pair Address) (v : α)
  | release (node : Address) (v : α)
  | giveBack (held now : Pair Address)
  | releaseLate (node : Address) (now : Pair Address)

namespace Pop

def action : Pop α → Option ActionKind
  | load => some .headLoad
  | bump _ => some .headCas
  | detach .. => some .headCas
  | fold .. => some .countAdd
  | giveBack .. => some .countSub
  | _ => none

def step (m : Store α) : Pop α → Outcome (Store α) (Pop α) (Except Trouble (Option α)) α
  | load => ⟨m, .goto (.bump m.head), [.action (.headLoad (.pair m.head))]⟩
  | bump seen =>
    match seen.bump with
    | .error e => ⟨m, .done (.error (.panic e)), []⟩
    | .ok held =>
      if m.head = seen then
        ⟨{ m with head := held },
          if held.address = .null then .done (.ok none) else .goto (.readNext held),
          [exchanged seen held m.head]⟩
      else ⟨m, .goto (.bump m.head), [exchanged seen held m.head]⟩
  | readNext held =>
    match m.nodes.counted? held.address with
    | none => ⟨m, .fault (.node held.address), []⟩
    | some (_, next, _) => ⟨m, .goto (.detach held next), []⟩
  | detach held next =>
    if m.head = held then
      ⟨{ m with head := next }, .goto (.take held), [exchanged held next m.head]⟩
    else ⟨m, .goto (.giveBack held m.head), [exchanged held next m.head]⟩
  | take held =>
    match m.nodes.counted? held.address with
    | none => ⟨m, .fault (.node held.address), []⟩
    | some (v, _, _) => ⟨m, .goto (.fold held v), []⟩
  | fold held v =>
    match held.surplus with
    | .error e => ⟨m, .done (.error (.panic e)), []⟩
    | .ok more =>
      match m.nodes.counted? held.address with
      | none => ⟨m, .fault (.node held.address), []⟩
      | some (_, _, before) =>
        let m := { m with nodes := m.nodes.updateAt held.address (·.setInternal (before + more)) }
        let notes : List (Note α) := [.action (.countAdd more before)]
        if more = Int64.minValue then ⟨m, .done (.error (.panic .negationOverflow)), notes⟩
        else if before = -more then ⟨m, .goto (.release held.address v), notes⟩
        else ⟨m, .done (.ok (some v)), notes⟩
  | release node v =>
    if m.nodes.isLiveAt node then
      ⟨{ m with nodes := m.nodes.release node }, .done (.ok (some v)), node.freed⟩
    else ⟨m, .fault (.node node), []⟩
  | giveBack held now =>
    match m.nodes.counted? held.address with
    | none => ⟨m, .fault (.node held.address), []⟩
    | some (_, _, before) =>
      ⟨{ m with nodes := m.nodes.updateAt held.address (·.setInternal (before - 1)) },
        .goto (if before = 1 then .releaseLate held.address now else .bump now),
        [.action (.countSub 1 before)]⟩
  | releaseLate node now =>
    if m.nodes.isLiveAt node then
      ⟨{ m with nodes := m.nodes.release node }, .goto (.bump now), node.freed⟩
    else ⟨m, .fault (.node node), []⟩

/-- Enough steps for a pop that nobody disturbs. -/
def patience : Nat := 24

end Pop

end LockFreeStack.Counted
