import LockFreeStack.Parking.Insert
import LockFreeStack.Table.Scan

/-!
A pass over a parked list. The pass detaches the whole list, takes one snapshot of the published
addresses, deletes the detached entries that are not among them and puts the others back in
reversed order.
-/

namespace LockFreeStack.Drain

/-- The part of a pass that walks the detached entries: the entry to look at, the chain of those
kept so far with their number, and the number of those deleted. -/
structure Walk where
  at? : Option Nat
  kept : Option Chain
  deferred : Nat
  reclaimed : Nat
  met : List Address

inductive Point where
  | detach
  | snapshot (first : Nat) (c : Scan.Collected)
  | walk (w : Walk)
  | delete (a : Address) (d : Deleter) (w : Walk)
  | settle (w : Walk)
  | restore (c : Chain) (p : Insert.Point) (deferred reclaimed : Nat)

def start : Point := .detach

def action : Point → Option ActionKind
  | .detach => some .listSwap
  | .restore _ p _ _ => Insert.action p
  | _ => none

variable {α : Type}

/-- The entry `e` with content `x` goes in front of the chain kept. -/
def keep (entries : Entries) (w : Walk) (e : Nat) (x : Entry) : Entries × Walk :=
  (entries.update e fun y => { y with next := w.kept.map Chain.first },
    { w with
      at? := x.next
      kept := some ⟨e, (w.kept.map Chain.last).getD e⟩
      deferred := w.deferred + 1 })

def step (t : Table) (m : Parking) : Point → Outcome Parking Point (Except Trouble Nat) α
  | .detach =>
    let ⟨entries, list⟩ := m
    match list.head with
    | none => ⟨⟨entries, list⟩, .done (.ok 0), [.action (.listSwap false)]⟩
    | some first =>
      ⟨⟨entries, { list with head := none }⟩, .goto (.snapshot first {}),
        [.action (.listSwap true)]⟩
  | .snapshot first c =>
    match Scan.collect t c with
    | .goto c' => ⟨m, .goto (.snapshot first c'), []⟩
    | .done met => ⟨m, .goto (.walk ⟨some first, none, 0, 0, met⟩), []⟩
    | .fault f => ⟨m, .fault f, []⟩
  | .walk w =>
    match w.at? with
    | none => ⟨m, .goto (.settle w), []⟩
    | some e =>
      match m.entries.get? e with
      | none => ⟨m, .fault (.entry e), []⟩
      | some x =>
        if x.next = some e then ⟨m, .done (.error (.panic (.selfLink e))), []⟩
        else if w.met.contains x.address then
          let ⟨entries, list⟩ := m
          let (entries, w) := keep entries w e x
          ⟨⟨entries, list⟩, .goto (.walk w), []⟩
        else
          let ⟨entries, list⟩ := m
          ⟨⟨entries.free e, list⟩,
            .goto (.delete x.address x.deleter
              { w with at? := x.next, reclaimed := w.reclaimed + 1 }), []⟩
  | .delete a d w => ⟨m, .goto (.walk w), [.deleted a d]⟩
  | .settle w =>
    let ⟨entries, list⟩ := m
    let m : Parking := ⟨entries, { list with pending := list.pending - .ofNat w.reclaimed }⟩
    match w.kept with
    | none => ⟨m, .done (.ok w.reclaimed), [.log (.pass w.reclaimed w.deferred)]⟩
    | some c => ⟨m, .goto (.restore c .load w.deferred w.reclaimed), []⟩
  | .restore c p deferred reclaimed =>
    match Insert.step c m p with
    | ⟨m', .goto q, notes⟩ => ⟨m', .goto (.restore c q deferred reclaimed), notes⟩
    | ⟨m', .done (), notes⟩ => ⟨m', .done (.ok reclaimed), notes ++ [.log (.pass reclaimed deferred)]⟩
    | ⟨m', .fault f, notes⟩ => ⟨m', .fault f, notes⟩

/-- Enough steps for a pass that nobody disturbs. -/
def patience (entries : Entries) (t : Table) : Nat := t.capacity + 2 * entries.size + 8

end LockFreeStack.Drain
