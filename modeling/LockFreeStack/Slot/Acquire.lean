import LockFreeStack.Slot.Release

/-!
How a thread comes by its claim on a table. It uses the live claim in its cache if there is one.
Otherwise it first lets go of the pinned claims on tables that nobody holds any more, and then
claims a record.
-/

namespace LockFreeStack.Acquire

/-- `prune i` looks at the `i`-th entry of the cache; `releasing` gives back the record of a claim
that pruning has let go, before its entry is forgotten. -/
inductive Point where
  | lookup
  | prune (i : Nat)
  | releasing (i : Nat) (place : Place) (p : Release.Point)
  | claiming (p : Claiming.Point)

def action : Point → Option ActionKind
  | .releasing _ _ p => Release.action p
  | _ => none

variable {α : Type}

/-- The next entry of the cache. A pinned one goes if its table has no handles left, an unpinned
one if its claim is dead. -/
def prune (ts : Tables) (me : Thread) (i : Nat) : Thread × Point :=
  match me.cache[i]? with
  | none => (me, .claiming Claiming.start)
  | some e =>
    match me.place? e.claim with
    | none => (me.forget i, .prune i)
    | some place =>
      if e.pinned then
        if ts.hasHandles place.table then (me, .prune (i + 1))
        else
          let (me', last) := (me.setPinned e.claim false).letGo e.claim
          if last then (me', .releasing i place .clear) else (me', .prune (i + 1))
      else if me.isLive e.claim then (me, .prune (i + 1))
      else (me.forget i, .prune i)

/-- One step towards the thread's claim on `table`, which comes with a reference of the caller's.
With `pin` the cache keeps it too. -/
def step (table : Nat) (pin : Bool) (m : Tables × Thread) :
    Point → Outcome (Tables × Thread) Point (Except Trouble Nat) α
  | .lookup =>
    let (ts, me) := m
    match me.claimOn? table with
    | some c => ⟨(ts, if pin then (me.keep c).pin c else me.keep c), .done (.ok c), []⟩
    | none => ⟨(ts, me), .goto (.prune 0), []⟩
  | .prune i =>
    let (ts, me) := m
    let (me', p) := prune ts me i
    ⟨(ts, me'), .goto p, []⟩
  | .releasing i place p =>
    let (ts, me) := m
    match Release.step ts place p with
    | ⟨ts', .goto q, notes⟩ => ⟨(ts', me), .goto (.releasing i place q), notes⟩
    | ⟨ts', .done (), notes⟩ => ⟨(ts', me.forget i), .goto (.prune i), notes⟩
    | ⟨ts', .fault f, notes⟩ => ⟨(ts', me), .fault f, notes⟩
  | .claiming p =>
    let (ts, me) := m
    match ts[table]? with
    | none => ⟨(ts, me), .done (.error (.failure (.exhausted 0))), []⟩
    | some t =>
      match Claiming.step t me.token p with
      | ⟨_, .goto q, notes⟩ => ⟨(ts, me), .goto (.claiming q), notes⟩
      | ⟨t', .done (.ok i), notes⟩ =>
        let c := me.claims.size
        let me' := me.enter ⟨table, i⟩
        ⟨(ts.setIfInBounds table t', if pin then me'.pin c else me'), .done (.ok c), notes⟩
      | ⟨_, .done (.error e), notes⟩ => ⟨(ts, me), .done (.error e), notes⟩
      | ⟨_, .fault f, notes⟩ => ⟨(ts, me), .fault f, notes⟩

/-- Enough steps for an acquisition that nobody disturbs. -/
def patience (ts : Tables) (me : Thread) (table : Nat) : Nat :=
  2 + 4 * me.cache.length + ((ts[table]?).map Claiming.patience).getD 1

end LockFreeStack.Acquire
