import LockFreeStack.Slot.Thread

/-!
Giving a record back: its address is cleared before its owner, so that the next owner never finds
an address that it did not publish.
-/

namespace LockFreeStack

/-- All tables. -/
abbrev Tables := Array Table

namespace Tables

def update (ts : Tables) (p : Place) (f : Record → Record) : Tables :=
  ts.modify p.table fun t => t.update p.index f

def publish (ts : Tables) (p : Place) (a : Address) : Tables :=
  ts.modify p.table fun t => t.publish p.index a

def setOwner (ts : Tables) (p : Place) (token : Nat) : Tables :=
  ts.modify p.table fun t => t.setOwner p.index token

def record? (ts : Tables) (p : Place) : Option Record :=
  match ts[p.table]? with
  | some t => t.records[p.index]?
  | none => none

def published (ts : Tables) (p : Place) : Address := ((ts.record? p).map Record.published).getD .null

def hasHandles (ts : Tables) (table : Nat) : Bool := ((ts[table]?).map Table.hasHandles).getD false

theorem record?_update (ts : Tables) (p : Place) (f : Record → Record) (q : Place) :
    (ts.update p f).record? q = if q = p then (ts.record? q).map f else ts.record? q := by
  obtain ⟨t, i⟩ := p
  obtain ⟨u, j⟩ := q
  simp only [update, record?, Array.getElem?_modify, Place.mk.injEq]
  by_cases h : t = u
  · subst h
    cases ts[t]? with
    | none => simp
    | some x =>
      by_cases hi : i = j
      · subst hi; simp [Table.record_update]
      · simp [Table.record_update, hi, Ne.symm hi]
  · simp [h, Ne.symm h]

theorem record?_publish (ts : Tables) (p : Place) (a : Address) (q : Place) :
    (ts.publish p a).record? q =
      if q = p then (ts.record? q).map fun r => { r with published := a } else ts.record? q :=
  ts.record?_update p _ q

theorem record?_setOwner (ts : Tables) (p : Place) (n : Nat) (q : Place) :
    (ts.setOwner p n).record? q =
      if q = p then (ts.record? q).map fun r => { r with owner := n } else ts.record? q :=
  ts.record?_update p _ q

end Tables

namespace Release

inductive Point where
  | clear
  | disown

def action : Point → Option ActionKind
  | .clear => some .hazardStore
  | .disown => none

variable {α : Type}

def step (ts : Tables) (p : Place) : Point → Outcome Tables Point Unit α
  | .clear => ⟨ts.publish p .null, .goto .disown, [.action (.hazardStore .null)]⟩
  | .disown => ⟨ts.setOwner p 0, .done (), [.log (.released p.index)]⟩

end Release

end LockFreeStack
