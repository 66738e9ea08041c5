import LockFreeStack.Event

/-!
Memory obtained piece by piece. A piece is known by the number of its place. New places are given
out in order; a released one stays recognisable as released, so that a late access to it can be
told from a good one, until the allocator decides to give that place out again.
-/

namespace LockFreeStack

structure Heap.Piece (β : Type) where
  content : β
  live : Bool

/-- `spare` is the place that the allocator means to give out next, if it is a released one. -/
structure Heap (β : Type) where
  pieces : Array (Heap.Piece β)
  spare : Option Nat

namespace Heap

variable {β : Type}

def empty : Heap β := ⟨#[], none⟩

/-- The number of places ever given out. -/
def size (h : Heap β) : Nat := h.pieces.size

def isReleased (h : Heap β) (k : Nat) : Bool :=
  match h.pieces[k]? with
  | some p => !p.live
  | none => false

/-- The place of the next piece: the spare one if it is released, and a new one otherwise. -/
def next (h : Heap β) : Nat :=
  match h.spare with
  | some k => if h.isReleased k then k else h.size
  | none => h.size

def alloc (h : Heap β) (x : β) : Heap β :=
  let k := h.next
  let ⟨pieces, _⟩ := h
  if k < pieces.size then ⟨pieces.setIfInBounds k ⟨x, true⟩, none⟩
  else ⟨pieces.push ⟨x, true⟩, none⟩

/-- The allocator chooses the place that it gives out next. -/
def recycle (h : Heap β) (k : Nat) : Heap β := { h with spare := some k }

/-- The content of a live piece. -/
def get? (h : Heap β) (k : Nat) : Option β :=
  match h.pieces[k]? with
  | some ⟨x, true⟩ => some x
  | _ => none

def update (h : Heap β) (k : Nat) (f : β → β) : Heap β :=
  let ⟨pieces, spare⟩ := h
  ⟨pieces.modify k fun p => { p with content := f p.content }, spare⟩

def free (h : Heap β) (k : Nat) : Heap β :=
  let ⟨pieces, spare⟩ := h
  ⟨pieces.modify k fun p => { p with live := false }, spare⟩

@[simp] theorem get?_recycle (h : Heap β) (j k : Nat) : (h.recycle j).get? k = h.get? k := rfl

theorem get?_eq_none_of_isReleased (h : Heap β) {k : Nat} (hk : h.isReleased k) :
    h.get? k = none := by
  unfold isReleased at hk
  unfold get?
  cases hp : h.pieces[k]? with
  | none => rfl
  | some p => rcases p with ⟨x, _ | _⟩ <;> simp_all

theorem next_cases (h : Heap β) : h.isReleased h.next ∨ h.next = h.size := by
  unfold next
  split
  · split <;> simp_all
  · simp

theorem get?_next (h : Heap β) : h.get? h.next = none := by
  rcases h.next_cases with hk | hk
  · exact h.get?_eq_none_of_isReleased hk
  · simp [hk, get?, size]

theorem lt_size_of_isSome {h : Heap β} {k : Nat} (hk : (h.get? k).isSome) : k < h.size := by
  unfold get? at hk
  apply Nat.lt_of_not_le
  intro hle
  rw [Array.getElem?_eq_none hle] at hk
  cases hk

theorem next_le_size (h : Heap β) : h.next ≤ h.size := by
  rcases h.next_cases with hk | hk
  · unfold isReleased at hk
    unfold size
    grind
  · exact Nat.le_of_eq hk

theorem pieces_alloc (h : Heap β) (x : β) (k : Nat) :
    (h.alloc x).pieces[k]? = if k = h.next then some ⟨x, true⟩ else h.pieces[k]? := by
  have hle := h.next_le_size
  by_cases hlt : h.next < h.pieces.size
  · simp only [alloc, hlt, ↓reduceIte, Array.getElem?_setIfInBounds]
    by_cases hk : k = h.next <;> simp [hk, eq_comm (a := h.next)]
  · have hn : h.next = h.pieces.size := Nat.le_antisymm hle (Nat.le_of_not_lt hlt)
    simp [alloc, hn, Array.getElem?_push]

theorem get?_alloc (h : Heap β) (x : β) (k : Nat) :
    (h.alloc x).get? k = if k = h.next then some x else h.get? k := by
  unfold get?
  rw [pieces_alloc]
  by_cases hk : k = h.next <;> simp [hk]

theorem get?_update (h : Heap β) (k : Nat) (f : β → β) (j : Nat) :
    (h.update k f).get? j = if j = k then (h.get? k).map f else h.get? j := by
  unfold get? update
  simp only [Array.getElem?_modify]
  by_cases hj : j = k
  · subst hj
    rcases h.pieces[j]? with _ | ⟨x, _ | _⟩ <;> simp
  · simp [hj, Ne.symm hj]

theorem get?_free (h : Heap β) (k j : Nat) :
    (h.free k).get? j = if j = k then none else h.get? j := by
  unfold get? free
  simp only [Array.getElem?_modify]
  by_cases hj : j = k
  · subst hj
    rcases h.pieces[j]? with _ | ⟨x, _ | _⟩ <;> simp
  · simp [hj, Ne.symm hj]

end Heap

/-- What a piece of node memory holds: a node of a hazard stack with the link to the node below, a
node of a counted stack with its link and its internal count, or a boxed value. -/
inductive Object (α : Type) where
  | plain (value : α) (next : Address)
  | counted (value : α) (next : Pair Address) (internal : Int64)
  | boxed (value : α)

namespace Object

variable {α : Type}

def value : Object α → α
  | plain v _ => v
  | counted v _ _ => v
  | boxed v => v

def setLink (next : Address) : Object α → Object α
  | plain v _ => plain v next
  | o => o

def setPair (next : Pair Address) : Object α → Object α
  | counted v _ i => counted v next i
  | o => o

def setInternal (i : Int64) : Object α → Object α
  | counted v next _ => counted v next i
  | o => o

end Object

/-- The memory of all nodes. -/
abbrev Nodes (α : Type) := Heap (Object α)

namespace Nodes

variable {α : Type}

/-- The live object at an address. -/
def at? (h : Nodes α) : Address → Option (Object α)
  | .node k => h.get? k
  | _ => none

/-- Value and link of the hazard stack's node at an address. -/
def plain? (h : Nodes α) (a : Address) : Option (α × Address) :=
  match h.at? a with
  | some (.plain v next) => some (v, next)
  | _ => none

/-- Value, link and internal count of the counted stack's node at an address. -/
def counted? (h : Nodes α) (a : Address) : Option (α × Pair Address × Int64) :=
  match h.at? a with
  | some (.counted v next i) => some (v, next, i)
  | _ => none

def boxed? (h : Nodes α) (a : Address) : Option α :=
  match h.at? a with
  | some (.boxed v) => some v
  | _ => none

def updateAt (h : Nodes α) (a : Address) (f : Object α → Object α) : Nodes α :=
  match a with
  | .node k => h.update k f
  | _ => h

def isLiveAt (h : Nodes α) (a : Address) : Bool := (h.at? a).isSome

/-- Gives the memory of a node back. -/
def release (h : Nodes α) (a : Address) : Nodes α :=
  match a with
  | .node k => h.free k
  | _ => h

theorem at?_alloc (h : Nodes α) (x : Object α) (a : Address) :
    Nodes.at? (h.alloc x) a = if a = .node h.next then some x else h.at? a := by
  cases a <;> simp [at?, Heap.get?_alloc]

theorem at?_updateAt (h : Nodes α) (a : Address) (f : Object α → Object α) (b : Address) :
    (h.updateAt a f).at? b = if b = a then (h.at? a).map f else h.at? b := by
  cases a <;> cases b <;> simp [at?, updateAt, Heap.get?_update]

theorem at?_release (h : Nodes α) (a b : Address) :
    (h.release a).at? b = if b = a then none else h.at? b := by
  cases a <;> cases b <;> simp [at?, release, Heap.get?_free]

theorem at?_recycle (h : Nodes α) (k : Nat) (a : Address) :
    Nodes.at? (h.recycle k) a = h.at? a := by
  cases a <;> rfl

theorem at?_next (h : Nodes α) : h.at? (.node h.next) = none := h.get?_next

section Plain

theorem plain?_next (h : Nodes α) : h.plain? (.node h.next) = none := by
  simp [plain?, at?_next]

theorem plain?_alloc (h : Nodes α) (v : α) (next a : Address) :
    Nodes.plain? (h.alloc (.plain v next)) a =
      if a = .node h.next then some (v, next) else h.plain? a := by
  unfold plain?
  rw [at?_alloc]
  by_cases ha : a = .node h.next <;> simp [ha]

theorem plain?_setLink (h : Nodes α) (a next b : Address) :
    (h.updateAt a (·.setLink next)).plain? b =
      if b = a then (h.plain? a).map fun x => (x.1, next) else h.plain? b := by
  unfold plain?
  rw [at?_updateAt]
  by_cases hb : b = a
  · subst hb
    rcases h.at? b with _ | o
    · simp
    · cases o <;> simp [Object.setLink]
  · simp [hb]

theorem plain?_release (h : Nodes α) (a b : Address) :
    (h.release a).plain? b = if b = a then none else h.plain? b := by
  unfold plain?
  rw [at?_release]
  by_cases hb : b = a <;> simp [hb]

theorem plain?_recycle (h : Nodes α) (k : Nat) (a : Address) :
    Nodes.plain? (h.recycle k) a = h.plain? a := by
  unfold plain?
  rw [at?_recycle]

theorem isLiveAt_of_plain? {h : Nodes α} {a : Address} {x : α × Address}
    (hx : h.plain? a = some x) : h.isLiveAt a := by
  unfold plain? at hx
  unfold isLiveAt
  split at hx <;> simp_all

end Plain

section Counted

theorem counted?_next (h : Nodes α) : h.counted? (.node h.next) = none := by
  simp [counted?, at?_next]

theorem counted?_alloc (h : Nodes α) (v : α) (next : Pair Address) (i : Int64) (a : Address) :
    Nodes.counted? (h.alloc (.counted v next i)) a =
      if a = .node h.next then some (v, next, i) else h.counted? a := by
  unfold counted?
  rw [at?_alloc]
  by_cases ha : a = .node h.next <;> simp [ha]

theorem counted?_setPair (h : Nodes α) (a : Address) (next : Pair Address) (b : Address) :
    (h.updateAt a (·.setPair next)).counted? b =
      if b = a then (h.counted? a).map fun x => (x.1, next, x.2.2) else h.counted? b := by
  unfold counted?
  rw [at?_updateAt]
  by_cases hb : b = a
  · subst hb
    rcases h.at? b with _ | o
    · simp
    · cases o <;> simp [Object.setPair]
  · simp [hb]

theorem counted?_setInternal (h : Nodes α) (a : Address) (i : Int64) (b : Address) :
    (h.updateAt a (·.setInternal i)).counted? b =
      if b = a then (h.counted? a).map fun x => (x.1, x.2.1, i) else h.counted? b := by
  unfold counted?
  rw [at?_updateAt]
  by_cases hb : b = a
  · subst hb
    rcases h.at? b with _ | o
    · simp
    · cases o <;> simp [Object.setInternal]
  · simp [hb]

theorem counted?_release (h : Nodes α) (a b : Address) :
    (h.release a).counted? b = if b = a then none else h.counted? b := by
  unfold counted?
  rw [at?_release]
  by_cases hb : b = a <;> simp [hb]

theorem counted?_recycle (h : Nodes α) (k : Nat) (a : Address) :
    Nodes.counted? (h.recycle k) a = h.counted? a := by
  unfold counted?
  rw [at?_recycle]

theorem isLiveAt_of_counted? {h : Nodes α} {a : Address} {x : α × Pair Address × Int64}
    (hx : h.counted? a = some x) : h.isLiveAt a := by
  unfold counted? at hx
  unfold isLiveAt
  split at hx <;> simp_all

end Counted

end Nodes

/-- The note of the release of a node. -/
def Address.freed {α : Type} : Address → List (Note α)
  | .node k => [.freed k]
  | _ => []

end LockFreeStack
