import LockFreeStack.Proofs.Hazard.Inheritance
import LockFreeStack.Proofs.Hazard.Seeking
import LockFreeStack.Teardown
import Mathlib.Data.Finset.Card

/-!
The threads together with the registry values that somebody holds and the stacks, which hold one each
until they are dropped. A table counts them all as its handles.
-/

namespace LockFreeStack

variable {α : Type} {m m' : Memory α} {ts ts' : Tables} {me : Thread} {p : Point α} {s t u : Nat}

namespace Memory

theorem deleteAll_eq (m : Memory α) (calls : List (Address × Deleter)) :
    (m.deleteAll calls).memory.tables = m.tables ∧ (m.deleteAll calls).memory.hazards = m.hazards := by
  induction calls generalizing m with
  | nil => exact ⟨rfl, rfl⟩
  | cons call rest ih =>
    obtain ⟨a, d⟩ := call
    simp only [deleteAll]
    split
    · obtain ⟨tables, hazards⟩ := ih (m.delete a d)
      exact ⟨tables.trans (by cases d <;> rfl), hazards.trans (by cases d <;> rfl)⟩
    · exact ⟨rfl, rfl⟩

/-- Apart from its nodes and its list, a stack that goes gives up its handle. -/
theorem dropHazard_eq (m : Memory α) (s : Nat) :
    (m.dropHazard s).1.tables = (m.dropHandle (m.hazard s).table).tables ∧
      (m.dropHazard s).1.hazards = (m.setHead s .null).hazards := by
  simp only [dropHazard, reclaimAll]
  constructor
  · simp only [dropHandle, (deleteAll_eq _ _).1]
    rfl
  · simp only [dropHandle, (deleteAll_eq _ _).2]
    rfl

theorem grows_dropHazard (m : Memory α) (s : Nat) : m.Grows (m.dropHazard s).1 := by
  have keeps : m.Keeps (m.setHead s .null) := ⟨rfl, .inr ⟨s, .null, rfl⟩⟩
  intro u hu
  have grows := keeps.grows u hu
  simpa only [hazard, (m.dropHazard_eq s).2] using grows

theorem table_addHandle (ht : t < m.tables.size) : ((m.addHandle t).table u).handles =
    if u = t then (m.table u).handles + 1 else (m.table u).handles := by
  simp only [table, addHandle, Array.getElem?_modify]
  by_cases h : t = u
  · subst h
    simp [ht]
  · simp [h, Ne.symm h]

theorem table_dropHandle (m : Memory α) (t u : Nat) : ((m.dropHandle t).table u).handles =
    if u = t then (m.table u).handles - 1 else (m.table u).handles := by
  simp only [table, dropHandle, Array.getElem?_modify]
  by_cases h : t = u
  · subst h
    cases m.tables[t]? <;> simp
  · simp [h, Ne.symm h]

theorem table_addTable (m : Memory α) (tb : Table) (u : Nat) :
    ((m.addTable tb).table u).handles = if u = m.tables.size then tb.handles else (m.table u).handles := by
  simp only [table, addTable, Array.getElem?_push]
  split <;> rfl

theorem hasHandles_iff (m : Memory α) (t : Nat) : m.tables.hasHandles t ↔ (m.table t).handles ≠ 0 := by
  simp only [Tables.hasHandles, table]
  cases m.tables[t]? <;> simp [Table.hasHandles]

theorem lt_size_of_handles (h : (m.table t).handles ≠ 0) : t < m.tables.size := by
  by_contra hge
  simp [table, Array.getElem?_eq_none (Nat.le_of_not_lt hge)] at h

end Memory

/-- No step of a thread changes a number of handles. -/
theorem Stores.handles (h : Stores me p ts ts') (t : Nat) :
    (ts'[t]?).map Table.handles = (ts[t]?).map Table.handles := by
  have keep (u : Nat) (f : Table → Table) (hf : ∀ tb, (f tb).handles = tb.handles) :
      ((ts.modify u f)[t]?).map Table.handles = (ts[t]?).map Table.handles := by
    rw [Array.getElem?_modify]
    split
    · cases ts[t]? <;> simp [hf]
    · rfl
  cases h with
  | same => rfl
  | store place a => exact keep _ _ fun _ => rfl
  | disown place => exact keep _ _ fun _ => rfl
  | seize t k => exact keep _ _ fun _ => rfl

theorem Memory.handles_eq {m m' : Memory α}
    (h : (m'.tables[t]?).map Table.handles = (m.tables[t]?).map Table.handles) :
    (m'.table t).handles = (m.table t).handles := by
  simp only [table]
  cases ht : m'.tables[t]? <;> cases ht' : m.tables[t]? <;> simp_all

theorem Memory.Keeps.stacks (k : m.Keeps m') :
    m'.hazards.size = m.hazards.size ∧ ∀ s, (m'.hazard s).table = (m.hazard s).table := by
  obtain h | ⟨u, a, h⟩ := k.hazards
  · exact ⟨congrArg Array.size h, fun s => by rw [hazard, hazard, h]⟩
  · refine ⟨by rw [h]; simp [setHead], fun s => ?_⟩
    simp only [hazard, h, setHead, Array.getElem?_modify]
    split
    · cases m.hazards[s]? <;> rfl
    · rfl

namespace Hazard

/-- The threads, the number of registry values on each table that somebody holds outside the stacks, and
the stacks that are gone. -/
structure Estate (α : Type) where
  crowd : Crowd α
  held : Nat → Nat
  gone : Finset Nat

/-- What happens to an estate. That a handle is cloned or dropped and that a stack is made are moves too. -/
inductive Occurrence (α : Type) where
  | move (mv : Move α)
  | dropStack (s : Nat)

/-- The stacks on a table that are not gone. -/
def stacksOn (m : Memory α) (gone : Finset Nat) (t : Nat) : Finset Nat :=
  (Finset.range m.hazards.size).filter fun s => s ∉ gone ∧ (m.hazard s).table = t

theorem stacksOn_congr (k : m.Keeps m') {gone : Finset Nat} : stacksOn m' gone t = stacksOn m gone t := by
  simp only [stacksOn, k.stacks.1, k.stacks.2]

/-- What a thread does leaves the handles alone. -/
theorem Crowd.handles_turn {x y : Crowd α} {mv : Move α} (moves : x.Moves mv y) (turn : ∀ c, mv ≠ .change c)
    (t : Nat) : (y.memory.table t).handles = (x.memory.table t).handles := by
  cases moves with
  | stay | call => rfl
  | step i c p busy => exact Memory.handles_eq ((Operation.stores_step x.memory (x.me i) p).handles t)
  | miss i c p q m busy missed => simp only [set, Memory.table, tables_miss missed]
  | change c => exact absurd rfl (turn c)

theorem Crowd.Orderly.stacksOn_turn {x y : Crowd α} {mv : Move α} (o : x.Orderly) (moves : x.Moves mv y)
    (turn : ∀ c, mv ≠ .change c) (gone : Finset Nat) (t : Nat) :
    stacksOn y.memory gone t = stacksOn x.memory gone t := by
  cases moves with
  | stay | call => rfl
  | step i c p busy =>
    have fitting := (o.seated_of_busy busy).fitting p rfl
    exact stacksOn_congr (Operation.keeps_step x.memory (x.me i) p fitting)
  | miss i c p q m busy missed => exact stacksOn_congr (Point.keeps_miss missed)
  | change c => exact absurd rfl (turn c)

theorem record?_dropHazard (m : Memory α) (s : Nat) (place : Place) :
    (m.dropHazard s).1.tables.record? place = m.tables.record? place := by
  rw [(m.dropHazard_eq s).1]
  exact record?_setHandles m.tables _ (· - 1) place

namespace Estate

def start : Estate α := ⟨.start, fun _ => 0, ∅⟩

/-- How many hold a registry value on the table. -/
def owners (e : Estate α) (t : Nat) : Nat := e.held t + (stacksOn e.crowd.memory e.gone t).card

/-- Nobody clones a registry without having it, or drops what is not held, or uses a stack that is gone. -/
def allows (e : Estate α) : Move α → Bool
  | .call _ c => c.stack?.all (· ∉ e.gone)
  | .change (.handle t) | .change (.stack t) => e.owners t ≠ 0
  | .change (.unhandle t) => e.held t ≠ 0
  | _ => true

def heldAfter (e : Estate α) : Move α → Nat → Nat
  | .change (.registry capacity) =>
    let t := e.crowd.memory.tables.size
    if capacity = 0 then e.held else Function.update e.held t (e.held t + 1)
  | .change (.handle t) => Function.update e.held t (e.held t + 1)
  | .change (.unhandle t) => Function.update e.held t (e.held t - 1)
  | _ => e.held

def occur (e : Estate α) : Occurrence α → Estate α
  | .move mv => if e.allows mv then ⟨e.crowd.move mv, e.heldAfter mv, e.gone⟩ else e
  | .dropStack s =>
    if s < e.crowd.memory.hazards.size ∧ s ∉ e.gone then
      ⟨{ e.crowd with memory := (e.crowd.memory.dropHazard s).1 }, e.held, insert s e.gone⟩
    else e

/-- The estate after some occurrences. -/
def after (os : List (Occurrence α)) : Estate α := os.foldl occur start

theorem after_append_singleton (os : List (Occurrence α)) (o : Occurrence α) :
    after (os ++ [o]) = (after os).occur o :=
  List.foldl_append

variable {e : Estate α} {mv : Move α} {gone : Finset Nat}

/-- An invariant of the estate. Each handle that a table counts is somebody's. -/
structure Regular (e : Estate α) : Prop where
  orderly : e.crowd.Orderly
  clean : e.crowd.Clean
  seeking : e.crowd.Seeking
  handles : ∀ t, (e.crowd.memory.table t).handles = e.owners t
  gone : ∀ s ∈ e.gone, s < e.crowd.memory.hazards.size

namespace Regular

theorem start : (start : Estate α).Regular :=
  ⟨.start, .start, .start,
    fun t => by simp [Estate.start, Crowd.start, Memory.empty, Memory.table, owners, stacksOn],
    fun s hs => by cases hs⟩

theorem lt_size (g : e.Regular) (h : e.owners t ≠ 0) : t < e.crowd.memory.tables.size :=
  Memory.lt_size_of_handles (g.handles t ▸ h)

/-- A new stack comes with a handle of its own. -/
theorem stacksOn_addHazard (g : e.Regular) (m : Memory α)
    (hazards : m.hazards = e.crowd.memory.hazards) (t u : Nat) :
    (stacksOn (m.addHazard t) e.gone u).card =
      (stacksOn e.crowd.memory e.gone u).card + if u = t then 1 else 0 := by
  have size : (m.addHazard t).hazards.size = e.crowd.memory.hazards.size + 1 := by
    simp [Memory.addHazard, Memory.addList, hazards]
  have table (s : Nat) : ((m.addHazard t).hazard s).table =
      if s = e.crowd.memory.hazards.size then t else (e.crowd.memory.hazard s).table := by
    simp only [Memory.hazard, Memory.addHazard, Memory.addList, hazards, Array.getElem?_push]
    split <;> rfl
  have old : (Finset.range e.crowd.memory.hazards.size).filter
      (fun s => s ∉ e.gone ∧ ((m.addHazard t).hazard s).table = u) = stacksOn e.crowd.memory e.gone u :=
    Finset.filter_congr fun s hs => by rw [table, if_neg (Finset.mem_range.mp hs).ne]
  have fresh : e.crowd.memory.hazards.size ∉ e.gone := fun h => Nat.lt_irrefl _ (g.gone _ h)
  rw [stacksOn, size, Finset.range_add_one, Finset.filter_insert, old, table, if_pos rfl]
  by_cases h : t = u
  · rw [if_pos ⟨fresh, h⟩, if_pos h.symm, Finset.card_insert_of_notMem]
    simp [stacksOn]
  · rw [if_neg fun hp => h hp.2, if_neg (Ne.symm h), Nat.add_zero]

theorem handles_change (g : e.Regular) (c : Change) (h : e.allows (.change c)) (u : Nat) :
    ((c.apply e.crowd.memory).table u).handles =
      e.heldAfter (.change c) u + (stacksOn (c.apply e.crowd.memory) e.gone u).card := by
  have before := g.handles u
  unfold owners at before
  cases c with
  | registry capacity =>
    by_cases hc : capacity = 0
    · simpa only [Change.apply, Table.new, hc, ↓reduceIte, heldAfter] using before
    · simp only [Change.apply, Table.new, hc, ↓reduceIte, heldAfter, Memory.table_addTable, Function.update_apply]
      have same : stacksOn (e.crowd.memory.addTable ⟨Array.replicate capacity {}, 1⟩) e.gone u =
          stacksOn e.crowd.memory e.gone u := rfl
      rw [same]
      by_cases hu : u = e.crowd.memory.tables.size
      · have none : (e.crowd.memory.table u).handles = 0 :=
          not_not.mp fun h => absurd (Memory.lt_size_of_handles h) (by omega)
        rw [if_pos hu, if_pos hu, ← hu]
        omega
      · rw [if_neg hu, if_neg hu]
        exact before
  | handle t =>
    have ht := g.lt_size (of_decide_eq_true h)
    have same : stacksOn (e.crowd.memory.addHandle t) e.gone u = stacksOn e.crowd.memory e.gone u := rfl
    simp only [Change.apply, heldAfter, Memory.table_addHandle ht, same, Function.update_apply]
    split
    · subst t
      omega
    · exact before
  | unhandle t =>
    have held : e.held t ≠ 0 := of_decide_eq_true h
    have same : stacksOn (e.crowd.memory.dropHandle t) e.gone u = stacksOn e.crowd.memory e.gone u := rfl
    simp only [Change.apply, heldAfter, Memory.table_dropHandle, same, Function.update_apply]
    split
    · subst t
      omega
    · exact before
  | stack t =>
    have ht := g.lt_size (of_decide_eq_true h)
    simp only [Change.apply, ht, ↓reduceIte, heldAfter]
    rw [g.stacksOn_addHazard (e.crowd.memory.addHandle t) rfl]
    show ((e.crowd.memory.addHandle t).table u).handles = _
    rw [Memory.table_addHandle ht]
    split <;> omega
  | recycleNode k | recycleEntry k => exact before

theorem handles_move (g : e.Regular) (h : e.allows mv) (u : Nat) :
    ((e.crowd.move mv).memory.table u).handles =
      e.heldAfter mv u + (stacksOn (e.crowd.move mv).memory e.gone u).card := by
  cases mv with
  | change c => exact g.handles_change c h u
  | _ =>
    rw [Crowd.handles_turn (e.crowd.moves _) (fun c h => by cases h), g.handles, owners,
      g.orderly.stacksOn_turn (e.crowd.moves _) (fun c h => by cases h)]
    rfl

theorem move (g : e.Regular) (h : e.allows mv) : Regular ⟨e.crowd.move mv, e.heldAfter mv, e.gone⟩ :=
  ⟨g.orderly.move mv, g.clean.move g.orderly mv, g.seeking.move g.orderly mv, g.handles_move h,
    fun s hs => (Crowd.grows_move g.orderly mv s (g.gone s hs)).1⟩

theorem dropStack (g : e.Regular) (hs : s < e.crowd.memory.hazards.size) (there : s ∉ e.gone) :
    Regular ⟨{ e.crowd with memory := (e.crowd.memory.dropHazard s).1 }, e.held, insert s e.gone⟩ := by
  obtain ⟨tables, hazards⟩ := e.crowd.memory.dropHazard_eq s
  have record := record?_dropHazard e.crowd.memory s
  have keeps : e.crowd.memory.Keeps (e.crowd.memory.setHead s .null) := ⟨rfl, .inr ⟨s, .null, rfl⟩⟩
  have size : (e.crowd.memory.dropHazard s).1.hazards.size = e.crowd.memory.hazards.size := by
    rw [hazards]
    exact keeps.stacks.1
  have table (u : Nat) : ((e.crowd.memory.dropHazard s).1.hazard u).table = (e.crowd.memory.hazard u).table := by
    rw [← keeps.stacks.2 u, Memory.hazard, Memory.hazard, hazards]
  have handles (u : Nat) : ((e.crowd.memory.dropHazard s).1.table u).handles =
      if u = (e.crowd.memory.hazard s).table then (e.crowd.memory.table u).handles - 1
      else (e.crowd.memory.table u).handles := by
    rw [← Memory.table_dropHandle, Memory.table, Memory.table, tables]
  have leaves : e.crowd.memory.tables.Leaves (e.crowd.memory.dropHazard s).1.tables 0 :=
    fun place r _ _ => by rw [record]
  refine ⟨⟨g.orderly.token, fun i => (g.orderly.seated i).other leaves ?_ ?_⟩,
    ⟨fun place r hr => g.clean.vacant place r (record place ▸ hr),
      fun i place r hd hr => g.clean.leaving i place r hd (record place ▸ hr)⟩,
    g.seeking.grow (e.crowd.memory.grows_dropHazard s) ?_ fun u hu hlt => ?_, fun u => ?handles, fun u hu => ?gone⟩
  · exact (g.orderly.token i).trans_ne (Nat.succ_ne_zero i)
  · exact (g.orderly.token i).trans_ne (Nat.succ_ne_zero i)
  · rw [tables]
    exact Array.size_modify.ge
  · omega
  case handles =>
    have before := g.handles u
    simp only [owners] at before ⊢
    rw [handles]
    have same : stacksOn (e.crowd.memory.dropHazard s).1 (insert s e.gone) u =
        (stacksOn e.crowd.memory e.gone u).erase s := by
      ext v
      simp only [stacksOn, size, table, Finset.mem_filter, Finset.mem_range, Finset.mem_insert, Finset.mem_erase]
      tauto
    rw [same]
    by_cases hu : u = (e.crowd.memory.hazard s).table
    · have mem : s ∈ stacksOn e.crowd.memory e.gone u :=
        Finset.mem_filter.mpr ⟨Finset.mem_range.mpr hs, there, hu.symm⟩
      have pos := Finset.card_pos.mpr ⟨s, mem⟩
      rw [if_pos hu, Finset.card_erase_of_mem mem]
      omega
    · have none : s ∉ stacksOn e.crowd.memory e.gone u := fun h => hu (Finset.mem_filter.mp h).2.2.symm
      rw [if_neg hu, Finset.erase_eq_of_notMem none]
      exact before
  case gone =>
    rw [size]
    obtain rfl | hu := Finset.mem_insert.mp hu
    · exact hs
    · exact g.gone u hu

/-- The last handle is never followed by another one. -/
theorem ownerless (g : e.Regular) (ht : t < e.crowd.memory.tables.size) (h : e.owners t = 0) (mv : Move α)
    (allowed : e.allows mv) : ((e.crowd.move mv).memory.table t).handles = 0 := by
  have before := g.handles t
  cases mv with
  | change c =>
    cases c with
    | registry capacity =>
      by_cases hc : capacity = 0
      · simpa only [Crowd.move, Change.apply, Table.new, hc, ↓reduceIte] using before.trans h
      · simp only [Crowd.move, Change.apply, Table.new, hc, ↓reduceIte, Memory.table_addTable, ht.ne]
        exact before.trans h
    | handle u =>
      have hu : e.owners u ≠ 0 := of_decide_eq_true allowed
      simp only [Crowd.move, Change.apply, Memory.table_addHandle (g.lt_size hu)]
      rw [if_neg (by rintro rfl; exact hu h), before, h]
    | unhandle u =>
      simp only [Crowd.move, Change.apply, Memory.table_dropHandle]
      split <;> omega
    | stack u =>
      have hu : e.owners u ≠ 0 := of_decide_eq_true allowed
      simp only [Crowd.move, Change.apply, g.lt_size hu, ↓reduceIte]
      show ((e.crowd.memory.addHandle u).table t).handles = 0
      rw [Memory.table_addHandle (g.lt_size hu), if_neg (by rintro rfl; exact hu h), before, h]
    | recycleNode k | recycleEntry k => exact before.trans h
  | _ => rw [Crowd.handles_turn (e.crowd.moves _) (fun c h => by cases h), before, h]

theorem occur (g : e.Regular) (o : Occurrence α) : (e.occur o).Regular := by
  cases o with
  | move mv =>
    simp only [Estate.occur]
    split
    · rename_i h
      exact g.move h
    · exact g
  | dropStack s =>
    simp only [Estate.occur]
    split
    · rename_i h
      exact g.dropStack h.1 h.2
    · exact g

theorem owners_occur (g : e.Regular) (ht : t < e.crowd.memory.tables.size) (h : e.owners t = 0)
    (o : Occurrence α) : (e.occur o).owners t = 0 ∧ t < (e.occur o).crowd.memory.tables.size := by
  have later := (g.occur o).handles t
  cases o with
  | move mv =>
    simp only [Estate.occur] at later ⊢
    split at later
    · rename_i allowed
      rw [if_pos allowed]
      exact ⟨later.symm.trans (g.ownerless ht h mv allowed), ht.trans_le (Crowd.size_le_move e.crowd mv)⟩
    · rename_i refused
      rw [if_neg refused]
      exact ⟨h, ht⟩
  | dropStack s =>
    simp only [Estate.occur] at later ⊢
    split at later
    · rename_i there
      rw [if_pos there]
      have tables := (e.crowd.memory.dropHazard_eq s).1
      refine ⟨later.symm.trans ?_, by rw [tables]; exact ht.trans_le Array.size_modify.ge⟩
      have before := g.handles t
      have dropped := e.crowd.memory.table_dropHandle (e.crowd.memory.hazard s).table t
      rw [Memory.table, tables, ← Memory.table, dropped]
      split <;> omega
    · rename_i kept
      rw [if_neg kept]
      exact ⟨h, ht⟩

end Regular

theorem regular_after (os : List (Occurrence α)) : (after os).Regular := by
  induction os using List.reverseRecOn with
  | nil => exact .start
  | append_singleton os o ih => exact after_append_singleton os o ▸ ih.occur o

end Estate

end Hazard

end LockFreeStack
