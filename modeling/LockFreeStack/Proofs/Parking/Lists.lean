import LockFreeStack.Proofs.Parking.Stored
import Mathlib.Data.List.Perm.Subperm
import Mathlib.Data.List.Range

/-!
Stored entries written out as lists: those on each parked list, and those in the hands of each
thread.
-/

namespace LockFreeStack

namespace Entries

variable {h : Entries} {o : Option Nat} {P : Nat → Prop} {c : Chain} {kept : Option Chain} {hd : Hand}

/-- The entries `es` are strung on a chain, with whatever behind its last one. -/
def Strings (h : Entries) (kept : Option Chain) (es : List Nat) : Prop :=
  match kept with
  | none => es = []
  | some c => (∃ d, Path h.follow (some c.first) (es.map some) d) ∧ es.getLast? = some c.last

/-- The entries `es` are those in a hand: first those to look at, then those that go back. -/
def Fills (h : Entries) (hd : Hand) (es : List Nat) : Prop :=
  ∃ due kept, es = due ++ kept ∧ Path h.follow hd.due (due.map some) none ∧ h.Strings hd.kept kept

theorem exists_map_some {l : List (Option Nat)} (h : none ∉ l) : ∃ es : List Nat, l = es.map some := by
  induction l with
  | nil => exact ⟨[], rfl⟩
  | cons o l ih =>
    obtain ⟨es, rfl⟩ := ih fun hn => h (by simp [hn])
    cases o with
    | none => simp at h
    | some e => exact ⟨e :: es, rfl⟩

theorem Chained.exists_list (k : h.Chained o P) :
    ∃ es : List Nat, Path h.follow o (es.map some) none ∧ es.Nodup ∧ ∀ e, e ∈ es ↔ P e := by
  obtain ⟨l, p, mem⟩ := k
  obtain ⟨es, rfl⟩ := exists_map_some (none_notMem p)
  exact ⟨es, p, List.Nodup.of_map some (p.nodup rfl), fun e => by simpa using mem e⟩

theorem Strung.exists_list (k : h.Strung kept P) :
    ∃ es : List Nat, h.Strings kept es ∧ es.Nodup ∧ ∀ e, e ∈ es ↔ P e := by
  cases kept with
  | none => exact ⟨[], rfl, .nil, fun e => by simpa using k e⟩
  | some c =>
    obtain ⟨l, d, p, nodup, last, mem⟩ := k
    obtain ⟨es, rfl⟩ := exists_map_some (none_notMem p)
    refine ⟨es, ⟨⟨d, p⟩, ?_⟩, List.Nodup.of_map some nodup, fun e => by simpa using mem e⟩
    simpa using last

theorem eq_nil_of_path {es : List Nat} (p : Path h.follow none (es.map some) none) : es = [] :=
  List.map_eq_nil_iff.mp (p.of_end rfl).1

/-- A way to the end leads through no more entries than there are places. -/
theorem length_le_size {es : List Nat} (p : Path h.follow o (es.map some) none) : es.length ≤ h.size := by
  have nodup : es.Nodup := .of_map some (p.nodup rfl)
  have sub : es ⊆ List.range h.size := fun e he => by
    have hlive : (h.follow (some e)).isSome := p.isSome_of_mem (by simpa using he)
    rw [List.mem_range]
    exact Heap.lt_size_of_isSome (by simpa [follow] using hlive)
  simpa using (nodup.subperm sub).length_le

theorem Strings.eq_singleton {es : List Nat} (s : h.Strings (some c) es) (nodup : es.Nodup)
    (single : c.first = c.last) : es = [c.first] := by
  obtain ⟨⟨d, p⟩, last⟩ := s
  obtain _ | ⟨e, es⟩ := es
  · simp at last
  obtain rfl : c.first = e := by
    obtain _ | _ := p
    rfl
  obtain _ | ⟨f, es⟩ := es
  · rfl
  · have hmem : c.last ∈ f :: es := List.mem_of_getLast? (by simpa using last)
    exact ((List.nodup_cons.mp nodup).1 (single ▸ hmem)).elim

namespace Fills

variable {es : List Nat}

theorem eq_nil (f : h.Fills {} es) : es = [] := by
  obtain ⟨due, kept, rfl, path, rfl⟩ := f
  simp [eq_nil_of_path path]

theorem eq_singleton {l : Nat} (f : h.Fills ⟨l, none, some c⟩ es) (nodup : es.Nodup)
    (single : c.first = c.last) : es = [c.first] := by
  obtain ⟨due, kept, rfl, path, strings⟩ := f
  obtain rfl := eq_nil_of_path path
  exact strings.eq_singleton nodup single

end Fills

end Entries

open Entries

/-- `linked` has the entries on each list, and `held` those in the hands of each thread. -/
structure Stored.Lists (h : Entries) (first : Nat → Option Nat) (hand : Nat → Hand)
    (keeper : Nat → Keeper) (linked held : Nat → List Nat) : Prop where
  path : ∀ s, Path h.follow (first s) ((linked s).map some) none
  fills : ∀ i, h.Fills (hand i) (held i)
  linked_nodup : ∀ s, (linked s).Nodup
  held_nodup : ∀ i, (held i).Nodup
  mem_linked : ∀ {s e}, e ∈ linked s ↔ keeper e = .listed s
  mem_held : ∀ {i e}, e ∈ held i ↔ ∃ s, keeper e = .due s i ∨ keeper e = .kept s i

theorem Stored.exists_lists {D : Deleter → Prop} {h : Entries} {first : Nat → Option Nat}
    {hand : Nat → Hand} {keeper : Nat → Keeper} (k : Stored D h first hand keeper) :
    ∃ linked held, Lists h first hand keeper linked held := by
  choose linked linked_path linked_nodup linked_mem using fun s => (k.listed s).exists_list
  choose due due_path due_nodup due_mem using fun i => (k.due i).exists_list
  choose kept kept_path kept_nodup kept_mem using fun i => (k.kept i).exists_list
  refine ⟨linked, fun i => due i ++ kept i, linked_path,
    fun i => ⟨due i, kept i, rfl, due_path i, kept_path i⟩, linked_nodup, fun i => ?_, linked_mem _ _,
    fun {i e} => ?_⟩
  · refine List.nodup_append.mpr ⟨due_nodup i, kept_nodup i, fun d hd e he hde => ?_⟩
    rw [due_mem] at hd
    rw [kept_mem, ← hde, hd] at he
    cases he
  · rw [List.mem_append, due_mem, kept_mem]
    refine ⟨fun h => ⟨_, h⟩, fun ⟨s, h⟩ => ?_⟩
    rwa [← k.stack e s i h]

end LockFreeStack
