import LockFreeStack.Proofs.Hazard.Seeking
import Mathlib.Data.Finset.Card

/-!
The records of a table that somebody owns, and how many there are.
-/

namespace LockFreeStack

variable {α : Type} {m : Memory α} {t k : Nat}

theorem countP_eq_card {γ : Type} (l : List γ) (f : γ → Bool) :
    l.countP f = ((Finset.range l.length).filter fun k => l[k]?.any f).card := by
  induction l using List.reverseRecOn with
  | nil => rfl
  | append_singleton l a ih =>
    have old : (Finset.range l.length).filter (fun k => (l ++ [a])[k]?.any f) =
        (Finset.range l.length).filter fun k => l[k]?.any f :=
      Finset.filter_congr fun k hk => by rw [List.getElem?_append_left (Finset.mem_range.mp hk)]
    rw [List.countP_append, List.length_append, List.length_singleton, Finset.range_add_one,
      Finset.filter_insert, old, ih]
    cases hf : f a <;> simp [hf]

namespace Memory

/-- Somebody owns the record. -/
def Taken (m : Memory α) (t k : Nat) : Prop := ∃ r, m.tables.record? ⟨t, k⟩ = some r ∧ r.owner ≠ 0

def occupied (m : Memory α) (t : Nat) : Finset Nat :=
  (Finset.range (m.table t).capacity).filter fun k => (m.tables.record? ⟨t, k⟩).any Record.isClaimed

theorem mem_occupied : k ∈ m.occupied t ↔ m.Taken t k := by
  simp only [occupied, Taken, Finset.mem_filter, Finset.mem_range, Option.any_eq_true, Record.isClaimed,
    decide_eq_true_eq]
  refine and_iff_right_of_imp fun ⟨r, hr, _⟩ => ?_
  exact (Hazard.Crowd.isSome_record? m t k).mp (Option.isSome_iff_exists.mpr ⟨r, hr⟩)

theorem card_occupied (m : Memory α) (t : Nat) : (m.occupied t).card = (m.table t).claimed := by
  rw [Table.claimed, ← Array.countP_toList, countP_eq_card]
  simp only [occupied, ← records_table, Array.getElem?_toList, Table.capacity, Array.length_toList]

/-- Together with the records that nobody owns. -/
theorem claimed_add_vacant (m : Memory α) (t : Nat) :
    (m.table t).claimed + (m.table t).records.countP (fun r => r.owner = 0) = (m.table t).capacity := by
  have h : (m.table t).records.size =
      (m.table t).records.countP Record.isClaimed + (m.table t).records.countP fun r => ¬r.isClaimed :=
    Array.size_eq_countP_add_countP
  rw [Table.capacity, h, Table.claimed]
  congr 1
  exact Array.countP_congr fun r _ => by simp [Record.isClaimed]

end Memory

end LockFreeStack
