/-!
A finite map with its keys in ascending order.
-/

namespace LockFreeStack

structure Directory (κ β : Type) where
  entries : List (κ × β)

namespace Directory

variable {κ β : Type}

def empty : Directory κ β := ⟨[]⟩

section Keys

variable [DecidableEq κ]

def get? (d : Directory κ β) (k : κ) : Option β := (d.entries.find? fun e => e.1 = k).map Prod.snd

def contains (d : Directory κ β) (k : κ) : Bool := (d.get? k).isSome

def erase (d : Directory κ β) (k : κ) : Directory κ β := ⟨d.entries.filter fun e => e.1 ≠ k⟩

theorem get?_erase (d : Directory κ β) (k j : κ) :
    (d.erase k).get? j = if j = k then none else d.get? j := by
  obtain ⟨l⟩ := d
  unfold erase get?
  simp only
  induction l with
  | nil => simp
  | cons e l ih =>
    by_cases hk : e.1 = k
    · simp only [hk, ne_eq, not_true_eq_false, decide_false, Bool.false_eq_true,
        not_false_eq_true, List.filter_cons_of_neg]
      rw [ih]
      by_cases h : j = k
      · simp [h]
      · simp [h, hk, Ne.symm h]
    · simp only [hk, ne_eq, not_false_eq_true, decide_true, List.filter_cons_of_pos]
      by_cases h : e.1 = j
      · have : j ≠ k := by rintro rfl; exact hk h
        simp [h, this]
      · simpa [h] using ih

variable [LT κ] [DecidableLT κ]

def insert (d : Directory κ β) (k : κ) (v : β) : Directory κ β := ⟨go d.entries⟩
where
  go : List (κ × β) → List (κ × β)
  | [] => [(k, v)]
  | e :: rest =>
    if k < e.1 then (k, v) :: e :: rest else if k = e.1 then (k, v) :: rest else e :: go rest

theorem get?_insert (d : Directory κ β) (k : κ) (v : β) (j : κ) :
    (d.insert k v).get? j = if j = k then some v else d.get? j := by
  obtain ⟨l⟩ := d
  unfold insert get?
  simp only
  induction l with
  | nil => by_cases h : j = k <;> simp [insert.go, h, eq_comm]
  | cons e l ih =>
    unfold insert.go
    split
    · by_cases h : j = k
      · simp [h]
      · simp [h, Ne.symm h]
    · split
      · subst_vars
        by_cases h : j = e.1
        · simp [h]
        · simp [h, Ne.symm h]
      · by_cases h : e.1 = j
        · have : j ≠ k := by rintro rfl; simp_all
          simp [h, this]
        · simpa [h] using ih

end Keys

end Directory

end LockFreeStack
