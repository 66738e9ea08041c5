import Mathlib.Data.List.Nodup

/-!
Linked chains. A partial function says which place comes after which, and a path is the list of
places that it leads through. A path to a place with nothing after it has no repetition.
-/

namespace LockFreeStack

variable {γ : Type} {next next' : γ → Option γ} {a b c d x : γ} {l l' : List γ}

/-- The places met from `a` on until `c` is reached, which does not belong to them. -/
inductive Path (next : γ → Option γ) : γ → List γ → γ → Prop where
  | nil (a : γ) : Path next a [] a
  | cons {a b c : γ} {l : List γ} (h : next a = some b) (rest : Path next b l c) :
    Path next a (a :: l) c

namespace Path

theorem nil_iff : Path next a [] c ↔ a = c := by
  constructor
  · rintro ⟨⟩; rfl
  · rintro rfl; exact .nil a

theorem cons_iff : Path next a (x :: l) c ↔ x = a ∧ ∃ b, next a = some b ∧ Path next b l c := by
  constructor
  · rintro ⟨⟩
    rename_i b hb rest
    exact ⟨rfl, b, hb, rest⟩
  · rintro ⟨rfl, b, hb, rest⟩
    exact .cons hb rest

theorem of_end (p : Path next a l c) (ha : next a = none) : l = [] ∧ a = c := by
  cases p with
  | nil => exact ⟨rfl, rfl⟩
  | cons hn => simp [ha] at hn

theorem congr (p : Path next a l c) (h : ∀ x ∈ l, next' x = next x) : Path next' a l c := by
  induction p with
  | nil a => exact .nil a
  | @cons a b c l hn _ ih =>
    have ha : next' a = some b := by rw [h a (by simp), hn]
    exact .cons ha (ih fun x hx => h x (by simp [hx]))

theorem append (p : Path next a l b) (q : Path next b l' c) : Path next a (l ++ l') c := by
  induction p with
  | nil => exact q
  | cons hn _ ih => exact .cons hn (ih q)

theorem isSome_of_mem (p : Path next a l c) (hx : x ∈ l) : (next x).isSome := by
  induction p with
  | nil => simp at hx
  | cons hn _ ih =>
    obtain rfl | hx := List.mem_cons.mp hx
    · simp [hn]
    · exact ih hx

/-- The path starts at a place, or comes to it from another one. -/
theorem eq_or_exists_next (p : Path next a l c) (hx : x ∈ l) : x = a ∨ ∃ y ∈ l, next y = some x := by
  induction p with
  | nil => simp at hx
  | @cons a b c l hn _ ih =>
    obtain rfl | hx := List.mem_cons.mp hx
    · exact .inl rfl
    · obtain rfl | ⟨y, hy, hyx⟩ := ih hx
      · exact .inr ⟨a, by simp, hn⟩
      · exact .inr ⟨y, by simp [hy], hyx⟩

/-- The part of a path from one of its places on. -/
theorem from_mem (p : Path next a l c) (hx : x ∈ l) :
    ∃ l₁ l₂, l = l₁ ++ l₂ ∧ Path next x l₂ c := by
  induction p with
  | nil => simp at hx
  | @cons a b c l hn rest ih =>
    obtain rfl | hx := List.mem_cons.mp hx
    · exact ⟨[], _, rfl, .cons hn rest⟩
    · obtain ⟨l₁, l₂, rfl, q⟩ := ih hx
      exact ⟨a :: l₁, l₂, rfl, q⟩

/-- From one place there is only one path to an end. -/
theorem unique (p : Path next a l c) (hc : next c = none) (q : Path next a l' d)
    (hd : next d = none) : l = l' ∧ c = d := by
  induction p generalizing l' with
  | nil a =>
    cases q with
    | nil => exact ⟨rfl, rfl⟩
    | cons hn => simp [hc] at hn
  | cons hn _ ih =>
    cases q with
    | nil => simp [hd] at hn
    | cons hn' rest' =>
      obtain rfl := Option.some.inj (hn.symm.trans hn')
      obtain ⟨rfl, rfl⟩ := ih hc rest'
      exact ⟨rfl, rfl⟩

/-- Two ways from one place that end with the same one are the same. -/
theorem unique_of_getLast (p : Path next a l c) (q : Path next a l' d) (nodup : l.Nodup) (nodup' : l'.Nodup)
    (last : l.getLast? = some x) (last' : l'.getLast? = some x) : l = l' := by
  induction p generalizing l' with
  | nil => simp at last
  | @cons a b c l hn rest ih =>
    obtain _ | @⟨_, b', _, l', hn', rest'⟩ := q
    · simp at last'
    obtain rfl := Option.some.inj (hn.symm.trans hn')
    obtain ⟨ha, nodup⟩ := List.nodup_cons.mp nodup
    obtain ⟨ha', nodup'⟩ := List.nodup_cons.mp nodup'
    rw [List.getLast?_cons] at last last'
    -- Where one way ends at once, the other would have to come back to its start.
    cases hl : l.getLast? with
    | none =>
      obtain rfl : a = x := by simpa [hl] using last
      cases hl' : l'.getLast? with
      | none => rw [List.getLast?_eq_none_iff.mp hl, List.getLast?_eq_none_iff.mp hl']
      | some y =>
        obtain rfl : y = a := by simpa [hl'] using last'
        exact absurd (List.mem_of_getLast? hl') ha'
    | some z =>
      obtain rfl : z = x := by simpa [hl] using last
      cases hl' : l'.getLast? with
      | none =>
        obtain rfl : a = z := by simpa [hl'] using last'
        exact absurd (List.mem_of_getLast? hl) ha
      | some y =>
        obtain rfl : y = z := by simpa [hl'] using last'
        rw [ih rest' nodup nodup' hl hl']

theorem nodup (p : Path next a l c) (hc : next c = none) : l.Nodup := by
  induction p with
  | nil => exact List.nodup_nil
  | @cons a b c l hn rest ih =>
    refine List.nodup_cons.mpr ⟨fun ha => ?_, ih hc⟩
    -- A second visit to `a` would start a shorter path to the same end.
    obtain ⟨l₁, l₂, rfl, q⟩ := rest.from_mem ha
    have hlen := congrArg List.length (unique (.cons hn rest) hc q hc).1
    simp only [List.length_cons, List.length_append] at hlen
    omega

/-- A path to an end is empty only if it starts there. -/
theorem exists_cons (p : Path next a l c) (ha : a ≠ c) :
    ∃ b l', l = a :: l' ∧ next a = some b ∧ Path next b l' c := by
  cases p with
  | nil => exact absurd rfl ha
  | cons hn rest => exact ⟨_, _, rfl, hn, rest⟩

/-- The last place of a path can be linked to another one. -/
theorem redirect (p : Path next a l c) (hl : l.Nodup) (hx : l.getLast? = some x)
    (hn : next' x = some d) (h : ∀ y ∈ l, y ≠ x → next' y = next y) : Path next' a l d := by
  induction p with
  | nil => simp at hx
  | @cons a b c l ha rest ih =>
    obtain _ | ⟨y, l⟩ := l
    · obtain rfl : a = x := by simpa using hx
      exact .cons hn (.nil d)
    · have hx' : (y :: l).getLast? = some x := by simpa using hx
      have hax : a ≠ x := by
        rintro rfl
        exact (List.nodup_cons.mp hl).1 (List.mem_of_getLast? hx')
      have ha' : next' a = some b := by rw [h a (by simp) hax, ha]
      exact .cons ha' (ih (List.nodup_cons.mp hl).2 hx' fun z hz => h z (by simp [hz]))

end Path

end LockFreeStack
