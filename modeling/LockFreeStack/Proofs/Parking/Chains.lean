import LockFreeStack.Parking.Insert
import LockFreeStack.Proofs.Path

/-!
The chains that parked entries form: those that end with an entry that links to nothing, as a list
does, and those that an operation has put together and knows by their first and last entry.
-/

namespace LockFreeStack

namespace Entries

variable {h h' : Entries} {o : Option Nat} {P P' Q : Nat → Prop} {c : Chain} {kept : Option Chain}
  {e : Nat} {x : Entry}

/-- What comes after an entry. Nothing comes after the end. -/
def follow (h : Entries) : Option Nat → Option (Option Nat)
  | none => none
  | some e => (h.get? e).map Entry.next

theorem follow_congr (same : h'.get? e = h.get? e) : h'.follow (some e) = h.follow (some e) := by
  simp only [follow, same]

/-- The entries from `o` to the end are those with the property `P`. -/
def Chained (h : Entries) (o : Option Nat) (P : Nat → Prop) : Prop :=
  ∃ l, Path h.follow o l none ∧ ∀ e, some e ∈ l ↔ P e

/-- The entries with the property `P` are strung on a chain, with whatever behind its last one. -/
def Strung (h : Entries) (kept : Option Chain) (P : Nat → Prop) : Prop :=
  match kept with
  | none => ∀ e, ¬P e
  | some c => ∃ l d, Path h.follow (some c.first) l d ∧ l.Nodup ∧ l.getLast? = some (some c.last) ∧
      ∀ e, some e ∈ l ↔ P e

theorem none_notMem {a d : Option Nat} {l : List (Option Nat)} (p : Path h.follow a l d) : none ∉ l :=
  fun hn => Bool.noConfusion (p.isSome_of_mem hn)

/-- A path survives where its entries do. -/
theorem path_congr {a d : Option Nat} {l : List (Option Nat)} (p : Path h.follow a l d)
    (same : ∀ e, some e ∈ l → h'.get? e = h.get? e) : Path h'.follow a l d := by
  refine p.congr fun y hy => ?_
  cases y with
  | none => exact absurd hy (none_notMem p)
  | some e => exact follow_congr (same e hy)

namespace Chained

theorem congr (k : h.Chained o P) (same : ∀ e, P e → h'.get? e = h.get? e) (iff : ∀ e, P' e ↔ P e) :
    h'.Chained o P' := by
  obtain ⟨l, p, mem⟩ := k
  exact ⟨l, path_congr p fun e he => same e ((mem e).mp he), fun e => (mem e).trans (iff e).symm⟩

theorem nil (hP : ∀ e, ¬P e) : h.Chained none P :=
  ⟨[], .nil none, fun e => by simp [hP e]⟩

theorem not_of_none (k : h.Chained none P) (e : Nat) : ¬P e := by
  obtain ⟨l, p, mem⟩ := k
  obtain ⟨rfl, -⟩ := p.of_end rfl
  simp [← mem]

theorem head (k : h.Chained (some e) P) :
    ∃ x, h.get? e = some x ∧ P e ∧ x.next ≠ some e ∧ h.Chained x.next fun d => P d ∧ d ≠ e := by
  obtain ⟨l, p, mem⟩ := k
  obtain ⟨b, l', rfl, hb, rest⟩ := p.exists_cons (by simp)
  obtain ⟨x, hx, rfl⟩ := Option.map_eq_some_iff.mp hb
  have hnd : (some e :: l').Nodup := p.nodup rfl
  have hne : some e ∉ l' := (List.nodup_cons.mp hnd).1
  refine ⟨x, hx, (mem e).mp (by simp), fun hn => ?_, l', rest, fun d => ?_⟩
  · rw [hn] at rest
    obtain ⟨_, l'', rfl, -⟩ := rest.exists_cons (by simp)
    exact hne (by simp)
  · have hd := mem d
    rw [List.mem_cons, Option.some.injEq] at hd
    constructor
    · intro hm
      exact ⟨hd.mp (.inr hm), fun he => hne (he ▸ hm)⟩
    · rintro ⟨hp, hde⟩
      exact (hd.mpr hp).resolve_left hde

end Chained

namespace Strung

theorem congr (k : h.Strung kept P) (same : ∀ e, P e → h'.get? e = h.get? e) (iff : ∀ e, P' e ↔ P e) :
    h'.Strung kept P' := by
  cases kept with
  | none => exact fun e he => k e ((iff e).mp he)
  | some c =>
    obtain ⟨l, d, p, hnd, hlast, mem⟩ := k
    exact ⟨l, d, path_congr p fun e he => same e ((mem e).mp he), hnd, hlast,
      fun e => (mem e).trans (iff e).symm⟩

theorem last (k : h.Strung (some c) P) : P c.last := by
  obtain ⟨l, d, p, hnd, hlast, mem⟩ := k
  exact (mem _).mp (List.mem_of_getLast? hlast)

/-- The last entry is linked to something else. -/
theorem relink (k : h.Strung (some c) P) (live : h'.get? c.last = some x)
    (same : ∀ e, e ≠ c.last → h'.get? e = h.get? e) : h'.Strung (some c) P := by
  obtain ⟨l, d, p, hnd, hlast, mem⟩ := k
  refine ⟨l, x.next, p.redirect hnd hlast (by simp [follow, live]) fun y hy hne => ?_, hnd, hlast, mem⟩
  cases y with
  | none => exact absurd hy (none_notMem p)
  | some e => exact follow_congr (same e fun he => hne (he ▸ rfl))

/-- A chain whose last entry is linked to the head of a list is the front part of a list. -/
theorem splice (k : h.Strung (some c) P) (live : h.get? c.last = some x) (rest : h.Chained x.next Q) :
    h.Chained (some c.first) fun e => P e ∨ Q e := by
  obtain ⟨l, d, p, hnd, hlast, mem⟩ := k
  obtain ⟨l', q, mem'⟩ := rest
  have p' : Path h.follow (some c.first) l x.next :=
    p.redirect hnd hlast (by simp [follow, live]) fun _ _ _ => rfl
  exact ⟨l ++ l', p'.append q, fun e => by rw [List.mem_append, mem, mem']⟩

/-- One more entry goes in front. -/
theorem cons (k : h.Strung kept P) (he : ¬P e) (live : h.get? e = some x)
    (hx : x.next = kept.map Chain.first) :
    h.Strung (some ⟨e, (kept.map Chain.last).getD e⟩) fun d => P d ∨ d = e := by
  have hf : h.follow (some e) = some (kept.map Chain.first) := by simp [follow, live, hx]
  cases kept with
  | none =>
    refine ⟨[some e], none, .cons hf (.nil _), by simp, by simp, fun d => ?_⟩
    simp [k d]
  | some c =>
    obtain ⟨l, d, p, hnd, hlast, mem⟩ := k
    have hne : some e ∉ l := fun hm => he ((mem e).mp hm)
    refine ⟨some e :: l, d, .cons hf p, List.nodup_cons.mpr ⟨hne, hnd⟩, ?_, fun d => ?_⟩
    · obtain _ | ⟨y, l⟩ := l
      · simp at hlast
      · simpa using hlast
    · rw [List.mem_cons, mem, Option.some.injEq, or_comm]

end Strung

end Entries

end LockFreeStack
