import LockFreeStack.Proofs.Parking.Deeds
import LockFreeStack.Proofs.Parking.Lists

/-!
Parked entries in the order of their links, each with the address and the deleter that it keeps.
-/

namespace LockFreeStack

open Parking

/-- An entry together with what it keeps. -/
structure Deposit where
  entry : Nat
  address : Address
  deleter : Deleter
deriving DecidableEq

/-- What is called when the deposit is deleted. -/
def Deposit.call (x : Deposit) : Address × Deleter := (x.address, x.deleter)

namespace Entries

/-- The deposits `xs` are linked one after the other from `o` on, and `b` comes behind them. -/
structure Linked (h : Entries) (o : Option Nat) (xs : List Deposit) (b : Option Nat) : Prop where
  path : Path h.follow o ((xs.map Deposit.entry).map some) b
  content : ∀ x ∈ xs, content? h x.entry = some x.call

/-- The deposits `xs` are strung on a chain, with whatever behind the last one. -/
def Hung (h : Entries) (kept : Option Chain) (xs : List Deposit) : Prop :=
  match kept with
  | none => xs = []
  | some c => (∃ b, h.Linked (some c.first) xs b) ∧ (xs.map Deposit.entry).getLast? = some c.last

variable {h h' : Entries} {o b d : Option Nat} {x : Deposit} {y : Entry} {xs ys : List Deposit} {e : Nat}
  {c : Chain} {kept : Option Chain}

theorem content?_congr (same : h'.get? e = h.get? e) : content? h' e = content? h e := by
  simp only [content?, same]

namespace Linked

theorem nil (h : Entries) (o : Option Nat) : h.Linked o [] o := ⟨.nil o, by simp⟩

theorem congr (k : h.Linked o xs b) (same : ∀ x ∈ xs, h'.get? x.entry = h.get? x.entry) :
    h'.Linked o xs b := by
  refine ⟨path_congr k.path fun e he => ?_, fun x hx => ?_⟩
  · obtain ⟨x, hx, rfl⟩ : ∃ x ∈ xs, x.entry = e := by simpa using he
    exact same x hx
  · rw [content?_congr (same x hx)]
    exact k.content x hx

theorem append (k : h.Linked o xs b) (k' : h.Linked b ys d) : h.Linked o (xs ++ ys) d := by
  refine ⟨?_, fun x hx => (List.mem_append.mp hx).elim (k.content x) (k'.content x)⟩
  rw [List.map_append, List.map_append]
  exact k.path.append k'.path

theorem nodup (k : h.Linked o xs none) : (xs.map Deposit.entry).Nodup := .of_map some (k.path.nodup rfl)

theorem length_le_size (k : h.Linked o xs none) : xs.length ≤ h.size := by
  simpa using Entries.length_le_size k.path

/-- The first deposit is live, and the others follow its link. -/
theorem head (k : h.Linked o (x :: xs) b) :
    o = some x.entry ∧ ∃ n, h.get? x.entry = some ⟨x.address, x.deleter, n⟩ ∧ h.Linked n xs b := by
  obtain ⟨ho, n, hn, rest⟩ := Path.cons_iff.mp k.path
  refine ⟨ho.symm, n, ?_, rest, fun y hy => k.content y (by simp [hy])⟩
  obtain ⟨y, hy, rfl⟩ : ∃ y, h.get? x.entry = some y ∧ y.next = n := by
    simpa [← ho, follow] using hn
  have hc := k.content x (by simp)
  obtain ⟨ha, hd⟩ : y.address = x.address ∧ y.deleter = x.deleter := by
    simpa [content?, hy, Deposit.call] using hc
  rw [hy, ← ha, ← hd]

theorem cons (live : h.get? x.entry = some ⟨x.address, x.deleter, o⟩) (k : h.Linked o xs b) :
    h.Linked (some x.entry) (x :: xs) b := by
  refine ⟨.cons (by simp [follow, live]) k.path, fun y hy => ?_⟩
  obtain rfl | hy := List.mem_cons.mp hy
  · simp [content?, live, Deposit.call]
  · exact k.content y hy

/-- There is only one way to the end. -/
theorem unique (k : h.Linked o xs none) (k' : h.Linked o ys none) : xs = ys := by
  induction xs generalizing o ys with
  | nil =>
    obtain rfl := Path.nil_iff.mp k.path
    cases ys with
    | nil => rfl
    | cons y ys => cases k'.head.1
  | cons x xs ih =>
    obtain ⟨rfl, n, hx, rest⟩ := k.head
    cases ys with
    | nil => cases Path.nil_iff.mp k'.path
    | cons y ys =>
      obtain ⟨hxy, n', hy, rest'⟩ := k'.head
      rw [← Option.some.inj hxy, hx] at hy
      injection hy with hy
      injection hy with ha hd hn
      subst hn
      rw [ih rest rest']
      congr 1
      cases x; cases y
      simp_all

/-- The last deposit is linked to something else. -/
theorem relink (k : h.Linked o xs b) (nodup : (xs.map Deposit.entry).Nodup)
    (last : (xs.map Deposit.entry).getLast? = some e) (seen : Option Nat) :
    Linked (h.update e fun y => { y with next := seen }) o xs seen := by
  have mem : e ∈ xs.map Deposit.entry := List.mem_of_getLast? last
  have places : ((xs.map Deposit.entry).map some).Nodup := nodup.map fun _ _ => Option.some.inj
  have ends : ((xs.map Deposit.entry).map some).getLast? = some (some e) := by
    rw [List.getLast?_map, last]
    rfl
  refine ⟨k.path.redirect places ends ?_ ?_, fun x hx => by rw [content?_relink]; exact k.content x hx⟩
  · have live : (h.follow (some e)).isSome := k.path.isSome_of_mem (by simpa using mem)
    obtain ⟨y, hy⟩ := Option.isSome_iff_exists.mp live
    obtain ⟨y, hy, -⟩ : ∃ z, h.get? e = some z ∧ z.next = y := by simpa [follow] using hy
    simp [follow, Heap.get?_update, hy]
  · intro o ho hne
    cases o with
    | none => simp at ho
    | some f => exact follow_congr ((Heap.get?_update ..).trans (if_neg fun hf => hne (by rw [hf])))

end Linked

/-- The entries on a way to the end, written out with what they keep. -/
theorem exists_linked {es : List Nat} (p : Path h.follow o (es.map some) b) :
    ∃ xs, xs.map Deposit.entry = es ∧ h.Linked o xs b := by
  induction es generalizing o with
  | nil => exact ⟨[], rfl, p, by simp⟩
  | cons e es ih =>
    obtain ⟨rfl, n, hn, rest⟩ := Path.cons_iff.mp p
    obtain ⟨y, hy, rfl⟩ : ∃ y, h.get? e = some y ∧ y.next = n := by simpa [follow] using hn
    obtain ⟨xs, rfl, k⟩ := ih rest
    exact ⟨⟨e, y.address, y.deleter⟩ :: xs, rfl, .cons (x := ⟨e, y.address, y.deleter⟩) hy k⟩

/-- The deposits on a way to the end are those that the way is known to lead through. -/
theorem Chained.mem_of_linked {P : Nat → Prop} (c : h.Chained o P) (k : h.Linked o xs none) :
    ∀ x ∈ xs, P x.entry := by
  intro x hx
  obtain ⟨l, path, mem⟩ := c
  obtain ⟨rfl, -⟩ := path.unique rfl k.path rfl
  exact (mem _).mp (by simpa using ⟨x, hx, rfl⟩)

namespace Hung

theorem congr (k : h.Hung kept xs) (same : ∀ x ∈ xs, h'.get? x.entry = h.get? x.entry) :
    h'.Hung kept xs := by
  cases kept with
  | none => exact k
  | some c =>
    obtain ⟨⟨b, linked⟩, last⟩ := k
    exact ⟨⟨b, linked.congr same⟩, last⟩

/-- One more deposit goes in front. -/
theorem cons (k : h.Hung kept xs) (live : h.get? x.entry = some ⟨x.address, x.deleter, kept.map Chain.first⟩) :
    h.Hung (some ⟨x.entry, (kept.map Chain.last).getD x.entry⟩) (x :: xs) := by
  cases kept with
  | none =>
    obtain rfl : xs = [] := k
    exact ⟨⟨none, (Linked.nil h none).cons live⟩, rfl⟩
  | some c =>
    obtain ⟨⟨b, linked⟩, last⟩ := k
    refine ⟨⟨b, linked.cons live⟩, ?_⟩
    cases xs with
    | nil => simp at last
    | cons y ys => simpa using last

/-- The chain as it is once its last deposit has been linked to what was seen. -/
theorem relink (k : h.Hung (some c) xs) (nodup : (xs.map Deposit.entry).Nodup) (seen : Option Nat) :
    Linked (h.update c.last fun y => { y with next := seen }) (some c.first) xs seen := by
  obtain ⟨⟨b, linked⟩, last⟩ := k
  exact linked.relink nodup last seen

theorem last_mem (k : h.Hung (some c) xs) : c.last ∈ xs.map Deposit.entry := List.mem_of_getLast? k.2

theorem live_last (k : h.Hung (some c) xs) : ∃ y, h.get? c.last = some y := by
  obtain ⟨⟨b, linked⟩, last⟩ := k
  obtain ⟨x, hx, he⟩ := List.mem_map.mp (List.mem_of_getLast? last)
  have hc := linked.content x hx
  rw [he] at hc
  obtain ⟨y, hy, -⟩ := Option.map_eq_some_iff.mp hc
  exact ⟨y, hy⟩

end Hung

end Entries

/-- The deposits on a list belong to the list. -/
theorem Stored.keeper_of_linked {D : Deleter → Prop} {h : Entries} {first : Nat → Option Nat}
    {hand : Nat → Hand} {keeper : Nat → Keeper} {s : Nat} {xs : List Deposit} (k : Stored D h first hand keeper)
    (linked : h.Linked (first s) xs none) : ∀ x ∈ xs, keeper x.entry = .listed s :=
  (k.listed s).mem_of_linked linked

end LockFreeStack
