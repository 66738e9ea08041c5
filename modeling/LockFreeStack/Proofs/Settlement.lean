import LockFreeStack.Teardown
import LockFreeStack.Proofs.Path
import LockFreeStack.Proofs.Runs
import Mathlib.Data.List.Forall2
import Mathlib.Data.List.Nodup
import Mathlib.Data.List.Perm.Subperm

/-!
What becomes of a chain of nodes when its stack is dropped. From the top down each value is dropped
and then its node released, for both kinds of stacks alike.
-/

namespace LockFreeStack

variable {α γ : Type}

/-- What is seen when nodes with their values are settled in this order. -/
def estate (l : List (Nat × α)) : List (Note α) := l.flatMap fun x => [.dropped x.2, .freed x.1]

theorem settlements_estate (l : List (Nat × α)) : settlements (estate l) = estate l := by
  refine List.filter_eq_self.mpr fun n hn => ?_
  obtain ⟨x, -, hn⟩ := List.mem_flatMap.mp hn
  obtain rfl | rfl : n = .dropped x.2 ∨ n = .freed x.1 := by simpa using hn
  · rfl
  · rfl

/-- The nodes from `a` on with their places and values, down to `c`, which does not belong to them.
`open?` looks into a node and says what is below it. -/
inductive Piled (open? : γ → Option (Nat × α × γ)) : γ → List (Nat × α) → γ → Prop where
  | nil (c : γ) : Piled open? c [] c
  | cons {a b c : γ} {k : Nat} {v : α} {l : List (Nat × α)} (h : open? a = some (k, v, b))
    (rest : Piled open? b l c) : Piled open? a ((k, v) :: l) c

namespace Piled

variable {open? open?' : γ → Option (Nat × α × γ)} {a b c : γ} {l : List (Nat × α)} {k : Nat} {v : α}

theorem congr (p : Piled open? a l c)
    (h : ∀ a k v b, k ∈ l.map Prod.fst → open? a = some (k, v, b) → open?' a = some (k, v, b)) :
    Piled open?' a l c := by
  induction p with
  | nil => exact .nil _
  | cons ha _ ih =>
    exact .cons (h _ _ _ _ (by simp) ha) (ih fun a k v b hk => h a k v b (by simp_all))

/-- A chain and the values along it put together. -/
theorem exists_of_path {next : γ → Option γ} {value? : γ → Option α} {place : γ → Address} {as : List γ}
    {vs : List α} (opens : ∀ a b v, next a = some b → value? a = some v →
      ∃ k, place a = .node k ∧ open? a = some (k, v, b))
    (path : Path next a as c) (holds : List.Forall₂ (fun a v => value? a = some v) as vs) :
    ∃ l, (l.map Prod.fst).map Address.node = as.map place ∧ l.map Prod.snd = vs ∧ Piled open? a l c := by
  induction path generalizing vs with
  | nil =>
    cases holds
    exact ⟨[], rfl, rfl, .nil _⟩
  | @cons a b c as hn rest ih =>
    obtain _ | ⟨hv, holds⟩ := holds
    obtain ⟨l, places, values, piled⟩ := ih holds
    obtain ⟨k, hk, ho⟩ := opens a b _ hn hv
    refine ⟨(k, _) :: l, ?_, ?_, .cons ho piled⟩
    · rw [List.map_cons, List.map_cons, places, List.map_cons, hk]
    · rw [List.map_cons, values]

end Piled

namespace Nodes

variable {h : Nodes α} {a b : Address} {k : Nat} {v : α} {l : List (Nat × α)}

theorem size_update (h : Nodes α) (k : Nat) (f : Object α → Object α) : (h.update k f).size = h.size := by
  simp [Heap.size, Heap.update]

@[simp] theorem size_updateAt (h : Nodes α) (a : Address) (f : Object α → Object α) :
    Heap.size (h.updateAt a f) = h.size := by
  cases a <;> simp [updateAt, size_update]

@[simp] theorem size_release (h : Nodes α) (a : Address) : Heap.size (h.release a) = h.size := by
  cases a <;> simp [release, Heap.size, Heap.free]

/-- Nodes in places of their own are no more than there are places. -/
theorem length_le_size (nodup : (l.map Prod.fst).Nodup)
    (live : ∀ k ∈ l.map Prod.fst, (h.at? (.node k)).isSome) : l.length ≤ h.size := by
  have sub : l.map Prod.fst ⊆ List.range h.size := fun k hk =>
    List.mem_range.mpr (Heap.lt_size_of_isSome (live k hk))
  simpa using (nodup.subperm sub).length_le

/-- Gives the memory of the nodes back, one after the other. -/
def releaseAll (h : Nodes α) (ks : List Nat) : Nodes α := ks.foldl (fun h k => h.release (.node k)) h

theorem at?_releaseAll (h : Nodes α) (ks : List Nat) (a : Address) :
    (h.releaseAll ks).at? a = if a ∈ ks.map Address.node then none else h.at? a := by
  induction ks generalizing h with
  | nil => rfl
  | cons k ks ih =>
    rw [show h.releaseAll (k :: ks) = (h.release (.node k)).releaseAll ks from rfl, ih, at?_release]
    by_cases ha : a = .node k
    · simp [ha]
    · rw [if_neg ha]
      simp only [List.map_cons, List.mem_cons, ha, false_or]

theorem size_releaseAll (h : Nodes α) (ks : List Nat) : Heap.size (h.releaseAll ks) = h.size := by
  induction ks generalizing h with
  | nil => rfl
  | cons k ks ih => exact (ih (h.release (.node k))).trans (size_release h _)

/-- A hazard stack's node at an address, and the address below it. -/
def openPlain? (h : Nodes α) : Address → Option (Nat × α × Address)
  | .node k => (h.plain? (.node k)).map fun x => (k, x)
  | _ => none

/-- A counted stack's node under a pair, and the pair below it. -/
def openCounted? (h : Nodes α) (p : Pair Address) : Option (Nat × α × Pair Address) :=
  match p.address with
  | .node k => (h.counted? (.node k)).map fun x => (k, x.1, x.2.1)
  | _ => none

theorem openPlain?_eq_some : h.openPlain? a = some (k, v, b) ↔ a = .node k ∧ h.plain? a = some (v, b) := by
  cases a with
  | node j =>
    simp only [openPlain?, Option.map_eq_some_iff, Prod.mk.injEq, Address.node.injEq]
    constructor
    · rintro ⟨x, hx, rfl, rfl⟩
      exact ⟨rfl, hx⟩
    · rintro ⟨rfl, hx⟩
      exact ⟨_, hx, rfl, rfl⟩
  | _ => simp [openPlain?]

theorem openCounted?_eq_some {p q : Pair Address} :
    h.openCounted? p = some (k, v, q) ↔
      p.address = .node k ∧ ∃ n, h.counted? p.address = some (v, q, n) := by
  unfold openCounted?
  cases hp : p.address with
  | node j =>
    simp only [Option.map_eq_some_iff, Prod.mk.injEq, Address.node.injEq]
    constructor
    · rintro ⟨⟨w, r, n⟩, hx, rfl, rfl, rfl⟩
      exact ⟨rfl, n, hx⟩
    · rintro ⟨rfl, n, hx⟩
      exact ⟨_, hx, rfl, rfl, rfl⟩
  | _ => simp

theorem openPlain?_release (hne : ∀ x, h.openPlain? a ≠ some (k, x)) :
    (h.release (.node k)).openPlain? a = h.openPlain? a := by
  cases a with
  | node j =>
    by_cases hj : j = k
    · subst hj
      cases hp : h.plain? (.node j) with
      | none => simp [openPlain?, plain?_release, hp]
      | some x => exact absurd (by simp [openPlain?, hp]) (hne x)
    · simp [openPlain?, plain?_release, hj]
  | _ => rfl

theorem openCounted?_release {p : Pair Address} (hne : ∀ x, h.openCounted? p ≠ some (k, x)) :
    (h.release (.node k)).openCounted? p = h.openCounted? p := by
  unfold openCounted? at *
  cases hp : p.address with
  | node j =>
    rw [hp] at hne
    by_cases hj : j = k
    · subst hj
      cases hc : h.counted? (.node j) with
      | none => simp [counted?_release, hc]
      | some x => exact absurd (by simp [hc]) (hne (x.1, x.2.1))
    · simp [counted?_release, hj]
  | _ => rfl

end Nodes

/-- A function that goes down a chain, drops each value and releases its node. -/
structure Settles (open? : Nodes α → γ → Option (Nat × α × γ))
    (drop : Nat → Nodes α → γ → Settled (Nodes α) α) : Prop where
  next : ∀ fuel h a k v b, open? h a = some (k, v, b) →
    let s := drop fuel (h.release (.node k)) b
    drop (fuel + 1) h a = ⟨s.memory, s.count + 1, .dropped v :: .freed k :: s.notes⟩
  stop : ∀ fuel h a, open? h a = none → drop fuel h a = ⟨h, 0, []⟩
  release : ∀ h a k, (∀ x, open? h a ≠ some (k, x)) → open? (h.release (.node k)) a = open? h a

/-- The whole chain goes, and nothing else. -/
theorem Settles.settles {open? : Nodes α → γ → Option (Nat × α × γ)}
    {drop : Nat → Nodes α → γ → Settled (Nodes α) α} (s : Settles open? drop) {h : Nodes α} {a c : γ}
    {l : List (Nat × α)} {fuel : Nat} (p : Piled (open? h) a l c) (hc : open? h c = none)
    (nodup : (l.map Prod.fst).Nodup) (len : l.length ≤ fuel) :
    drop fuel h a = ⟨h.releaseAll (l.map Prod.fst), l.length, estate l⟩ := by
  induction l generalizing h a fuel with
  | nil =>
    cases p
    exact s.stop fuel h _ hc
  | cons x l ih =>
    cases p
    rename_i b k v ha rest
    obtain ⟨hk, nodup⟩ := List.nodup_cons.mp nodup
    obtain _ | fuel := fuel
    · simp at len
    have rest' : Piled (open? (h.release (.node k))) b l c := by
      refine rest.congr fun a' j w b' hj hopen => ?_
      rw [s.release, hopen]
      rintro y hy
      obtain rfl : j = k := congrArg Prod.fst (Option.some.inj (hopen.symm.trans hy))
      exact hk hj
    have hend : open? (h.release (.node k)) c = none := by
      rw [s.release _ _ _ fun y hy => by simp [hc] at hy, hc]
    rw [s.next fuel h a k v b ha, ih rest' hend nodup (by simpa using len)]
    rfl

theorem settles_plain : Settles Nodes.openPlain? (Nodes.dropPlain : Nat → Nodes α → Address → _) where
  next fuel h a k v b ho := by
    obtain ⟨rfl, hp⟩ := Nodes.openPlain?_eq_some.mp ho
    simp [Nodes.dropPlain, hp, Address.freed]
  stop fuel h a ho := by
    obtain _ | fuel := fuel
    · rfl
    have hp : h.plain? a = none := by
      cases a with
      | node k => simpa [Nodes.openPlain?] using ho
      | _ => rfl
    simp [Nodes.dropPlain, hp]
  release _ _ _ := Nodes.openPlain?_release

theorem settles_counted :
    Settles (α := α) Nodes.openCounted? fun fuel h p => h.dropCounted fuel p.address where
  next fuel h p k v q ho := by
    obtain ⟨hp, n, hc⟩ := Nodes.openCounted?_eq_some.mp ho
    simp only [Nodes.dropCounted, hc]
    simp [hp, Address.freed]
  stop fuel h p ho := by
    obtain _ | fuel := fuel
    · rfl
    have hc : h.counted? p.address = none := by
      unfold Nodes.openCounted? at ho
      cases hp : p.address with
      | node k => simpa [hp] using ho
      | _ => rfl
    simp [Nodes.dropCounted, hc]
  release _ _ _ := Nodes.openCounted?_release

end LockFreeStack
