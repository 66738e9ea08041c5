import LockFreeStack.Heap
import LockFreeStack.Proofs.Path
import Mathlib.Logic.Function.Basic

/-!
Every live node is in one place: linked into one stack, parked in one entry, or in the hands of one
thread that has just obtained it, has detached it, or is about to delete it.
-/

namespace LockFreeStack

variable {α κ ν : Type}

/-- The link of the live node at an address. -/
def Nodes.below? (h : Nodes α) (a : Address) : Option Address := (h.plain? a).map Prod.snd

namespace Hazard

/-- Why a thread has a node for itself. -/
inductive Grade where
  | fresh
  | taken (s : Nat)
  | spent (s : Nat)
deriving DecidableEq

inductive Stage where
  | free
  | linked (s : Nat)
  | parked (e s : Nat)
  | own (i : Nat) (g : Grade)
deriving DecidableEq

/-- The stack that a node is, or was, linked into. -/
def Stage.home? : Stage → Option Nat
  | linked s | parked _ s | own _ (.taken s) | own _ (.spent s) => some s
  | _ => none

/-- What `f` knows of a key is the address at the stage `K` of that key. -/
def Marks (f : κ → Option (Address × ν)) (K : κ → ν → Stage) (stage : Address → Stage) : Prop :=
  ∀ k a v, f k = some (a, v) ↔ stage a = K k v

structure Placed (h : Nodes α) (head : Nat → Address) (own : Nat → Option (Address × Grade))
    (parked : Nat → Option (Address × Nat)) (stage : Address → Stage) (chain : Nat → List Address) :
    Prop where
  live : ∀ a, (h.plain? a).isSome ↔ stage a ≠ .free
  path : ∀ s, Path h.below? (head s) (chain s) .null
  linked : ∀ a s, a ∈ chain s ↔ stage a = .linked s
  owned : Marks own .own stage
  parked : Marks parked .parked stage

namespace Marks

variable {f : κ → Option (Address × ν)} {K : κ → ν → Stage} {stage : Address → Stage} {a : Address}
  {st : Stage}

/-- A node comes to another stage, none of which concerns the keys. -/
theorem stay (m : Marks f K stage) (old : ∀ k v, stage a ≠ K k v) (new : ∀ k v, st ≠ K k v) :
    Marks f K (Function.update stage a st) := by
  intro k b v
  rw [m k b v]
  by_cases hb : b = a
  · subst hb
    rw [Function.update_self]
    exact iff_of_false (old k v) (new k v)
  · rw [Function.update_of_ne hb]

/-- A node comes to another stage, which concerns one key at most. -/
theorem update [DecidableEq κ] (m : Marks f K stage) {k : κ} {o : Option (Address × ν)}
    (old : ∀ b v, f k = some (b, v) → b = a) (new : ∀ b v, o = some (b, v) ↔ b = a ∧ st = K k v)
    (others : ∀ j v, j ≠ k → stage a ≠ K j v ∧ st ≠ K j v) :
    Marks (Function.update f k o) K (Function.update stage a st) := by
  intro j b v
  by_cases hj : j = k
  · subst hj
    rw [Function.update_self, new]
    by_cases hb : b = a
    · subst hb
      simp
    · rw [Function.update_of_ne hb, ← m]
      exact iff_of_false (fun h => hb h.1) fun h => hb (old b v h)
  · rw [Function.update_of_ne hj, m]
    by_cases hb : b = a
    · subst hb
      rw [Function.update_self]
      exact iff_of_false (others j v hj).1 (others j v hj).2
    · rw [Function.update_of_ne hb]

end Marks

namespace Placed

variable {h h' : Nodes α} {head : Nat → Address} {own own' : Nat → Option (Address × Grade)}
  {parked parked' : Nat → Option (Address × Nat)} {stage : Address → Stage}
  {chain : Nat → List Address} {a b : Address} {i s e : Nat} {g : Grade} {st : Stage}

theorem start (h : Nodes α) (empty : ∀ a, h.plain? a = none) :
    Placed h (fun _ => .null) (fun _ => none) (fun _ => none) (fun _ => .free) fun _ => [] := by
  refine ⟨fun a => by simp [empty a], fun s => .nil _, fun a s => by simp, fun i a g => by simp,
    fun e a s => by simp⟩

theorem congr (k : Placed h head own parked stage chain) (same : h'.plain? = h.plain?) :
    Placed h' head own parked stage chain := by
  have below : h'.below? = h.below? := by
    funext a
    simp only [Nodes.below?, same]
  exact ⟨fun a => by rw [same, k.live], fun s => below ▸ k.path s, k.linked, k.owned, k.parked⟩

theorem stage_null (k : Placed h head own parked stage chain) : stage .null = .free :=
  not_not.mp fun hn => Bool.noConfusion ((k.live .null).mpr hn)

theorem exists_plain (k : Placed h head own parked stage chain) (ha : stage a ≠ .free) :
    ∃ x, h.plain? a = some x :=
  Option.isSome_iff_exists.mp ((k.live a).mpr ha)

/-- The node on top of a stack. -/
theorem top (k : Placed h head own parked stage chain) (hs : head s = a) (ha : a ≠ .null) :
    ∃ next rest, chain s = a :: rest ∧ h.below? a = some next ∧ Path h.below? next rest .null := by
  have p := k.path s
  rw [hs] at p
  obtain ⟨next, rest, hc, hn, q⟩ := p.exists_cons ha
  exact ⟨next, rest, hc, hn, q⟩

theorem stage_top (k : Placed h head own parked stage chain) (hs : head s = a) (ha : a ≠ .null) :
    stage a = .linked s := by
  obtain ⟨_, _, hc, -, -⟩ := k.top hs ha
  exact (k.linked a s).mp (by simp [hc])

theorem chain_eq_nil (k : Placed h head own parked stage chain) (hs : head s = .null) :
    chain s = [] := by
  have p := k.path s
  rw [hs] at p
  exact (p.of_end rfl).1

/-- A node that no stack is linked through comes to another such stage. -/
theorem turn (k : Placed h head own parked stage chain) (old : ∀ s, stage a ≠ .linked s)
    (new : ∀ s, st ≠ .linked s) (live : (h'.plain? a).isSome ↔ st ≠ .free)
    (same : ∀ b, b ≠ a → h'.plain? b = h.plain? b) (owned : Marks own' .own (Function.update stage a st))
    (parked : Marks parked' .parked (Function.update stage a st)) :
    Placed h' head own' parked' (Function.update stage a st) chain := by
  have notMem (s : Nat) : a ∉ chain s := fun ha => old s ((k.linked a s).mp ha)
  refine ⟨fun b => ?_, fun s => ?_, fun b s => ?_, owned, parked⟩
  · by_cases hb : b = a
    · subst hb
      rwa [Function.update_self]
    · rw [Function.update_of_ne hb, same b hb, k.live]
  · refine (k.path s).congr fun b hb => ?_
    unfold Nodes.below?
    rw [same b fun he => notMem s (he ▸ hb)]
  · by_cases hb : b = a
    · subst hb
      rw [Function.update_self]
      exact iff_of_false (notMem s) (new s)
    · rw [Function.update_of_ne hb, k.linked]

theorem alloc (k : Placed h head own parked stage chain) (hi : own i = none) (v : α) (next : Address) :
    Placed (h.alloc (.plain v next)) head
      (Function.update own i (some (.node h.next, .fresh))) parked
      (Function.update stage (.node h.next) (.own i .fresh)) chain := by
  have free : stage (.node h.next) = .free := by
    have := k.live (.node h.next)
    rw [h.plain?_next] at this
    simpa using this
  refine k.turn (by simp [free]) (by simp) ?_ (fun b hb => ?_)
    (k.owned.update (by simp [hi]) (fun b g => ?_) (by simp +contextual [free, eq_comm]))
    (k.parked.stay (by simp [free]) (by simp))
  · simp [Nodes.plain?_alloc]
  · rw [Nodes.plain?_alloc, if_neg hb]
  · rw [Option.some.injEq, Prod.mk.injEq, Stage.own.injEq]
    simp [eq_comm]

/-- A node that is not linked yet gets another link. -/
theorem relink (k : Placed h head own parked stage chain) (ha : stage a = .own i g) (next : Address) :
    Placed (h.updateAt a (·.setLink next)) head own parked stage chain := by
  rw [← Function.update_eq_self a stage]
  refine k.turn (by simp [ha]) (by simp [ha]) ?_ (fun b hb => ?_)
    (by rw [Function.update_eq_self]; exact k.owned) (by rw [Function.update_eq_self]; exact k.parked)
  · rw [Nodes.plain?_setLink, if_pos rfl, Option.isSome_map, k.live]
  · rw [Nodes.plain?_setLink, if_neg hb]

/-- The memory of a node goes back. -/
theorem release (k : Placed h head own parked stage chain) (hi : own i = some (a, g)) :
    Placed (h.release a) head (Function.update own i none) parked (Function.update stage a .free)
      chain := by
  have ha := (k.owned i a g).mp hi
  refine k.turn (by simp [ha]) (by simp) ?_ (fun b hb => ?_)
    (k.owned.update (fun b g' hb => ?_) (by simp) (fun j g' hj => by simp [ha, hj.symm]))
    (k.parked.stay (by simp [ha]) (by simp))
  · simp [Nodes.plain?_release]
  · rw [Nodes.plain?_release, if_neg hb]
  · rw [hi] at hb
    exact (Prod.mk.inj (Option.some.inj hb)).1.symm

theorem park (k : Placed h head own parked stage chain) (hi : own i = some (a, g))
    (he : parked e = none) (s : Nat) :
    Placed h head (Function.update own i none) (Function.update parked e (some (a, s)))
      (Function.update stage a (.parked e s)) chain := by
  have ha := (k.owned i a g).mp hi
  refine k.turn (by simp [ha]) (by simp) ?_ (fun _ _ => rfl)
    (k.owned.update (fun b g' hb => ?_) (by simp) (fun j g' hj => by simp [ha, hj.symm]))
    (k.parked.update (by simp [he]) (fun b t => ?_) (fun d t hd => by simp [ha, hd.symm]))
  · rw [k.live, ha]
    simp
  · rw [hi] at hb
    exact (Prod.mk.inj (Option.some.inj hb)).1.symm
  · rw [Option.some.injEq, Prod.mk.injEq, Stage.parked.injEq]
    simp [eq_comm]

theorem unpark (k : Placed h head own parked stage chain) (hi : own i = none)
    (he : parked e = some (a, s)) :
    Placed h head (Function.update own i (some (a, .spent s))) (Function.update parked e none)
      (Function.update stage a (.own i (.spent s))) chain := by
  have ha := (k.parked e a s).mp he
  refine k.turn (by simp [ha]) (by simp) ?_ (fun _ _ => rfl)
    (k.owned.update (by simp [hi]) (fun b g => ?_) (fun j g' hj => by simp [ha, hj.symm]))
    (k.parked.update (fun b t hb => ?_) (by simp) (fun d t hd => by simp [ha, hd.symm]))
  · rw [k.live, ha]
    simp
  · rw [Option.some.injEq, Prod.mk.injEq, Stage.own.injEq]
    simp [eq_comm]
  · rw [he] at hb
    exact (Prod.mk.inj (Option.some.inj hb)).1.symm

/-- A new node is linked above the others. -/
theorem push (k : Placed h head own parked stage chain) (hi : own i = some (a, .fresh))
    (hb : h.below? a = some (head s)) :
    Placed h (Function.update head s a) (Function.update own i none) parked
      (Function.update stage a (.linked s)) (Function.update chain s (a :: chain s)) := by
  have ha := (k.owned i a .fresh).mp hi
  refine ⟨fun b => ?_, fun t => ?_, fun b t => ?_,
    k.owned.update (fun b g' hb => ?_) (by simp) (fun j g' hj => by simp [ha, hj.symm]),
    k.parked.stay (by simp [ha]) (by simp)⟩
  · by_cases hb : b = a
    · subst hb
      rw [Function.update_self, k.live, ha]
      simp
    · rw [Function.update_of_ne hb, k.live]
  · by_cases ht : t = s
    · subst ht
      rw [Function.update_self, Function.update_self]
      exact .cons hb (k.path t)
    · rw [Function.update_of_ne ht, Function.update_of_ne ht]
      exact k.path t
  · have hl := k.linked b t
    by_cases ht : t = s <;> by_cases hb : b = a
    · simp [ht, hb]
    · rw [ht] at hl ⊢
      rw [Function.update_self, Function.update_of_ne hb, List.mem_cons, hl]
      exact or_iff_right hb
    · rw [hb] at hl ⊢
      rw [Function.update_of_ne ht, Function.update_self, hl, ha]
      simp [Ne.symm ht]
    · rw [Function.update_of_ne ht, Function.update_of_ne hb, hl]
  · rw [hi] at hb
    exact (Prod.mk.inj (Option.some.inj hb)).1.symm

/-- The top node comes off. -/
theorem pop {rest : List Address} (k : Placed h head own parked stage chain) (hi : own i = none)
    (hc : chain s = a :: rest) (hb : h.below? a = some b) (hp : Path h.below? b rest .null) :
    Placed h (Function.update head s b) (Function.update own i (some (a, .taken s))) parked
      (Function.update stage a (.own i (.taken s))) (Function.update chain s rest) := by
  have ha : stage a = .linked s := (k.linked a s).mp (by simp [hc])
  have hnd : (a :: rest).Nodup := hc ▸ (k.path s).nodup rfl
  refine ⟨fun b => ?_, fun t => ?_, fun b t => ?_,
    k.owned.update (by simp [hi]) (fun b g => ?_) (fun j g' hj => by simp [ha, hj.symm]),
    k.parked.stay (by simp [ha]) (by simp)⟩
  · by_cases hb : b = a
    · subst hb
      rw [Function.update_self, k.live, ha]
      simp
    · rw [Function.update_of_ne hb, k.live]
  · by_cases ht : t = s
    · subst ht
      rwa [Function.update_self, Function.update_self]
    · rw [Function.update_of_ne ht, Function.update_of_ne ht]
      exact k.path t
  · have hl := k.linked b t
    by_cases ht : t = s <;> by_cases hb : b = a
    · rw [ht, hb, Function.update_self, Function.update_self]
      exact iff_of_false (List.nodup_cons.mp hnd).1 (by simp)
    · rw [ht] at hl ⊢
      rw [Function.update_self, Function.update_of_ne hb, ← hl, hc, List.mem_cons]
      exact (or_iff_right hb).symm
    · rw [hb] at hl ⊢
      rw [Function.update_of_ne ht, Function.update_self, hl, ha]
      simp [Ne.symm ht]
    · rw [Function.update_of_ne ht, Function.update_of_ne hb, hl]
  · rw [Option.some.injEq, Prod.mk.injEq, Stage.own.injEq]
    simp [eq_comm]

end Placed

end Hazard

end LockFreeStack
