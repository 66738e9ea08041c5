import LockFreeStack.Proofs.History
import Mathlib.Data.List.Count
import Mathlib.Data.List.Perm.Subperm

/-!
What goes in with the calls of a history and comes out with its answers, against the effects in
between. The two are compared thread by thread, and operation by operation within a thread.
-/

namespace LockFreeStack

section Part

variable {κ β : Type} [DecidableEq κ] {l l' : List (κ × β)} {k : κ}

/-- What a list of tagged things has under a tag. -/
def part (k : κ) (l : List (κ × β)) : List β := (l.filter (·.1 = k)).map Prod.snd

theorem part_append (k : κ) (l l' : List (κ × β)) : part k (l ++ l') = part k l ++ part k l' := by
  simp [part]

theorem part_eq_nil (h : ∀ x ∈ l, x.1 ≠ k) : part k l = [] := by
  rw [part, List.filter_eq_nil_iff.mpr (by simpa using h), List.map_nil]

theorem part_self (k : κ) (o : Option β) : part k (o.map (k, ·)).toList = o.toList := by
  cases o <;> simp [part]

theorem part_cons (k : κ) (y : β) (l : List (κ × β)) : part k ((k, y) :: l) = y :: part k l := by
  simp [part]

theorem part_cons_of_ne {j : κ} (hj : j ≠ k) (y : β) (l : List (κ × β)) :
    part k ((j, y) :: l) = part k l := by
  simp [part, hj]

theorem mem_of_mem_part {y : β} (h : y ∈ part k l) : (k, y) ∈ l := by
  obtain ⟨x, hx, rfl⟩ := List.mem_map.mp h
  obtain ⟨hl, hk⟩ := List.mem_filter.mp hx
  rwa [← of_decide_eq_true hk]

theorem subperm_of_parts (h : ∀ k, (part k l).Subperm (part k l')) : l.Subperm l' := by
  induction l generalizing l' with
  | nil => exact List.nil_subperm
  | cons x l ih =>
    obtain ⟨k, y⟩ := x
    have hk := h k
    rw [part_cons] at hk
    obtain ⟨s, t, rfl⟩ := List.append_of_mem (mem_of_mem_part (hk.subset List.mem_cons_self))
    apply List.Subperm.trans _ List.perm_middle.symm.subperm
    apply (List.subperm_cons _).mpr
    apply ih
    intro j
    rw [part_append]
    by_cases hj : k = j
    · subst hj
      rw [part_append, part_cons] at hk
      exact (List.subperm_cons _).mp (hk.trans List.perm_middle.subperm)
    · have hrest := h j
      rwa [part_append, part_cons_of_ne hj, part_cons_of_ne hj] at hrest

theorem perm_of_parts (h : ∀ k, (part k l).Perm (part k l')) : l.Perm l' :=
  (subperm_of_parts fun k => (h k).subperm).antisymm (subperm_of_parts fun k => (h k).symm.subperm)

theorem length_le_of_parts {γ : Type} {l' : List (κ × γ)}
    (h : ∀ k, (part k l).length ≤ (part k l').length) : l.length ≤ l'.length := by
  have blank {δ : Type} (k : κ) (l : List (κ × δ)) :
      part k (l.map fun x => (x.1, ())) = List.replicate (part k l).length () := by
    simp [part, List.filter_map, Function.comp_def, List.map_const']
  have sub : (l.map fun x => (x.1, ())).Subperm (l'.map fun x => (x.1, ())) := by
    apply subperm_of_parts
    intro k
    rw [blank, blank]
    exact (List.replicate_sublist_replicate ()).mpr (h k) |>.subperm
  simpa using sub.length_le

end Part

variable {ι ο α β γ : Type}

/-- What an answer hands out. -/
def Answer.value? : Answer α → Option α
  | popped v => v
  | _ => none

def Answer.isPanic : Answer α → Bool
  | trouble (.panic _) => true
  | _ => false

namespace Moment

/-- What is due because of a call or of an answer. -/
def due? (owed : ο → Option β) (paid : Answer α → Option β) : Moment ι ο α → Option (ι × β)
  | call i c => (owed c).map (i, ·)
  | answer i a => (paid a).map (i, ·)
  | effect _ _ => none

/-- What an effect has brought about. -/
def had? (had : Effect α → Option β) : Moment ι ο α → Option (ι × β)
  | effect i e => (had e).map (i, ·)
  | _ => none

variable {owed : ο → Option β} {had : Effect α → Option β} {paid : Answer α → Option β}
  {m : Moment ι ο α} {x : ι × β}

theorem thread_of_due? (h : m.due? owed paid = some x) : x.1 = m.thread := by
  cases m with
  | effect => cases h
  | call i c | answer i a =>
    obtain ⟨y, -, rfl⟩ := Option.map_eq_some_iff.mp h
    rfl

theorem thread_of_had? (h : m.had? had = some x) : x.1 = m.thread := by
  cases m with
  | effect i e =>
    obtain ⟨y, -, rfl⟩ := Option.map_eq_some_iff.mp h
    rfl
  | _ => cases h

def given? (owed : ο → Option α) : Moment ι ο α → Option α
  | call _ c => owed c
  | _ => none

def returned? : Moment ι ο α → Option α
  | answer _ a => a.value?
  | _ => none

def panics : Moment ι ο α → Bool
  | answer _ a => a.isPanic
  | _ => false

end Moment

section Receipts

/-- What has been had without the tags of the threads. -/
theorem map_had (h : List (Moment ι ο α)) (had : Effect α → Option β) :
    (h.filterMap (Moment.had? had)).map Prod.snd = (h.filterMap Moment.effect?).filterMap had := by
  rw [List.map_filterMap, List.filterMap_filterMap]
  congr 1
  funext m
  cases m with
  | effect i e => simp [Moment.had?, Moment.effect?, Function.comp_def]
  | _ => rfl

theorem map_given (h : List (Moment ι ο α)) (owed : ο → Option α) :
    (h.filterMap (Moment.due? owed fun _ => none)).map Prod.snd = h.filterMap (Moment.given? owed) := by
  rw [List.map_filterMap]
  congr 1
  funext m
  cases m with
  | call i c => simp [Moment.due?, Moment.given?, Function.comp_def]
  | _ => rfl

theorem map_returned (h : List (Moment ι ο α)) :
    (h.filterMap (Moment.due? (fun _ => none) Answer.value?)).map Prod.snd =
      h.filterMap Moment.returned? := by
  rw [List.map_filterMap]
  congr 1
  funext m
  cases m with
  | answer i a => simp [Moment.due?, Moment.returned?, Function.comp_def]
  | _ => rfl

namespace Account

variable [DecidableEq ι] {Fits : ο → List (Effect α) → Answer α → Prop} {i : ι}
  {h : List (Moment ι ο α)} {st : Activity ο α}

/-- What a thread has had is in the relation `R` to what has been due to it, apart from its present
operation. -/
def Settled (had : Effect α → Option β) (owed : ο → Option γ) (R : List β → List γ → Prop)
    (has : List β) (due : List γ) : Activity ο α → Prop
  | .idle => R has due
  | .busy c es => ∃ has₀ due₀, R has₀ due₀ ∧ has = has₀ ++ es.filterMap had ∧
      due = due₀ ++ (owed c).toList

/-- If in each operation what is had fits what is due, so it does in all of them together. -/
theorem settled (had : Effect α → Option β) (owed : ο → Option γ) (paid : Answer α → Option γ)
    (R : List β → List γ → Prop) (nil : R [] [])
    (append : ∀ {k k' l l'}, R k l → R k' l' → R (k ++ k') (l ++ l'))
    (fits : ∀ c es a, Fits c es a → R (es.filterMap had) ((owed c).toList ++ (paid a).toList))
    (account : Account Fits i h st) :
    Settled had owed R (part i (h.filterMap (Moment.had? had)))
      (part i (h.filterMap (Moment.due? owed paid))) st := by
  have grown {δ ε : Type} (f : δ → Option (ι × ε)) (l : List δ) (y : δ) :
      part i ((l ++ [y]).filterMap f) = part i (l.filterMap f) ++ part i (f y).toList := by
    rw [List.filterMap_append, part_append]
    cases hy : f y <;> simp [hy]
  induction account with
  | nil => exact nil
  | @other h st m before hm ih =>
    have hadNone : part i (m.had? had).toList = [] := by
      apply part_eq_nil
      intro x hx
      rw [Moment.thread_of_had? (Option.mem_toList.mp hx)]
      exact hm
    have dueNone : part i (m.due? owed paid).toList = [] := by
      apply part_eq_nil
      intro x hx
      rw [Moment.thread_of_due? (Option.mem_toList.mp hx)]
      exact hm
    rwa [grown, grown, hadNone, dueNone, List.append_nil, List.append_nil]
  | @call h c before ih =>
    rw [grown, grown]
    exact ⟨_, _, ih, rfl, congrArg _ (part_self i _)⟩
  | @effect h c es e before ih =>
    obtain ⟨has₀, due₀, hr, hhas, hdue⟩ := ih
    refine ⟨has₀, due₀, hr, ?_, ?_⟩
    · rw [grown, hhas, List.append_assoc, List.filterMap_append]
      cases he : had e <;> simp [Moment.had?, he, part]
    · rw [grown, hdue]
      exact List.append_nil _
  | @answer h c es a before fit ih =>
    obtain ⟨has₀, due₀, hr, hhas, hdue⟩ := ih
    have hends := append hr (fits c es a fit)
    rw [← hhas, ← List.append_assoc, ← hdue] at hends
    rw [Settled, grown, grown]
    rwa [show part i (Moment.had? had (.answer i a : Moment ι ο α)).toList = [] from rfl, List.append_nil,
      show part i (Moment.due? owed paid (.answer i a)).toList = (paid a).toList from part_self i _]

end Account

end Receipts

section Values

variable [DecidableEq ι] {Fits : ο → List (Effect α) → Answer α → Prop} {h : List (Moment ι ο α)}

/-- If each operation has pushed what its call was given, so have all of them together. -/
theorem perm_given (owed : ο → Option α) (accounts : ∀ i, Account Fits i h .idle)
    (fits : ∀ c es a, Fits c es a → es.filterMap Effect.pushed? = (owed c).toList) :
    ((h.filterMap Moment.effect?).filterMap Effect.pushed?).Perm (h.filterMap (Moment.given? owed)) := by
  rw [← map_had, ← map_given]
  apply List.Perm.map
  apply perm_of_parts
  intro i
  apply List.Perm.of_eq
  refine (accounts i).settled Effect.pushed? owed (fun _ => none) Eq rfl ?_ ?_
  · rintro _ _ _ _ rfl rfl
    rfl
  · intro c es a hf
    rw [fits c es a hf, Option.toList_none, List.append_nil]

/-- If each operation has answered with what it has popped, so have all of them together. -/
theorem perm_returned (accounts : ∀ i, Account Fits i h .idle)
    (fits : ∀ c es a, Fits c es a → es.filterMap Effect.popped? = a.value?.toList) :
    ((h.filterMap Moment.effect?).filterMap Effect.popped?).Perm (h.filterMap Moment.returned?) := by
  rw [← map_had, ← map_returned]
  apply List.Perm.map
  apply perm_of_parts
  intro i
  apply List.Perm.of_eq
  refine (accounts i).settled Effect.popped? (fun _ => none) Answer.value? Eq rfl ?_ ?_
  · rintro _ _ _ _ rfl rfl
    rfl
  · intro c es a hf
    rw [fits c es a hf, Option.toList_none, List.nil_append]

/-- An answer with a value, or with a panic. -/
def Answer.ends? : Answer α → Option Unit
  | popped (some _) | trouble (.panic _) => some ()
  | _ => none

omit [DecidableEq ι] in
theorem length_ends (h : List (Moment ι ο α)) :
    (h.filterMap (Moment.due? (fun _ => none) Answer.ends?)).length =
      (h.filterMap Moment.returned?).length + h.countP Moment.panics := by
  have one (m : Moment ι ο α) : (if (m.due? (fun _ => none) Answer.ends?).isSome then 1 else 0) =
      (if m.returned?.isSome then 1 else 0) + if m.panics then 1 else 0 := by
    cases m with
    | answer i a =>
      cases a with
      | popped v => cases v <;> rfl
      | trouble t => cases t <;> rfl
      | _ => rfl
    | _ => rfl
  rw [List.length_filterMap_eq_countP, List.length_filterMap_eq_countP]
  induction h with
  | nil => rfl
  | cons m h ih =>
    rw [List.countP_cons, List.countP_cons, List.countP_cons, ih, one]
    omega

/-- If each operation has answered with what it has popped, or with a panic, there are as many panics
as values lost. -/
theorem exists_lost (accounts : ∀ i, Account Fits i h .idle)
    (fits : ∀ c es a, Fits c es a → (a.value?.toList).Sublist (es.filterMap Effect.popped?) ∧
      (es.filterMap Effect.popped?).length ≤ a.ends?.toList.length) :
    ∃ lost, ((h.filterMap Moment.effect?).filterMap Effect.popped?).Perm
        (h.filterMap Moment.returned? ++ lost) ∧ lost.length ≤ h.countP Moment.panics := by
  have values : (h.filterMap (Moment.due? (fun _ => none) Answer.value?)).Subperm
      (h.filterMap (Moment.had? Effect.popped?)) := by
    apply subperm_of_parts
    intro i
    apply List.Sublist.subperm
    refine (accounts i).settled Effect.popped? (fun _ => none) Answer.value?
      (fun has due => due.Sublist has) (.refl _) ?_ ?_
    · exact fun h h' => h.append h'
    · exact fun c es a hf => (fits c es a hf).1
  have number : (h.filterMap (Moment.had? Effect.popped?)).length ≤
      (h.filterMap (Moment.due? (fun _ => none) Answer.ends?)).length := by
    apply length_le_of_parts
    intro i
    refine Account.settled Effect.popped? (fun _ : ο => none) (Answer.ends? (α := α))
      (fun has due => has.length ≤ due.length) (Nat.le_refl _) ?_ ?_ (accounts i)
    · intro _ _ _ _ h h'
      rw [List.length_append, List.length_append]
      exact Nat.add_le_add h h'
    · exact fun c es a hf => (fits c es a hf).2
  obtain ⟨l, hl, sub⟩ := values
  obtain ⟨lost, hperm⟩ := sub.exists_perm_append
  have hsplit := hperm.trans (hl.append_right lost)
  refine ⟨lost.map Prod.snd, ?_, ?_⟩
  · rw [← map_had, ← map_returned, ← List.map_append]
    exact hsplit.map Prod.snd
  · have hlen := hsplit.length_eq
    rw [length_ends, hlen, List.length_append, ← map_returned, List.length_map] at number
    rw [List.length_map]
    exact Nat.le_of_add_le_add_left number

end Values

end LockFreeStack
