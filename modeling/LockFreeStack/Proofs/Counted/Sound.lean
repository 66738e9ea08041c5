import LockFreeStack.Proofs.Counted.Balance
import LockFreeStack.Proofs.Counted.Crowd
import Mathlib.Algebra.BigOperators.Group.Finset.Piecewise
import Mathlib.Data.Fintype.Basic

/-!
What holds between any two moves on a counted stack. Every node is in one stage of its life, a
node's counts are balanced with its holders, and each thread stands where its nodes are.
-/

namespace LockFreeStack

/-- The pair below the node that a pair points to. -/
def Nodes.beneath? {α : Type} (h : Nodes α) (p : Pair Address) : Option (Pair Address) :=
  (h.counted? p.address).map fun x => x.2.1

namespace Counted

variable {ι α : Type}

theorem beneath?_congr {h h' : Nodes α} {p : Pair Address}
    (e : h'.counted? p.address = h.counted? p.address) : h'.beneath? p = h.beneath? p := by
  simp [Nodes.beneath?, e]

/-- The node that a thread holds a reference to. -/
def holder? (o : Option (Point α)) : Option Address := (o.bind Point.held?).map Pair.address

/-- Where thread `i` stands agrees with the stages of the nodes, and a pop that has read the pair
below its node still finds it there. -/
structure Stands (h : Nodes α) (stage : Address → Stage ι) (i : ι) (o : Option (Point α)) :
    Prop where
  fresh : ∀ a, stage a = .fresh i ↔ o.bind Point.fresh? = some a
  taken : ∀ a c, stage a = .taken i c ↔ o.bind Point.taken? = some ⟨c, a⟩
  spent : ∀ a, stage a = .spent i ↔ o.bind Point.spent? = some a
  held : ∀ a, holder? o = some a → (stage a).IsKept
  next : ∀ held next, o = some (.pop (.detach held next)) → h.beneath? held = some next

section Stands

variable {h h' : Nodes α} {stage : Address → Stage ι} {i j : ι} {o o' : Option (Point α)}
  {a : Address} {st : Stage ι}

theorem Stands.held_address (s : Stands h stage i o) {held : Pair Address}
    (ho : o.bind Point.held? = some held) : (stage held.address).IsKept :=
  s.held _ (by simp [holder?, ho])

theorem Stands.isKept_of_taken (s : Stands h stage i o) {held : Pair Address}
    (ho : o.bind Point.taken? = some held) : stage held.address = .taken i held.count :=
  (s.taken _ _).mpr ho

/-- A change of a node that is in the hands of other threads does not move this one. -/
theorem Stands.other [DecidableEq ι] (s : Stands h stage j o)
    (hands : st = stage a ∨ ¬(stage a).IsOf j ∧ ¬st.IsOf j)
    (kept : holder? o = some a → st.IsKept)
    (next : ∀ p, holder? o = some p.address → h'.beneath? p = h.beneath? p) :
    Stands h' (Function.update stage a st) j o := by
  have hof : ∀ {b : Address} {t : Stage ι}, t.IsOf j →
      (Function.update stage a st b = t ↔ stage b = t) := by
    intro b t ht
    by_cases hb : b = a
    · subst hb
      rw [Function.update_self]
      obtain rfl | ⟨before, after⟩ := hands
      · rfl
      · exact ⟨fun e => (after (e ▸ ht)).elim, fun e => (before (e ▸ ht)).elim⟩
    · rw [Function.update_of_ne hb]
  refine ⟨fun b => ?_, fun b c => ?_, fun b => ?_, fun b hb => ?_, fun held nx ho => ?_⟩
  · rw [hof (t := .fresh j) rfl, s.fresh]
  · rw [hof (t := .taken j c) rfl, s.taken]
  · rw [hof (t := .spent j) rfl, s.spent]
  · by_cases hba : b = a
    · subst hba
      rw [Function.update_self]
      exact kept hb
    · rw [Function.update_of_ne hba]
      exact s.held b hb
  · rw [next held (by simp [ho, holder?, Point.held?])]
    exact s.next held nx ho

/-- The thread in whose hands the one node is that changes. -/
theorem Stands.mine [DecidableEq ι] (s : Stands h stage i o)
    (fresh : ∀ b, o.bind Point.fresh? = some b → b = a)
    (taken : ∀ p, o.bind Point.taken? = some p → p.address = a)
    (spent : ∀ b, o.bind Point.spent? = some b → b = a)
    (fresh' : ∀ b, o'.bind Point.fresh? = some b ↔ b = a ∧ st = .fresh i)
    (taken' : ∀ c b, o'.bind Point.taken? = some ⟨c, b⟩ ↔ b = a ∧ st = .taken i c)
    (spent' : ∀ b, o'.bind Point.spent? = some b ↔ b = a ∧ st = .spent i)
    (held : ∀ b, holder? o' = some b → b = a ∧ st.IsKept)
    (next : ∀ held nx, o' = some (.pop (.detach held nx)) → h'.beneath? held = some nx) :
    Stands h' (Function.update stage a st) i o' where
  fresh b := by
    rw [fresh']
    by_cases hb : b = a
    · simp [hb]
    · rw [Function.update_of_ne hb, s.fresh]
      exact ⟨fun e => (hb (fresh b e)).elim, fun e => (hb e.1).elim⟩
  taken b c := by
    rw [taken']
    by_cases hb : b = a
    · simp [hb]
    · rw [Function.update_of_ne hb, s.taken]
      exact ⟨fun e => (hb (taken _ e)).elim, fun e => (hb e.1).elim⟩
  spent b := by
    rw [spent']
    by_cases hb : b = a
    · simp [hb]
    · rw [Function.update_of_ne hb, s.spent]
      exact ⟨fun e => (hb (spent b e)).elim, fun e => (hb e.1).elim⟩
  held b hb := by
    obtain ⟨rfl, hk⟩ := held b hb
    rwa [Function.update_self]
  next := next

end Stands

namespace Crowd

variable [DecidableEq ι] [Fintype ι] {x : Crowd ι α} {stage : Address → Stage ι}
  {l l' : List (Pair Address)} {i : ι} {m : Store α} {o : Option (Point α)} {a : Address}
  {st : Stage ι}

/-- The number of references to a node that pops hold. -/
def holders (x : Crowd ι α) (a : Address) : Nat :=
  (Finset.univ.filter fun i => holder? (x.point i) = some a).card

theorem holders_set (x : Crowd ι α) (i : ι) (m : Store α) (o : Option (Point α)) (a : Address) :
    (x.set i m o).holders a + (if holder? (x.point i) = some a then 1 else 0) =
      x.holders a + if holder? o = some a then 1 else 0 := by
  have hrest : ∑ j ∈ Finset.univ.erase i,
      (if holder? ((x.set i m o).point j) = some a then 1 else 0) =
      ∑ j ∈ Finset.univ.erase i, if holder? (x.point j) = some a then 1 else 0 := by
    refine Finset.sum_congr rfl fun j hj => ?_
    simp [set, Function.update_of_ne (Finset.ne_of_mem_erase hj)]
  unfold holders
  rw [Finset.card_filter, Finset.card_filter,
    ← Finset.add_sum_erase _ _ (Finset.mem_univ i), hrest,
    ← Finset.add_sum_erase _ (fun j => if holder? (x.point j) = some a then 1 else 0)
      (Finset.mem_univ i)]
  simp only [set, Function.update_self]
  omega

omit [DecidableEq ι] in
theorem holder?_ne_of_holders_eq_zero (h : x.holders a = 0) (j : ι) :
    holder? (x.point j) ≠ some a := by
  intro hj
  have := Finset.card_eq_zero.mp h
  exact Finset.eq_empty_iff_forall_notMem.mp this j (by simp [hj])

omit [DecidableEq ι] in
theorem holders_pos (hi : holder? (x.point i) = some a) : 0 < x.holders a := by
  by_contra h
  exact holder?_ne_of_holders_eq_zero (Nat.eq_zero_of_not_pos h) i hi

omit [DecidableEq ι] in
/-- A thread that holds a reference is one of the holders. -/
theorem exists_holders (x : Crowd ι α) (i : ι) (held : Pair Address)
    (ho : (x.point i).bind Point.held? = some held) : ∃ h, x.holders held.address = h + 1 :=
  Nat.exists_eq_succ_of_ne_zero (Nat.ne_of_gt (holders_pos (i := i) (by simp [holder?, ho])))

/-- `l` are the pairs from the head down that point to a node. -/
structure Sound (x : Crowd ι α) (stage : Address → Stage ι) (l : List (Pair Address)) : Prop where
  live : ∀ a, stage a ≠ .free ↔ (x.store.nodes.counted? a).isSome
  chain : ∃ count, Path x.store.nodes.beneath? x.store.head l ⟨count, .null⟩
  linked : ∀ p, p ∈ l ↔ stage p.address = .linked p.count
  balanced : ∀ a v next n, x.store.nodes.counted? a = some (v, next, n) →
    (stage a).Balanced (x.holders a) n
  stands : ∀ i, Stands x.store.nodes stage i (x.point i)

namespace Sound

/-- Thread `i` goes on to `o`, and no node and no stage changes. -/
theorem quiet (s : x.Sound stage l) (i : ι) (nodes : ∀ b, m.nodes.counted? b = x.store.nodes.counted? b)
    (chain : ∃ count, Path m.nodes.beneath? m.head l ⟨count, .null⟩)
    (fresh : o.bind Point.fresh? = (x.point i).bind Point.fresh?)
    (held : o.bind Point.held? = (x.point i).bind Point.held?)
    (taken : o.bind Point.taken? = (x.point i).bind Point.taken?)
    (spent : o.bind Point.spent? = (x.point i).bind Point.spent?)
    (next : ∀ held nx, o = some (.pop (.detach held nx)) → m.nodes.beneath? held = some nx) :
    (x.set i m o).Sound stage l where
  live b := by rw [s.live]; simp [set, nodes]
  chain := chain
  linked := s.linked
  balanced b v nx n hb := by
    have hh := holders_set x i m o b
    have hsame : holder? o = holder? (x.point i) := by simp [holder?, held]
    rw [hsame] at hh
    rw [Nat.add_right_cancel hh]
    exact s.balanced b v nx n (by rw [← nodes]; exact hb)
  stands j := by
    by_cases hj : j = i
    · subst hj
      have t := s.stands j
      simp only [set, Function.update_self]
      exact ⟨fun a => by rw [t.fresh, fresh], fun a c => by rw [t.taken, taken],
        fun a => by rw [t.spent, spent],
        fun a ha => t.held a (by simpa [holder?, held] using ha), next⟩
    · have t := s.stands j
      simp only [set, Function.update_of_ne hj]
      exact ⟨t.fresh, t.taken, t.spent, t.held, fun held nx ho => by
        rw [beneath?_congr (nodes _)]; exact t.next held nx ho⟩

/-- Thread `i` goes on to `o`, and only the node at `a` changes, which comes to the stage `st`. -/
theorem change (s : x.Sound stage l) (i : ι) (a : Address) (st : Stage ι)
    (was : ∀ b, holder? (x.point i) = some b → b = a) (is : ∀ b, holder? o = some b → b = a)
    (nodes : ∀ b ≠ a, m.nodes.counted? b = x.store.nodes.counted? b)
    (hands : ∀ j ≠ i, st = stage a ∨ ¬(stage a).IsOf j ∧ ¬st.IsOf j)
    (live : st ≠ .free ↔ (m.nodes.counted? a).isSome)
    (kept : ∀ j ≠ i, holder? (x.point j) = some a → st.IsKept)
    (next : (stage a).IsKept → ∀ p : Pair Address, p.address = a →
      m.nodes.beneath? p = x.store.nodes.beneath? p)
    (balanced : ∀ v next n, m.nodes.counted? a = some (v, next, n) →
      st.Balanced ((x.set i m o).holders a) n)
    (chain : ∃ count, Path m.nodes.beneath? m.head l' ⟨count, .null⟩)
    (linked : ∀ p, p ∈ l' ↔ Function.update stage a st p.address = .linked p.count)
    (mine : Stands m.nodes (Function.update stage a st) i o) :
    (x.set i m o).Sound (Function.update stage a st) l' where
  live b := by
    by_cases hb : b = a
    · subst hb
      rw [Function.update_self]
      exact live
    · rw [Function.update_of_ne hb, s.live]
      simp [set, nodes b hb]
  chain := chain
  linked := linked
  balanced b v nx n hv := by
    by_cases hb : b = a
    · subst hb
      rw [Function.update_self]
      exact balanced v nx n hv
    · have hh := holders_set x i m o b
      rw [if_neg fun h => hb (was b h), if_neg fun h => hb (is b h)] at hh
      rw [Function.update_of_ne hb, Nat.add_right_cancel hh]
      exact s.balanced b v nx n (by rw [← nodes b hb]; exact hv)
  stands j := by
    by_cases hj : j = i
    · subst hj
      simpa only [set, Function.update_self] using mine
    · simp only [set, Function.update_of_ne hj]
      refine (s.stands j).other (hands j hj) (kept j hj) fun p hp => ?_
      by_cases hpa : p.address = a
      · exact next (hpa ▸ (s.stands j).held _ hp) p hpa
      · exact beneath?_congr (nodes _ hpa)

omit [DecidableEq ι] in
theorem holders_eq_zero (s : x.Sound stage l) (h : ¬(stage a).IsKept) : x.holders a = 0 := by
  by_contra hne
  obtain ⟨j, hj⟩ := Finset.card_pos.mp (Nat.pos_of_ne_zero hne)
  exact h ((s.stands j).held a (by simpa using hj))

/-- The same for a node that nobody holds and that is in the hands of no other thread. -/
theorem changeAlone (s : x.Sound stage l) (i : ι) (a : Address) (st : Stage ι)
    (alone : ¬(stage a).IsKept) (before : ∀ j ≠ i, ¬(stage a).IsOf j) (after : ∀ j ≠ i, ¬st.IsOf j)
    (was : holder? (x.point i) = none) (is : holder? o = none)
    (nodes : ∀ b ≠ a, m.nodes.counted? b = x.store.nodes.counted? b)
    (live : st ≠ .free ↔ (m.nodes.counted? a).isSome)
    (balanced : ∀ v next n, m.nodes.counted? a = some (v, next, n) → st.Balanced 0 n)
    (chain : ∃ count, Path m.nodes.beneath? m.head l' ⟨count, .null⟩)
    (linked : ∀ p, p ∈ l' ↔ Function.update stage a st p.address = .linked p.count)
    (mine : Stands m.nodes (Function.update stage a st) i o) :
    (x.set i m o).Sound (Function.update stage a st) l' := by
  have hh := holders_set x i m o a
  rw [s.holders_eq_zero alone, if_neg (by simp [was]), if_neg (by simp [is]), Nat.add_zero] at hh
  refine s.change i a st (by simp [was]) (by simp [is]) nodes
    (fun j hj => .inr ⟨before j hj, after j hj⟩) live ?_ ?_ ?_ chain linked mine
  · exact fun j _ hj => (alone ((s.stands j).held a hj)).elim
  · exact fun h => (alone h).elim
  · intro v nx n hv
    rw [hh]
    exact balanced v nx n hv

omit [DecidableEq ι] in
theorem exists_counted (s : x.Sound stage l) (h : stage a ≠ .free) :
    ∃ v next n, x.store.nodes.counted? a = some (v, next, n) := by
  obtain ⟨⟨v, next, n⟩, e⟩ := Option.isSome_iff_exists.mp ((s.live a).mp h)
  exact ⟨v, next, n, e⟩

omit [DecidableEq ι] in
theorem nodup (s : x.Sound stage l) : l.Nodup := by
  obtain ⟨count, path⟩ := s.chain
  exact path.nodup rfl

omit [DecidableEq ι] in
/-- The head of a stack that is not empty is the first pair of the chain. -/
theorem chain_cons (s : x.Sound stage l) (h : x.store.head.address ≠ .null) :
    ∃ next l₁ count, l = x.store.head :: l₁ ∧ x.store.nodes.beneath? x.store.head = some next ∧
      Path x.store.nodes.beneath? next l₁ ⟨count, .null⟩ ∧ ∀ p ∈ l₁, p.address ≠ x.store.head.address := by
  obtain ⟨count, path⟩ := s.chain
  obtain ⟨next, l₁, rfl, hn, rest⟩ := path.exists_cons fun e => h (by rw [e])
  refine ⟨next, l₁, count, rfl, hn, rest, fun p hp hpa => ?_⟩
  -- Two pairs of the chain with one address have the count of the node's stage in common.
  have hc := (s.linked p).mp (by simp [hp])
  rw [hpa, (s.linked x.store.head).mp (by simp)] at hc
  have : p = x.store.head := Pair.ext (by simpa using hc.symm) hpa
  exact (List.nodup_cons.mp s.nodup).1 (this ▸ hp)

omit [DecidableEq ι] in
theorem chain_nil (s : x.Sound stage l) (h : x.store.head.address = .null) : l = [] := by
  obtain ⟨count, path⟩ := s.chain
  exact (path.of_end (by rw [Nodes.beneath?, h]; rfl)).1

omit [DecidableEq ι] in
/-- A node that is not linked stays out of the chain when it changes. -/
theorem linked_update (s : x.Sound stage l) (before : ∀ c, stage a ≠ .linked c)
    (after : ∀ c, st ≠ .linked c) (p : Pair Address) :
    p ∈ l ↔ Function.update stage a st p.address = .linked p.count := by
  rw [s.linked]
  by_cases hp : p.address = a
  · rw [hp, Function.update_self]
    exact ⟨fun h => (before _ h).elim, fun h => (after _ h).elim⟩
  · rw [Function.update_of_ne hp]

omit [DecidableEq ι] in
/-- The chain stays as it is while none of its nodes changes. -/
theorem chain_congr (s : x.Sound stage l) (before : ∀ c, stage a ≠ .linked c)
    (nodes : ∀ b ≠ a, m.nodes.counted? b = x.store.nodes.counted? b)
    (head : m.head = x.store.head) : ∃ count, Path m.nodes.beneath? m.head l ⟨count, .null⟩ := by
  obtain ⟨count, path⟩ := s.chain
  refine ⟨count, head ▸ path.congr fun p hp => beneath?_congr (nodes _ ?_)⟩
  rintro rfl
  exact before _ ((s.linked p).mp hp)

end Sound

end Crowd

end Counted

end LockFreeStack
