import LockFreeStack.Proofs.Counted.Content

/-!
No pair that is about anywhere has a large count, as long as the counts of the head fit. A pair
comes into being with a count of at most one, and its count goes up only while it is the head. So
no node is ever lost, and the number of a node's holders is far from a word's size.
-/

namespace LockFreeStack

theorem Pair.Fits.count_ne {ρ : Type} {p : Pair ρ} (h : p.Fits) : p.count.toNat ≠ 2 ^ 63 := by
  intro e
  obtain ⟨-, more, hs, -⟩ := h
  have hp : p.count = .ofNat (2 ^ 63) := by
    rw [← e, UInt64.ofNat_toNat]
  rw [Pair.surplus, hp, if_neg (by decide)] at hs
  cases hs

namespace Nodes

variable {α : Type} (h : Nodes α) (a : Address) (r : Pair Address)

@[simp] theorem beneath?_setInternal (i : Int64) :
    Nodes.beneath? (h.updateAt a (·.setInternal i)) r = h.beneath? r := by
  unfold beneath?
  rw [counted?_setInternal]
  by_cases hr : r.address = a
  · rw [if_pos hr, hr]
    cases h.counted? a <;> rfl
  · rw [if_neg hr]

theorem beneath?_setPair (next : Pair Address) :
    Nodes.beneath? (h.updateAt a (·.setPair next)) r =
      if r.address = a then (h.beneath? r).map fun _ => next else h.beneath? r := by
  unfold beneath?
  rw [counted?_setPair]
  by_cases hr : r.address = a
  · rw [if_pos hr, if_pos hr, hr]
    cases h.counted? a <;> rfl
  · rw [if_neg hr, if_neg hr]

theorem beneath?_alloc (v : α) (next : Pair Address) (i : Int64) :
    Nodes.beneath? (h.alloc (.counted v next i)) r =
      if r.address = .node h.next then some next else h.beneath? r := by
  unfold beneath?
  rw [counted?_alloc]
  by_cases hr : r.address = .node h.next <;> simp [hr]

theorem beneath?_release :
    (h.release a).beneath? r = if r.address = a then none else h.beneath? r := by
  unfold beneath?
  rw [counted?_release]
  by_cases hr : r.address = a <;> simp [hr]

@[simp] theorem beneath?_recycle (k : Nat) : Nodes.beneath? (h.recycle k) r = h.beneath? r := by
  unfold beneath?
  rw [counted?_recycle]

end Nodes

namespace Counted

variable {ι α : Type}

namespace Point

/-- The pairs that a thread has in its hands. -/
def pairs : Point α → List (Pair Address)
  | push (.link _ p) => [p]
  | pop (.bump p) | pop (.readNext p) | pop (.take p) | pop (.fold p _) | pop (.releaseLate _ p) => [p]
  | pop (.detach p q) | pop (.giveBack p q) => [p, q]
  | _ => []

theorem mem_pairs_of_taken? {p : Point α} {q : Pair Address} (h : p.taken? = some q) :
    q ∈ p.pairs := by
  obtain _ | (_ | _ | _ | _ | _ | _ | _ | _ | _) := p <;> simp_all [taken?, pairs]

/-- The address under the head whose count the next step raises. -/
def raised? (m : Store α) : Point α → Option Address
  | pop (.bump seen) =>
    match seen.bump with
    | .ok _ => if m.head = seen then some seen.address else none
    | .error _ => none
  | _ => none

/-- Where a pair that is about after a step comes from. -/
inductive Origin (m : Store α) (p : Point α) (q : Pair Address) : Prop where
  | head (h : q = m.head)
  | node (r : Pair Address) (h : m.nodes.beneath? r = some q)
  | point (h : q ∈ p.pairs)
  | new (h : q.count.toNat ≤ 1) (target : q.address = .null ∨ p.fresh? = some q.address)
  | bumped (h : m.head.bump = .ok q) (now : (p.step m).memory.head = q)
    (raised : p.raised? m = some m.head.address)

variable {m : Store α} {p : Point α} {q r : Pair Address}

theorem origin_head (p : Point α) (m : Store α) : p.Origin m (p.step m).memory.head := by
  obtain (⟨_, granted⟩ | _ | ⟨node, seen⟩) | (_ | seen | _ | ⟨held, next⟩ | _ | _ | _ | _ | _) := p
  case push.allocate => cases granted <;> exact .head rfl
  case push.link =>
    simp only [step, Push.step]
    repeat' split
    · exact .head rfl
    · exact .new (Nat.le_refl 1) (.inr rfl)
    · exact .head rfl
  case pop.bump =>
    by_cases hs : m.head = seen
    · subst hs
      cases hb : m.head.bump with
      | error e => exact .head (by simp [step, Pop.step, hb, Outcome.within])
      | ok held =>
        have hm : (step m (.pop (.bump m.head))).memory.head = held := by
          simp [step, Pop.step, hb, Outcome.within]
        exact .bumped (hb.trans (congrArg _ hm.symm)) rfl (by simp [raised?, hb])
    · refine .head ?_
      cases hb : seen.bump <;> simp [step, Pop.step, hb, hs, Outcome.within]
  case pop.detach =>
    by_cases hs : m.head = held
    · exact .point (by simp [step, Pop.step, hs, Outcome.within, pairs])
    · exact .head (by simp [step, Pop.step, hs, Outcome.within])
  all_goals
    refine .head ?_
    simp only [step, Push.step, Pop.step]
    repeat' split
    all_goals rfl

theorem origin_node (h : (p.step m).memory.nodes.beneath? r = some q) : p.Origin m q := by
  obtain (⟨w, granted⟩ | _ | ⟨node, seen⟩) | (_ | _ | _ | _ | _ | _ | ⟨node, w⟩ | _ | ⟨node, now⟩) := p
  case push.allocate =>
    cases granted with
    | false => exact .node r h
    | true =>
      have h : (if r.address = .node m.nodes.next then some ⟨0, .null⟩ else m.nodes.beneath? r) =
          some q := by
        rw [← Nodes.beneath?_alloc m.nodes r w]
        exact h
      split at h
      · obtain rfl := Option.some.inj h
        exact .new (by decide) (.inl rfl)
      · exact .node r h
  case push.link =>
    have link (h : Nodes.beneath? (m.nodes.updateAt node (·.setPair seen)) r = some q) :
        Origin m (.push (.link node seen)) q := by
      rw [Nodes.beneath?_setPair] at h
      split at h
      · obtain ⟨_, -, rfl⟩ := Option.map_eq_some_iff.mp h
        exact .point (List.mem_singleton_self _)
      · exact .node r h
    simp only [step, Push.step] at h
    repeat' split at h
    · exact .node r h
    · exact link h
    · exact link h
  case pop.release | pop.releaseLate =>
    simp only [step, Pop.step] at h
    split at h
    · simp only [Outcome.within, id_eq, Nodes.beneath?_release] at h
      split at h
      · cases h
      · exact .node r h
    · exact .node r h
  all_goals
    refine .node r ?_
    simp only [step, Push.step, Pop.step] at h
    repeat' split at h
    all_goals simpa [Outcome.within] using h

theorem origin_point {o : Point α} (h : (p.step m).next = .goto o) (hq : q ∈ o.pairs) :
    p.Origin m q := by
  obtain (⟨w, granted⟩ | _ | ⟨node, seen⟩) | (_ | seen | held | ⟨held, next⟩ | held | _ | _ | _ | _) := p
  case pop.bump =>
    cases hb : seen.bump with
    | error e => simp [step, Pop.step, hb, Outcome.within, Next.within] at h
    | ok held =>
      by_cases hs : m.head = seen
      · subst hs
        have hm : (step m (.pop (.bump m.head))).memory.head = held := by
          simp [step, Pop.step, hb, Outcome.within]
        by_cases hn : held.address = .null <;>
          simp [step, Pop.step, hb, hn, Outcome.within, Next.within] at h
        subst h
        obtain rfl := List.mem_singleton.mp hq
        exact .bumped hb hm (by simp [raised?, hb])
      · simp [step, Pop.step, hb, hs, Outcome.within, Next.within] at h
        subst h
        exact .head (List.mem_singleton.mp hq)
  case pop.readNext =>
    cases hn : m.nodes.counted? held.address with
    | none => simp [step, Pop.step, hn, Outcome.within, Next.within] at h
    | some x =>
      simp [step, Pop.step, hn, Outcome.within, Next.within] at h
      subst h
      obtain rfl | rfl : q = held ∨ q = x.2.1 := by simpa [pairs] using hq
      · exact .point (List.mem_singleton_self q)
      · exact .node held (by simp [Nodes.beneath?, hn])
  all_goals
    simp only [step, Push.step, Pop.step] at h
    repeat' split at h
    all_goals simp only [Outcome.within, Next.within, Next.goto.injEq, reduceCtorEq] at h
    all_goals
      subst h
      simp only [pairs, List.mem_cons, List.not_mem_nil, or_false] at hq
  case pop.detach.isFalse =>
    obtain rfl | rfl := hq
    · exact .point (by simp [pairs])
    · exact .head rfl
  all_goals first
    | exact .head hq
    | exact .point (by simp [pairs, hq])

/-- A pop comes to hold a reference only by raising the count of the head. -/
theorem held?_step {o : Point α} (h : (p.step m).next = .goto o) (hr : o.held? = some r) :
    p.held? = some r ∨ (p.step m).memory.head = r ∧ r.address ≠ .null := by
  obtain (⟨w, granted⟩ | _ | ⟨node, seen⟩) | (_ | seen | _ | _ | _ | _ | _ | _ | _) := p
  case pop.bump =>
    cases hb : seen.bump with
    | error e => simp [step, Pop.step, hb, Outcome.within, Next.within] at h
    | ok held =>
      by_cases hs : m.head = seen <;> by_cases hn : held.address = .null <;>
        simp [step, Pop.step, hb, hs, hn, Outcome.within, Next.within] at h ⊢ <;> subst h
      · obtain rfl := Option.some.inj hr
        exact .inr ⟨rfl, hn⟩
      · cases hr
      · cases hr
  all_goals
    simp only [step, Push.step, Pop.step] at h
    repeat' split at h
    all_goals simp only [Outcome.within, Next.within, Next.goto.injEq, reduceCtorEq] at h
    all_goals subst h
  all_goals first
    | exact .inl hr
    | cases hr

end Point

namespace Crowd

variable [DecidableEq ι] {x : Crowd ι α} {mv : Move ι α} {q : Pair Address} {i j : ι} {a : Address}

/-- The pair is the head, or stands in a node, or is in the hands of a thread. -/
inductive Bears (x : Crowd ι α) (q : Pair Address) : Prop where
  | head (h : q = x.store.head)
  | node (r : Pair Address) (h : x.store.nodes.beneath? r = some q)
  | point (i : ι) (p : Point α) (hp : x.point i = some p) (h : q ∈ p.pairs)

/-- The address under the head whose count a move raises. -/
def raised? (x : Crowd ι α) : Move ι α → Option Address
  | .step i => (x.point i).bind (Point.raised? x.store)
  | _ => none

/-- A pair that is about has been about before, or is new, or is the head with its count raised. -/
inductive Comes (x : Crowd ι α) (mv : Move ι α) (q : Pair Address) : Prop where
  | old (h : x.Bears q)
  | new (h : q.count.toNat ≤ 1)
    (target : q.address = .null ∨ ∃ i p, x.point i = some p ∧ p.fresh? = some q.address)
  | bumped (h : x.store.head.bump = .ok q) (now : (x.move mv).store.head = q)
    (raised : x.raised? mv = some x.store.head.address)

theorem bears_set {m : Store α} {o : Option (Point α)} (h : (x.set i m o).Bears q)
    (head : q = m.head → x.Comes mv q) (node : ∀ r, m.nodes.beneath? r = some q → x.Comes mv q)
    (mine : ∀ p, o = some p → q ∈ p.pairs → x.Comes mv q) : x.Comes mv q := by
  obtain hq | ⟨r, hr⟩ | ⟨j, p, ho, hq⟩ := h
  · exact head hq
  · exact node r hr
  · by_cases hji : j = i
    · subst hji
      exact mine p (by simpa [set] using ho) hq
    · exact .old (.point j p (by simpa [set, Function.update_of_ne hji] using ho) hq)

theorem bears_move (mv : Move ι α) (h : (x.move mv).Bears q) : x.Comes mv q := by
  cases mv with
  | call i c =>
    cases hp : x.point i with
    | none =>
      simp only [move, hp] at h
      refine bears_set h (fun e => .old (.head e)) (fun r hr => .old (.node r hr)) fun p e hq => ?_
      obtain rfl := Option.some.inj e
      cases c <;> simp [Call.start, Point.pairs] at hq
    | some p => exact .old (by simpa only [move, hp] using h)
  | step i =>
    cases hp : x.point i with
    | none => exact .old (by simpa only [move, hp] using h)
    | some p =>
      have of_origin (hm : (x.move (.step i)).store = (p.step x.store).memory)
          (ho : p.Origin x.store q) : x.Comes (.step i) q := by
        cases ho with
        | head e => exact .old (.head e)
        | node r hr => exact .old (.node r hr)
        | point hq => exact .old (.point i p hp hq)
        | new hq target => exact .new hq (target.imp_right fun hf => ⟨i, p, hp, hf⟩)
        | bumped hb now raised => exact .bumped hb (by rw [hm, now]) (by simp [raised?, hp, raised])
      have horigin := p.origin_head x.store
      rcases ho : p.step x.store with ⟨m, o | b | f, notes⟩
      · have of_origin := of_origin (by simp [move, hp, ho, set])
        rw [ho] at horigin
        simp only [move, hp, ho] at h
        exact bears_set h (fun e => of_origin (e ▸ horigin))
          (fun r hr => of_origin (p.origin_node (by rw [ho]; exact hr)))
          fun o' e hq => of_origin (Point.origin_point (by rw [ho, Option.some.inj e]) hq)
      · have of_origin := of_origin (by simp [move, hp, ho, set])
        rw [ho] at horigin
        simp only [move, hp, ho] at h
        exact bears_set h (fun e => of_origin (e ▸ horigin))
          (fun r hr => of_origin (p.origin_node (by rw [ho]; exact hr))) fun p e _ => by cases e
      · exact .old (by simpa only [move, hp, ho] using h)
  | miss i =>
    simp only [move] at h
    split at h
    · rename_i node seen hp
      refine bears_set h (fun e => .old (.head e)) (fun r hr => ?_) fun p e hq => ?_
      · rw [Nodes.beneath?_setPair] at hr
        split at hr
        · obtain ⟨_, -, rfl⟩ := Option.map_eq_some_iff.mp hr
          exact .old (.point i _ hp (List.mem_singleton_self _))
        · exact .old (.node r hr)
      · obtain rfl := Option.some.inj e
        exact .old (.head (List.mem_singleton.mp hq))
    · exact .old h
  | recycle k =>
    refine .old ?_
    obtain hq | ⟨r, hr⟩ | ⟨j, p, hp, hq⟩ := h
    · exact .head hq
    · exact .node r (by simpa [move] using hr)
    · exact .point j p hp hq

/-- A thread comes to hold a reference to a node only if the node is under the head then. -/
theorem holder?_move (mv : Move ι α) (hj : holder? ((x.move mv).point j) = some a) :
    holder? (x.point j) = some a ∨ (x.move mv).store.head.address = a ∧ a ≠ .null := by
  by_cases hmv : mv.thread? = some j
  · cases mv with
    | call i c =>
      obtain rfl := Option.some.inj hmv
      cases hp : x.point i with
      | none =>
        rw [show (x.move (.call i c)).point i = some c.start by simp [move, hp, set]] at hj
        cases c <;> cases hj
      | some p => exact .inl (by simpa [move, hp] using hj)
    | step i =>
      obtain rfl := Option.some.inj hmv
      cases hp : x.point i with
      | none => simp [move, hp, holder?] at hj
      | some p =>
        rcases ho : p.step x.store with ⟨m, o | b | f, notes⟩
        · have hh : o.held?.map Pair.address = some a := by simpa [move, hp, ho, set, holder?] using hj
          obtain ⟨r, hr, rfl⟩ := Option.map_eq_some_iff.mp hh
          obtain hold | ⟨hm, hne⟩ := Point.held?_step (p := p) (m := x.store) (by rw [ho]) hr
          · exact .inl (by simp [holder?, hold])
          · exact .inr ⟨by simpa [move, hp, ho, set] using congrArg Pair.address hm, hne⟩
        · simp [move, hp, ho, set, holder?] at hj
        · exact .inl (by simpa [move, hp, ho] using hj)
    | miss i =>
      obtain rfl := Option.some.inj hmv
      simp only [move] at hj
      split at hj
      · simp [set, holder?, Point.held?] at hj
      · exact .inl hj
    | recycle k => cases hmv
  · exact .inl (by rwa [move_point_of_ne hmv] at hj)

section Bounded

variable [Fintype ι] {stage : Address → Stage ι} {l : List (Pair Address)}

/-- Counts and numbers of holders are within half a word's size, and no node is lost. -/
structure Bounded (x : Crowd ι α) (stage : Address → Stage ι) (l : List (Pair Address)) : Prop where
  sound : x.Sound stage l
  pairs : ∀ q, x.Bears q → q.count.toNat < 2 ^ 63
  holders : ∀ a, x.holders a < 2 ^ 63
  not_lost : ∀ a c, stage a ≠ .lost c

/-- No node but the one under the head comes to have more holders. -/
theorem holders_move_le (mv : Move ι α) (h : (x.move mv).store.head.address = a → a = .null) :
    (x.move mv).holders a ≤ x.holders a := by
  refine Finset.card_le_card fun j hj => ?_
  obtain hold | ⟨hhead, hne⟩ := holder?_move mv (j := j) (by simpa using hj)
  · simpa using hold
  · exact (hne (h hhead)).elim

namespace Sound

omit [DecidableEq ι] in
theorem head_mem (s : x.Sound stage l) (h : x.store.head.address ≠ .null) : x.store.head ∈ l := by
  obtain ⟨next, l₁, count, rfl, -⟩ := s.chain_cons h
  exact List.mem_cons_self

omit [DecidableEq ι] in
/-- A linked node has fewer holders than its pair counts. -/
theorem holders_lt (s : x.Sound stage l) (hq : q ∈ l) : x.holders q.address < q.count.toNat := by
  have hs := (s.linked q).mp hq
  obtain ⟨v, next, n, hn⟩ := s.exists_counted (a := q.address) (by simp [hs])
  have hb := s.balanced q.address v next n hn
  rw [hs] at hb
  obtain ⟨r, -, hr⟩ := hb
  omega

end Sound

namespace Bounded

omit [DecidableEq ι] in
theorem start : (start : Crowd ι α).Bounded (fun _ => .free) [] where
  sound := sound_start
  pairs q h := by
    obtain rfl | ⟨r, hr⟩ | ⟨j, p, hp, -⟩ := h
    · exact (by decide : (0 : UInt64).toNat < 2 ^ 63)
    · cases hr' : r.address <;>
        simp [Nodes.beneath?, hr', Crowd.start, Nodes.counted?, Nodes.at?, Heap.get?, Heap.empty] at hr
    · cases hp
  holders a := by
    rw [sound_start.holders_eq_zero (a := a) id]
    decide
  not_lost := nofun

/-- Half a word's size is not exceeded by one, since there the surplus would overflow. -/
theorem pairs_move (b : x.Bounded stage l) (mv : Move ι α) (fits : (x.move mv).store.head.Fits)
    (hq : (x.move mv).Bears q) : q.count.toNat < 2 ^ 63 := by
  obtain h | ⟨h, -⟩ | ⟨hb, rfl, -⟩ := bears_move mv hq
  · exact b.pairs q h
  · omega
  · have hlt := b.pairs x.store.head (.head rfl)
    have hne := fits.count_ne
    have hc := (Pair.bump_eq_ok hb).2
    omega

theorem move (b : x.Bounded stage l) (mv : Move ι α) (fits : (x.move mv).store.head.Fits) :
    ∃ stage' l', (x.move mv).Bounded stage' l' ∧
      ∀ a, stage' a ≠ stage a → ∃ i, mv = .step i ∧ (stage a).Leads i (stage' a) := by
  obtain ⟨stage', l', s, -, leads⟩ := b.sound.move mv
  have pairs : ∀ q, (x.move mv).Bears q → q.count.toNat < 2 ^ 63 := fun q => b.pairs_move mv fits
  refine ⟨stage', l', ⟨s, pairs, fun a => ?_, fun a c ha => ?_⟩, leads⟩
  · by_cases h : (x.move mv).store.head.address = a ∧ a ≠ .null
    · obtain ⟨rfl, hne⟩ := h
      have := s.holders_lt (s.head_mem hne)
      have := pairs _ (.head rfl)
      omega
    · exact (holders_move_le mv fun e => not_not.mp fun hne => h ⟨e, hne⟩).trans_lt (b.holders a)
  · obtain ⟨i, -, t⟩ := leads a (by rw [ha]; exact (b.not_lost a c).symm)
    rw [ha] at t
    -- The pair of a pop that takes a node has a small count.
    generalize hst : stage a = st at t
    obtain - | - | - | - | t := t
    cases t with
    | stay => exact b.not_lost a c hst
    | @lose held h =>
      have htaken := ((b.sound.stands i).taken a held.count).mp hst
      obtain ⟨p, hp, hpt⟩ := Option.bind_eq_some_iff.mp htaken
      exact h (Pair.folds_of_lt (b.pairs ⟨held.count, a⟩ (.point i p hp (Point.mem_pairs_of_taken? hpt))))

end Bounded

theorem bounded_run {ms : List (Move ι α)} (fit : CountsFit ms) :
    ∃ stage l, (run ms).1.Bounded stage l :=
  play_induction_of (fun x : Crowd ι α => x.store.head.Fits)
    (fun x _ => ∃ stage l, x.Bounded stage l) (fun _ => ⟨_, _, .start⟩)
    (fun _ _ mv _ after ⟨_, _, b⟩ =>
      let ⟨stage', l', b', _⟩ := b.move mv after
      ⟨stage', l', b'⟩) ms fit

end Bounded

end Crowd

end Counted

end LockFreeStack
