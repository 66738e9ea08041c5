import LockFreeStack.Proofs.Counted.Bounds

/-!
The count of the pair that points to a node and the node's own count, kept apart on purpose, always
make up the number of references to the node. Once the surplus has been added the node's own count
is that number, and whoever brings it to zero releases the node.
-/

namespace LockFreeStack.Counted

variable {ι α : Type}

namespace Point

variable {m : Store α} {p : Point α} {a : Address}

theorem take_or_fold {q : Pair Address} (h : p.taken? = some q) :
    p = pop (.take q) ∨ ∃ v, p = pop (.fold q v) := by
  obtain _ | (_ | _ | _ | _ | _ | _ | _ | _ | _) := p <;> simp_all [taken?]

/-- The step is an update of the count of the node at `a`, by an addition or a subtraction. -/
def Counts (p : Point α) (a : Address) : Prop :=
  ∃ held, held.address = a ∧ ((∃ v, p = pop (.fold held v)) ∨ ∃ now, p = pop (.giveBack held now))

/-- A pop is about to release a node only if its own update of the count has just been the last. -/
theorem counts_of_spent {o : Point α} (h : (p.step m).next = .goto o) (ha : o.spent? = some a) :
    p.Counts a := by
  obtain (⟨w, granted⟩ | _ | ⟨node, seen⟩) | (_ | seen | _ | _ | _ | ⟨held, v⟩ | _ | ⟨held, now⟩ | _) := p
  case pop.bump =>
    cases hb : seen.bump with
    | error e => simp [step, Pop.step, hb, Outcome.within, Next.within] at h
    | ok held =>
      by_cases hs : m.head = seen <;> by_cases hn : held.address = .null <;>
        simp [step, Pop.step, hb, hs, hn, Outcome.within, Next.within] at h <;> subst h <;> cases ha
  all_goals
    simp only [step, Push.step, Pop.step] at h
    repeat' split at h
    all_goals simp only [Outcome.within, Next.within, Next.goto.injEq, reduceCtorEq] at h
    all_goals subst h
  all_goals first
    | exact ⟨held, Option.some.inj ha, .inl ⟨v, rfl⟩⟩
    | exact ⟨held, Option.some.inj ha, .inr ⟨now, rfl⟩⟩
    | cases ha

end Point

namespace Stage

variable {c : UInt64} {h : Nat} {n : Int64} {st : Stage ι}

/-- The count of the pair that points to the node, or has done so until the node was taken. -/
def count? : Stage ι → Option UInt64
  | linked c | taken _ c => some c
  | _ => none

/-- The surplus of the node has been added. -/
def IsLoose : Stage ι → Prop
  | shared | spent _ => True
  | _ => False

theorem Balanced.of_count? (b : st.Balanced h n) (hc : st.count? = some c) :
    ∃ r : Nat, n = .ofInt (-r) ∧ c.toNat = 1 + h + r := by
  cases st <;> cases hc <;> exact b

theorem Balanced.of_isLoose (b : st.Balanced h n) (hs : st.IsLoose) : n = .ofInt h := by
  cases st with
  | shared => exact b.1
  | spent =>
    obtain ⟨rfl, rfl⟩ := b
    rfl
  | _ => exact hs.elim

namespace Leads

variable {i : ι} {st' : Stage ι}

/-- A node is loose after it has been taken, and only then. -/
theorem exists_taken (t : Leads i st st') (h : ¬st.IsLoose) (h' : st'.IsLoose) :
    ∃ c, st = taken i c := by
  cases t with
  | settle t =>
    cases t with
    | stay => exact (h h').elim
    | share c | spend c => exact ⟨c, rfl⟩
    | lose => exact h'.elim
    | last => exact (h trivial).elim
  | make | link | raise | take | release => exact h'.elim

/-- A node stays loose until it is released. -/
theorem eq_spent (t : Leads i st st') (h : st.IsLoose) (h' : ¬st'.IsLoose) : st = spent i := by
  cases t with
  | settle t =>
    cases t with
    | stay => exact (h' h).elim
    | share | spend | lose => exact h.elim
    | last => exact (h' trivial).elim
  | make | link | raise | take => exact h.elim
  | release => rfl

theorem eq_of_spent {j : ι} (t : Leads j (spent i) st') (h : st' ≠ spent i) : j = i := by
  cases t with
  | settle t =>
    cases t with
    | stay => exact (h rfl).elim
  | release => rfl

end Leads

end Stage

namespace Crowd

section Frees

variable [DecidableEq ι] [Fintype ι] {x : Crowd ι α} {stage : Address → Stage ι}
  {l : List (Pair Address)} {mv : Move ι α} {i : ι} {k : Nat} {a : Address}

/-- The pair and its node count one reference of the chain, or of the pop that has taken the node
out of it, and those of the other pops. -/
def Balances (x : Crowd ι α) (p : Pair Address) : Prop :=
  ∃ v next n, x.store.nodes.counted? p.address = some (v, next, n) ∧ 1 ≤ p.count.toNat ∧
    n.toInt ≤ 0 ∧ p.count.toNat + n.toInt = 1 + x.holders p.address

/-- The node has been taken out of the chain, and its surplus has been added. -/
structure Loose (x : Crowd ι α) (a : Address) : Prop where
  live : (x.store.nodes.counted? a).isSome
  unlinked : ∀ l count, Path x.store.nodes.beneath? x.store.head l ⟨count, .null⟩ → ∀ p ∈ l, p.address ≠ a
  unclaimed : ∀ i p, x.point i = some p → p.fresh? ≠ some a ∧ p.taken?.map Pair.address ≠ some a

structure Ledger (x : Crowd ι α) : Prop where
  linked : ∃ l count, Path x.store.nodes.beneath? x.store.head l ⟨count, .null⟩ ∧ ∀ p ∈ l, x.Balances p
  taken : ∀ i o p, x.point i = some o → o.taken? = some p → x.Balances p
  loose : ∀ a v next n, x.store.nodes.counted? a = some (v, next, n) → x.Loose a → n.toInt = x.holders a
  zero : ∀ a, x.Loose a → (x.holders a = 0 ↔ ∃ i k, a = .node k ∧ x.Frees i k)
  frees : ∀ i k, x.Frees i k → x.Loose (.node k) ∧ ∀ j, x.Frees j k → j = i

/-- What a move does to the nodes whose surplus has been added. -/
structure Posts (x : Crowd ι α) (mv : Move ι α) : Prop where
  added : ∀ a, ¬x.Loose a → (x.move mv).Loose a →
    ∃ i held v, mv = .step i ∧ x.point i = some (.pop (.fold held v)) ∧ held.address = a
  freed : ∀ a, x.Loose a → ¬(x.move mv).Loose a → ∃ i k, mv = .step i ∧ a = .node k ∧ x.Frees i k
  falls : ∀ a, (x.move mv).Loose a → (x.move mv).holders a ≤ x.holders a
  last : ∀ i k, ¬x.Frees i k → (x.move mv).Frees i k →
    mv = .step i ∧ ∃ p, x.point i = some p ∧ p.Counts (.node k)
  waits : ∀ i k, x.Frees i k → mv ≠ .step i → (x.move mv).Frees i k
  gone : ∀ i k, x.Frees i k → mv = .step i → (x.move mv).store.nodes.counted? (.node k) = none

/-- Exactly a pop that is about to release the node does so in its next step. -/
theorem Sound.frees_iff (s : x.Sound stage l) : x.Frees i k ↔ stage (.node k) = .spent i := by
  constructor
  · intro h
    obtain ⟨p, hp, hspent⟩ := (spent_of_frees h).1
    exact ((s.stands i).spent _).mpr (by simp [hp, hspent])
  · intro h
    obtain ⟨v, next, n, hn⟩ := s.exists_counted (a := .node k) (by simp [h])
    have hlive : x.store.nodes.isLiveAt (.node k) := Nodes.isLiveAt_of_counted? hn
    obtain ⟨p, hp, hspent⟩ := Option.bind_eq_some_iff.mp (((s.stands i).spent _).mp h)
    refine ⟨p, hp, ?_⟩
    obtain _ | (_ | _ | _ | _ | _ | _ | _ | _ | _) := p <;> simp [Point.spent?] at hspent <;> subst hspent
    all_goals simp [Point.step, Pop.step, hlive, Outcome.within, Address.freed]

omit [DecidableEq ι] in
theorem Sound.exists_node (s : x.Sound stage l) (h : stage a ≠ .free) : ∃ k, a = .node k := by
  obtain ⟨v, next, n, hn⟩ := s.exists_counted h
  cases a with
  | node k => exact ⟨k, rfl⟩
  | _ => simp [Nodes.counted?, Nodes.at?] at hn

omit [DecidableEq ι] in
/-- From the head down to the null pair there is no other chain. -/
theorem Sound.chain_eq (s : x.Sound stage l) {l' : List (Pair Address)} {count : UInt64}
    (path : Path x.store.nodes.beneath? x.store.head l' ⟨count, .null⟩) : l' = l := by
  obtain ⟨count', path'⟩ := s.chain
  exact (path.unique rfl path' rfl).1

namespace Bounded

omit [DecidableEq ι] in
theorem balances (b : x.Bounded stage l) {p : Pair Address}
    (hc : (stage p.address).count? = some p.count) (hp : x.Bears p) : x.Balances p := by
  obtain ⟨v, next, n, hn⟩ := b.sound.exists_counted (a := p.address) fun h => by simp [h, Stage.count?] at hc
  obtain ⟨r, rfl, hr⟩ := (b.sound.balanced _ v next n hn).of_count? hc
  have hlt := b.pairs p hp
  have hint : (Int64.ofInt (-r)).toInt = -r := Int64.toInt_ofInt_of_le (by omega) (by omega)
  exact ⟨v, next, _, hn, by omega, by omega, by omega⟩

omit [DecidableEq ι] in
theorem loose_iff (b : x.Bounded stage l) : x.Loose a ↔ (stage a).IsLoose := by
  constructor
  · intro ⟨live, unlinked, unclaimed⟩
    have hfree := (b.sound.live a).mpr live
    have hlost := b.not_lost a
    obtain ⟨count, path⟩ := b.sound.chain
    cases hst : stage a with
    | free => exact hfree hst
    | fresh i =>
      obtain ⟨p, hp, hf⟩ := Option.bind_eq_some_iff.mp (((b.sound.stands i).fresh a).mp hst)
      exact (unclaimed i p hp).1 hf
    | linked c => exact unlinked l count path ⟨c, a⟩ ((b.sound.linked ⟨c, a⟩).mpr hst) rfl
    | taken i c =>
      obtain ⟨p, hp, ht⟩ := Option.bind_eq_some_iff.mp (((b.sound.stands i).taken a c).mp hst)
      exact (unclaimed i p hp).2 (by simp [ht])
    | shared | spent => trivial
    | lost c => exact hlost c hst
  · intro h
    refine ⟨(b.sound.live a).mp fun e => by simp [e, Stage.IsLoose] at h, ?_, ?_⟩
    · rintro l' count path p hp rfl
      obtain rfl := b.sound.chain_eq path
      simp [(b.sound.linked p).mp hp, Stage.IsLoose] at h
    · refine fun i p hp => ⟨fun hf => ?_, fun ht => ?_⟩
      · have := ((b.sound.stands i).fresh a).mpr (by simp [hp, hf])
        simp [this, Stage.IsLoose] at h
      · obtain ⟨q, hq, rfl⟩ := Option.map_eq_some_iff.mp ht
        have := ((b.sound.stands i).taken q.address q.count).mpr (by simp [hp, hq])
        simp [this, Stage.IsLoose] at h

theorem ledger (b : x.Bounded stage l) : x.Ledger where
  linked := by
    obtain ⟨count, path⟩ := b.sound.chain
    refine ⟨l, count, path, fun p hp => b.balances ?_ ?_⟩
    · rw [(b.sound.linked p).mp hp]
      rfl
    · obtain e | ⟨r, -, hr⟩ := path.eq_or_exists_next hp
      · exact .head e
      · exact .node r hr
  taken i o p hp ht := by
    refine b.balances ?_ (.point i o hp (Point.mem_pairs_of_taken? ht))
    rw [((b.sound.stands i).taken p.address p.count).mpr (by simp [hp, ht])]
    rfl
  loose a v next n hn hl := by
    have hlt := b.holders a
    rw [(b.sound.balanced a v next n hn).of_isLoose (b.loose_iff.mp hl)]
    exact Int64.toInt_ofInt_of_le (by omega) (by omega)
  zero a hl := by
    have hl := b.loose_iff.mp hl
    constructor
    · intro hzero
      obtain ⟨v, next, n, hn⟩ := b.sound.exists_counted (a := a) fun e => by simp [e, Stage.IsLoose] at hl
      have hb := b.sound.balanced a v next n hn
      cases hst : stage a with
      | shared =>
        rw [hst] at hb
        exact absurd hzero (Nat.ne_of_gt hb.2.1)
      | spent i =>
        obtain ⟨k, rfl⟩ := b.sound.exists_node (a := a) (by simp [hst])
        exact ⟨i, k, rfl, b.sound.frees_iff.mpr hst⟩
      | _ => simp [hst, Stage.IsLoose] at hl
    · rintro ⟨i, k, rfl, hf⟩
      exact b.sound.holders_eq_zero (by simp [b.sound.frees_iff.mp hf, Stage.IsKept])
  frees i k hf := by
    have hst := b.sound.frees_iff.mp hf
    refine ⟨b.loose_iff.mpr (by simp [hst, Stage.IsLoose]), fun j hj => ?_⟩
    exact Stage.spent.inj ((b.sound.frees_iff.mp hj).symm.trans hst)

/-- The next step of a pop that has taken a node and not its value yet leaves it so. -/
theorem taken_of_take (b : x.Bounded stage l) {held : Pair Address}
    (hp : x.point i = some (.pop (.take held))) :
    ∃ v, (x.move (.step i)).point i = some (.pop (.fold held v)) := by
  obtain ⟨v, next, n, hn, -⟩ := b.sound.held_node i held (by rw [hp]; rfl)
  exact ⟨v, by simp [Crowd.move, hp, Point.step, Pop.step, hn, Outcome.within, Next.within, set]⟩

/-- A node becomes loose when its surplus is added. -/
theorem added (b : x.Bounded stage l) (fits : (x.move mv).store.head.Fits) (h : ¬x.Loose a)
    (h' : (x.move mv).Loose a) :
    ∃ i held v, mv = .step i ∧ x.point i = some (.pop (.fold held v)) ∧ held.address = a := by
  obtain ⟨stage', l', b', leads⟩ := b.move mv fits
  rw [b.loose_iff] at h
  rw [b'.loose_iff] at h'
  obtain ⟨i, rfl, t⟩ := leads a fun e => h (e ▸ h')
  obtain ⟨c, hst⟩ := t.exists_taken h h'
  obtain ⟨p, hp, ht⟩ := Option.bind_eq_some_iff.mp (((b.sound.stands i).taken a c).mp hst)
  obtain rfl | ⟨v, rfl⟩ := Point.take_or_fold ht
  · obtain ⟨v, hv⟩ := b.taken_of_take hp
    rw [((b'.sound.stands i).taken a c).mpr (by rw [hv]; rfl)] at h'
    exact h'.elim
  · exact ⟨i, _, v, rfl, hp, rfl⟩

/-- A loose node stays so until it is released. -/
theorem freed (b : x.Bounded stage l) (fits : (x.move mv).store.head.Fits) (h : x.Loose a)
    (h' : ¬(x.move mv).Loose a) : ∃ i k, mv = .step i ∧ a = .node k ∧ x.Frees i k := by
  obtain ⟨stage', l', b', leads⟩ := b.move mv fits
  rw [b.loose_iff] at h
  rw [b'.loose_iff] at h'
  obtain ⟨i, rfl, t⟩ := leads a fun e => h' (e ▸ h)
  have hspent := t.eq_spent h h'
  obtain ⟨k, rfl⟩ := b.sound.exists_node (a := a) (by simp [hspent])
  exact ⟨i, k, rfl, rfl, b.sound.frees_iff.mpr hspent⟩

theorem falls (b : x.Bounded stage l) (fits : (x.move mv).store.head.Fits)
    (h : (x.move mv).Loose a) : (x.move mv).holders a ≤ x.holders a := by
  obtain ⟨stage', l', b', -⟩ := b.move mv fits
  obtain ⟨count, path⟩ := b'.sound.chain
  refine holders_move_le mv fun hhead => ?_
  by_contra hne
  exact h.unlinked l' count path _ (b'.sound.head_mem fun e => hne (hhead.symm.trans e)) hhead

/-- A thread that comes to release a node has just brought the number of its holders to zero. -/
theorem last (b : x.Bounded stage l) (h : ¬x.Frees i k) (h' : (x.move mv).Frees i k) :
    mv = .step i ∧ ∃ p, x.point i = some p ∧ p.Counts (.node k) := by
  obtain ⟨⟨p', hp', hspent⟩, -⟩ := spent_of_frees h'
  have hbefore : x.point i ≠ some p' := fun e =>
    h (b.sound.frees_iff.mpr (((b.sound.stands i).spent _).mpr (by simp [e, hspent])))
  have hmv : mv.thread? = some i := by
    by_contra hmv
    exact hbefore ((move_point_of_ne hmv).symm.trans hp')
  cases mv with
  | call j c =>
    obtain rfl := Option.some.inj hmv
    cases hp : x.point j with
    | none =>
      obtain rfl : c.start = p' := by simpa [Crowd.move, hp, set] using hp'
      cases c <;> cases hspent
    | some p => exact (hbefore (by simpa [Crowd.move, hp] using hp')).elim
  | step j =>
    obtain rfl := Option.some.inj hmv
    cases hp : x.point j with
    | none => simp [Crowd.move, hp] at hp'
    | some p =>
      refine ⟨rfl, p, rfl, ?_⟩
      rcases ho : p.step x.store with ⟨m, o | b | f, notes⟩
      · obtain rfl : o = p' := by simpa [Crowd.move, hp, ho, set] using hp'
        exact Point.counts_of_spent (m := x.store) (by rw [ho]) hspent
      · simp [Crowd.move, hp, ho, set] at hp'
      · exact (hbefore (by simpa [Crowd.move, hp, ho] using hp')).elim
  | miss j =>
    obtain rfl := Option.some.inj hmv
    simp only [Crowd.move] at hp'
    split at hp'
    · obtain rfl : _ = p' := by simpa [set] using hp'
      cases hspent
    · exact (hbefore hp').elim
  | recycle k => cases hmv

/-- Until it steps, a thread that is about to release a node remains so. -/
theorem waits (b : x.Bounded stage l) (fits : (x.move mv).store.head.Fits) (h : x.Frees i k)
    (hmv : mv ≠ .step i) : (x.move mv).Frees i k := by
  obtain ⟨stage', l', b', leads⟩ := b.move mv fits
  have hst := b.sound.frees_iff.mp h
  have hsame : stage' (.node k) = stage (.node k) := by
    by_contra hne
    obtain ⟨j, rfl, t⟩ := leads _ hne
    rw [hst] at t hne
    exact hmv (by rw [t.eq_of_spent hne])
  exact b'.sound.frees_iff.mpr (hsame.trans hst)

theorem posts (b : x.Bounded stage l) (mv : Move ι α) (fits : (x.move mv).store.head.Fits) :
    x.Posts mv where
  added _ := b.added fits
  freed _ := b.freed fits
  falls _ := b.falls fits
  last _ _ := b.last
  waits _ _ := b.waits fits
  gone i k hf hmv := by
    subst hmv
    exact (spent_of_frees hf).2

end Bounded

omit [Fintype ι] in
theorem run_snoc (ms : List (Move ι α)) (mv : Move ι α) : (run (ms ++ [mv])).1 = (run ms).1.move mv := by
  rw [run, play_snoc]
  rfl

/-- A thread that is about to release a node remains so until its next step, whatever the others do. -/
theorem frees_append {ms ms' : List (Move ι α)} (fit : CountsFit (ms ++ ms'))
    (h : (run ms).1.Frees i k) (hms : .step i ∉ ms') : (run (ms ++ ms')).1.Frees i k := by
  induction ms' using List.reverseRecOn with
  | nil => simpa using h
  | append_singleton ms' mv ih =>
    rw [← List.append_assoc] at fit ⊢
    have fit' : CountsFit (ms ++ ms') := fun m hm => fit m (hm.trans (List.prefix_append _ _))
    obtain ⟨stage, l, b⟩ := bounded_run fit'
    rw [run_snoc]
    refine b.waits ?_ (ih fit' fun hm => hms (by simp [hm])) fun e => hms (by simp [e])
    rw [← run_snoc]
    exact fit _ (List.prefix_refl _)

/-- At any time the counts of pairs and nodes make up the numbers of holders. After its surplus has
been added a node loses holders one by one, and the thread that has just taken the last one away is
the one to release the node, in its next step. -/
theorem split_count_ledger {ms : List (Move ι α)} (fit : CountsFit ms) :
    (run ms).1.Ledger ∧
      (∀ mv, CountsFit (ms ++ [mv]) → (run ms).1.Posts mv) ∧
      ∀ i k, (run ms).1.Frees i k → ∀ ms', CountsFit (ms ++ ms') → .step i ∉ ms' →
        (run (ms ++ ms')).1.Frees i k := by
  obtain ⟨stage, l, b⟩ := bounded_run fit
  refine ⟨b.ledger, fun mv fit' => b.posts mv ?_, fun i k h ms' fit' => frees_append fit' h⟩
  rw [← run_snoc]
  exact fit' _ (List.prefix_refl _)

end Frees

/-- Both pops take a reference to the one node. The second one detaches it, and the first one is
the last to return its reference. -/
def contest : List (Move Bool Nat) :=
  [.call false (.push 7 true), .step false, .step false, .step false,
    .call false .pop, .step false, .step false,
    .call true .pop, .step true, .step true, .step true, .step true, .step true, .step true,
    .step false, .step false, .step false]

theorem countsFit_contest : CountsFit contest := countsFit_of_lt (by decide +kernel)

theorem split_count_ledger_contest :
    CountsFit contest ∧ (run contest).1.Frees false 0 ∧ (run contest).1.Ledger :=
  ⟨countsFit_contest, ⟨_, rfl, List.mem_singleton_self _⟩, (split_count_ledger countsFit_contest).1⟩

end Crowd

end LockFreeStack.Counted
