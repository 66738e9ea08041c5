import LockFreeStack.Proofs.Counted.Ledger

/-!
What becomes of the nodes that pops detach. Each of them is released once, by the pop that has
detached it or by another one, and before the place is given out again. When no thread is in the
middle of an operation, the nodes that are there are those of the chain.
-/

namespace LockFreeStack

namespace Nodes

variable {α : Type}

/-- There are nodes of counted stacks only. -/
def AllCounted (h : Nodes α) : Prop := ∀ a, h.isLiveAt a → (h.counted? a).isSome

namespace AllCounted

variable {h : Nodes α}

theorem empty : AllCounted (.empty : Nodes α) := by
  intro a ha
  cases a <;> simp [isLiveAt, at?, Heap.get?, Heap.empty] at ha

theorem alloc (c : h.AllCounted) (v : α) (next : Pair Address) (i : Int64) :
    AllCounted (h.alloc (.counted v next i)) := by
  intro b hb
  rw [counted?_alloc]
  by_cases hn : b = .node h.next
  · simp [hn]
  · rw [if_neg hn]
    exact c b (by simpa [isLiveAt, at?_alloc, hn] using hb)

theorem setPair (c : h.AllCounted) (a : Address) (next : Pair Address) :
    AllCounted (h.updateAt a (·.setPair next)) := by
  intro b hb
  have hold : h.isLiveAt b := by
    by_cases hba : b = a <;> simpa [isLiveAt, at?_updateAt, hba] using hb
  rw [counted?_setPair]
  by_cases hba : b = a
  · simpa [← hba] using c b hold
  · simpa [hba] using c b hold

theorem setInternal (c : h.AllCounted) (a : Address) (i : Int64) :
    AllCounted (h.updateAt a (·.setInternal i)) := by
  intro b hb
  have hold : h.isLiveAt b := by
    by_cases hba : b = a <;> simpa [isLiveAt, at?_updateAt, hba] using hb
  rw [counted?_setInternal]
  by_cases hba : b = a
  · simpa [← hba] using c b hold
  · simpa [hba] using c b hold

theorem release (c : h.AllCounted) (a : Address) : (h.release a).AllCounted := by
  intro b hb
  have hba : b ≠ a := by
    rintro rfl
    simp [isLiveAt, at?_release] at hb
  rw [counted?_release, if_neg hba]
  exact c b (by simpa [isLiveAt, at?_release, hba] using hb)

theorem recycle (c : h.AllCounted) (k : Nat) : AllCounted (h.recycle k) := by
  intro b hb
  rw [counted?_recycle]
  exact c b (by simpa [isLiveAt, at?_recycle] using hb)

end AllCounted

end Nodes

namespace Counted

variable {ι α : Type}

inductive Deed where
  | detached
  | released
deriving DecidableEq

/-- What the log tells about the node at `a`. -/
def story (log : List (Address × Deed)) (a : Address) : List Deed :=
  (log.filter (·.1 = a)).map Prod.snd

theorem story_append (log log' : List (Address × Deed)) (a : Address) :
    story (log ++ log') a = story log a ++ story log' a := by
  simp [story]

theorem story_eq_nil {log : List (Address × Deed)} {a : Address} (h : ∀ d ∈ log, d.1 ≠ a) :
    story log a = [] := by
  simpa [story] using fun b d hd hb => h (b, d) hd hb

/-- The story of `n` nodes, one after the other in the same place. -/
def rounds (n : Nat) : List Deed := (List.replicate n [.detached, .released]).flatten

theorem rounds_add (n k : Nat) : rounds (n + k) = rounds n ++ rounds k := by
  rw [rounds, List.replicate_add, List.flatten_append]
  rfl

namespace Stage

/-- What has been done to the node so far. -/
def deeds : Stage ι → List Deed
  | taken _ _ | shared | spent _ => [.detached]
  | _ => []

/-- Apart from being detached and being released, nothing is done to the node. -/
theorem Leads.deeds_eq {i : ι} {st st' : Stage ι} (t : Leads i st st') (take : ∀ c, st' ≠ taken i c)
    (release : st ≠ spent i) (lose : ∀ c, st' ≠ lost c) : st'.deeds = st.deeds := by
  cases t with
  | make | link | raise => rfl
  | take c => exact (take c rfl).elim
  | settle t =>
    cases t with
    | lose => exact (lose _ rfl).elim
    | _ => rfl
  | release => exact (release rfl).elim

end Stage

namespace Point

/-- The node that the next step detaches. -/
def detached? (m : Store α) : Point α → Option Address
  | pop (.detach held _) => if m.head = held then some held.address else none
  | _ => none

/-- The nodes whose release the next step notes. -/
def released (m : Store α) (p : Point α) : List Address :=
  (p.step m).notes.filterMap fun
    | .freed k => some (.node k)
    | _ => none

variable {m : Store α} {p : Point α} {a : Address}

theorem allCounted_step (c : m.nodes.AllCounted) : (p.step m).memory.nodes.AllCounted := by
  obtain (⟨w, granted⟩ | _ | _) | _ := p
  case push.allocate =>
    cases granted with
    | false => exact c
    | true => exact c.alloc w _ _
  case push.load => exact c
  case push.link =>
    simp only [step, Push.step]
    repeat' split
    · exact c
    · exact c.setPair _ _
    · exact c.setPair _ _
  case pop p =>
    cases p with
    | fold held w =>
      simp only [step, Pop.step]
      repeat' split
      · exact c
      · exact c
      all_goals exact c.setInternal held.address _
    | giveBack held now =>
      simp only [step, Pop.step]
      split
      · exact c
      · exact c.setInternal held.address _
    | release node w | releaseLate node now =>
      simp only [step, Pop.step]
      split
      · exact c.release node
      · exact c
    | _ =>
      simp only [step, Pop.step]
      repeat' split
      all_goals exact c

/-- Only a pop that is about to release a node does so. -/
theorem released_eq (p : Point α) (m : Store α) :
    p.released m = (p.spent?.filter m.nodes.isLiveAt).toList := by
  have noted {a : Address} (ha : m.nodes.isLiveAt a) :
      (a.freed : List (Note α)).filterMap
        (fun | .freed k => some (Address.node k) | _ => none) = [a] := by
    cases a <;> simp_all [Nodes.isLiveAt, Nodes.at?, Address.freed]
  obtain (⟨_, granted⟩ | _ | _) | p := p
  case pop =>
    cases p with
    | release node w | releaseLate node now =>
      by_cases hl : m.nodes.isLiveAt node
      · simpa [released, step, Pop.step, hl, Outcome.within, spent?, Option.filter] using noted hl
      · simp [released, step, Pop.step, hl, Outcome.within, spent?, Option.filter]
    | _ =>
      simp only [released, step, Pop.step]
      repeat' split
      all_goals rfl
  case push.allocate => cases granted <;> rfl
  all_goals
    simp only [released, step, Push.step]
    repeat' split
    all_goals rfl

/-- A pop comes to have a node taken only by detaching it. -/
theorem taken?_step {o : Point α} {q : Pair Address} (h : (p.step m).next = .goto o)
    (hq : o.taken? = some q) : p.taken? = some q ∨ p.detached? m = some q.address := by
  obtain (⟨w, granted⟩ | _ | ⟨node, seen⟩) | (_ | seen | _ | ⟨held, next⟩ | _ | _ | _ | _ | _) := p
  case pop.bump =>
    cases hb : seen.bump with
    | error e => simp [step, Pop.step, hb, Outcome.within, Next.within] at h
    | ok held =>
      by_cases hs : m.head = seen <;> by_cases hn : held.address = .null <;>
        simp [step, Pop.step, hb, hs, hn, Outcome.within, Next.within] at h <;> subst h <;> cases hq
  case pop.detach =>
    by_cases hs : m.head = held <;>
      simp [step, Pop.step, hs, Outcome.within, Next.within] at h <;> subst h
    · obtain rfl := Option.some.inj hq
      exact .inr (if_pos hs)
    · cases hq
  all_goals
    simp only [step, Push.step, Pop.step] at h
    repeat' split at h
    all_goals simp only [Outcome.within, Next.within, Next.goto.injEq, reduceCtorEq] at h
    all_goals subst h
  all_goals first
    | exact .inl hq
    | cases hq

end Point

namespace Crowd

variable [DecidableEq ι]

/-- The deeds of a move. -/
def deeds (x : Crowd ι α) : Move ι α → List (Address × Deed)
  | .step i =>
    match x.point i with
    | none => []
    | some p =>
      (p.detached? x.store).toList.map (·, .detached) ++ (p.released x.store).map (·, .released)
  | _ => []

/-- The deeds of all moves in their order. -/
def log (ms : List (Move ι α)) : List (Address × Deed) := (play move deeds start ms).2

theorem allCounted_move {x : Crowd ι α} (c : x.store.nodes.AllCounted) (mv : Move ι α) :
    (x.move mv).store.nodes.AllCounted := by
  cases mv with
  | call i d =>
    simp only [move]
    split
    · exact c
    · exact c
  | step i =>
    cases hp : x.point i with
    | none => simpa only [move, hp] using c
    | some p =>
      have hk := p.allCounted_step c
      rcases ho : p.step x.store with ⟨m, o | b | f, notes⟩ <;> rw [ho] at hk <;>
        simp only [move, hp, ho]
      · exact hk
      · exact hk
      · exact c
  | miss i =>
    simp only [move]
    split
    · exact c.setPair _ _
    · exact c
  | recycle k => exact c.recycle k

section Lives

variable [Fintype ι] {x : Crowd ι α} {stage stage' : Address → Stage ι} {l l' : List (Pair Address)}
  {mv : Move ι α} {i : ι} {p : Point α} {a : Address}

namespace Bounded

/-- A step that detaches a node. -/
theorem detached (b : x.Bounded stage l) (b' : (x.move (.step i)).Bounded stage' l')
    (hp : x.point i = some p) (hd : p.detached? x.store = some a) :
    (stage a).deeds = [] ∧ (stage' a).deeds = [.detached] ∧ p.spent? = none := by
  obtain _ | (_ | _ | _ | ⟨held, next⟩ | _ | _ | _ | _ | _) := p <;> try cases hd
  obtain ⟨hhead, rfl⟩ : x.store.head = held ∧ held.address = a := by simpa [Point.detached?] using hd
  have hkept : (stage held.address).IsKept := (b.sound.stands i).held_address (by rw [hp]; rfl)
  obtain ⟨k, hk⟩ := b.sound.exists_node (a := held.address) fun h => by simp [h, Stage.IsKept] at hkept
  have hlinked : stage held.address = .linked held.count :=
    (b.sound.linked held).mp (hhead ▸ b.sound.head_mem (by simp [hhead, hk]))
  have hpoint : (x.move (.step i)).point i = some (.pop (.take held)) := by
    simp [Crowd.move, hp, Point.step, Pop.step, hhead, Outcome.within, Next.within, set]
  have htaken : stage' held.address = .taken i held.count :=
    ((b'.sound.stands i).taken _ _).mpr (by rw [hpoint]; rfl)
  exact ⟨by rw [hlinked]; rfl, by rw [htaken]; rfl, rfl⟩

/-- A step that releases a node. -/
theorem released (b : x.Bounded stage l) (b' : (x.move (.step i)).Bounded stage' l')
    (hp : x.point i = some p) (hs : p.spent? = some a) :
    (stage a).deeds = [.detached] ∧ (stage' a).deeds = [] ∧ x.store.nodes.isLiveAt a ∧
      p.detached? x.store = none := by
  have hspent : stage a = .spent i := ((b.sound.stands i).spent a).mpr (by simp [hp, hs])
  obtain ⟨v, next, n, hn⟩ := b.sound.exists_counted (a := a) (by simp [hspent])
  obtain ⟨k, rfl⟩ := b.sound.exists_node (a := a) (by simp [hspent])
  have hgone := (spent_of_frees (b.sound.frees_iff.mpr hspent)).2
  have hfree : stage' (.node k) = .free := by
    by_contra hne
    simpa [hgone] using (b'.sound.live _).mp hne
  refine ⟨by rw [hspent]; rfl, by rw [hfree]; rfl, Nodes.isLiveAt_of_counted? hn, ?_⟩
  obtain _ | (_ | _ | _ | _ | _ | _ | _ | _ | _) := p <;> first | rfl | cases hs

/-- A step that neither detaches nor releases the node. -/
theorem others (b : x.Bounded stage l) (b' : (x.move (.step i)).Bounded stage' l')
    (leads : stage' a ≠ stage a → (stage a).Leads i (stage' a))
    (hd : ∀ p, x.point i = some p → p.detached? x.store ≠ some a)
    (hs : ∀ p, x.point i = some p → p.spent? ≠ some a) : (stage' a).deeds = (stage a).deeds := by
  by_cases hne : stage' a = stage a
  · rw [hne]
  refine (leads hne).deeds_eq (fun c hc => ?_) (fun h => ?_) (b'.not_lost a)
  · obtain ⟨o, ho, ht⟩ := Option.bind_eq_some_iff.mp (((b'.sound.stands i).taken a c).mp hc)
    -- The thread has the node taken since before this step.
    suffices h : (x.point i).bind Point.taken? = some ⟨c, a⟩ from
      hne (hc.trans (((b.sound.stands i).taken a c).mpr h).symm)
    cases hp : x.point i with
    | none => simp [Crowd.move, hp] at ho
    | some p =>
      rcases hout : p.step x.store with ⟨m, o' | w | f, notes⟩ <;>
        simp only [Crowd.move, hp, hout, set, Function.update_self, Option.some.injEq, reduceCtorEq] at ho
      · subst ho
        obtain h | h := Point.taken?_step (p := p) (m := x.store) (by rw [hout]) ht
        · exact h
        · exact (hd p hp h).elim
      · subst ho
        exact ht
  · obtain ⟨p, hp, hp'⟩ := Option.bind_eq_some_iff.mp (((b.sound.stands i).spent a).mp h)
    exact hs p hp hp'

/-- A move adds to the story of a node what it does to the node. -/
theorem turn (b : x.Bounded stage l) (b' : (x.move mv).Bounded stage' l')
    (leads : ∀ a, stage' a ≠ stage a → ∃ i, mv = .step i ∧ (stage a).Leads i (stage' a))
    (a : Address) :
    ∃ n, (stage a).deeds ++ story (x.deeds mv) a = rounds n ++ (stage' a).deeds := by
  have still (hstory : ∀ d ∈ x.deeds mv, d.1 ≠ a) (h : (stage' a).deeds = (stage a).deeds) :
      ∃ n, (stage a).deeds ++ story (x.deeds mv) a = rounds n ++ (stage' a).deeds :=
    ⟨0, by rw [story_eq_nil hstory, h]; simp [rounds]⟩
  cases mv with
  | step i =>
    have hstory {p : Point α} (hp : x.point i = some p) : x.deeds (.step i) =
        (p.detached? x.store).toList.map (·, .detached) ++
          (p.spent?.filter x.store.nodes.isLiveAt).toList.map (·, .released) := by
      simp [deeds, hp, Point.released_eq]
    by_cases hd : ∃ p, x.point i = some p ∧ p.detached? x.store = some a
    · obtain ⟨p, hp, hd⟩ := hd
      obtain ⟨h, h', hs⟩ := b.detached b' hp hd
      exact ⟨0, by simp [hstory hp, h, h', hs, hd, story, rounds]⟩
    by_cases hs : ∃ p, x.point i = some p ∧ p.spent? = some a
    · obtain ⟨p, hp, hs⟩ := hs
      obtain ⟨h, h', hl, hd⟩ := b.released b' hp hs
      exact ⟨1, by simp [hstory hp, h, h', hs, hd, hl, story, rounds, Option.filter]⟩
    · have hd' : ∀ p, x.point i = some p → p.detached? x.store ≠ some a := fun p hp h => hd ⟨p, hp, h⟩
      have hs' : ∀ p, x.point i = some p → p.spent? ≠ some a := fun p hp h => hs ⟨p, hp, h⟩
      refine still (fun d hdeed => ?_) (b.others b' (fun h => ?_) hd' hs')
      · cases hp : x.point i with
        | none => simp [deeds, hp] at hdeed
        | some p =>
          rw [hstory hp] at hdeed
          simp only [List.mem_append, List.mem_map, Option.mem_toList, Option.filter_eq_some_iff] at hdeed
          obtain ⟨c, hc, rfl⟩ | ⟨c, ⟨hc, -⟩, rfl⟩ := hdeed
          · rintro rfl
            exact hd' p hp hc
          · rintro rfl
            exact hs' p hp hc
      · obtain ⟨j, hj, t⟩ := leads a h
        cases hj
        exact t
  | call | miss | recycle =>
    refine still (by simp [deeds]) ?_
    by_contra h
    obtain ⟨i, hi, -⟩ := leads a fun e => h (by rw [e])
    cases hi

end Bounded

/-- Each node in a place is detached and then released, before the place is used again. -/
structure Tells (x : Crowd ι α) (log : List (Address × Deed)) : Prop where
  counted : x.store.nodes.AllCounted
  stories : ∃ stage l, x.Bounded stage l ∧ ∀ a, ∃ n, story log a = rounds n ++ (stage a).deeds

theorem Tells.move {log : List (Address × Deed)} (t : x.Tells log) (mv : Move ι α)
    (fits : (x.move mv).store.head.Fits) : (x.move mv).Tells (log ++ x.deeds mv) := by
  obtain ⟨stage, l, b, hlog⟩ := t.stories
  obtain ⟨stage', l', b', leads⟩ := b.move mv fits
  refine ⟨allCounted_move t.counted mv, stage', l', b', fun a => ?_⟩
  obtain ⟨n, hn⟩ := hlog a
  obtain ⟨k, hk⟩ := b.turn b' leads a
  exact ⟨n + k, by rw [story_append, hn, List.append_assoc, hk, rounds_add, List.append_assoc]⟩

theorem tells_run {ms : List (Move ι α)} (fit : CountsFit ms) : (run ms).1.Tells (log ms) := by
  have start : (start : Crowd ι α).Tells [] :=
    ⟨.empty, _, _, .start, fun _ => ⟨0, by simp [story, rounds, Stage.deeds]⟩⟩
  rw [run, play_fst deeds]
  exact play_induction_of (fun x : Crowd ι α => x.store.head.Fits) Tells (fun _ => start)
    (fun _ _ mv _ after t => t.move mv after) ms fun ms' h => by
      rw [play_fst moments]
      exact fit ms' h

omit [DecidableEq ι] in
/-- A thread that is not in the middle of an operation has no node in its hands. -/
theorem Sound.stage_of_idle (s : x.Sound stage l) (idle : ∀ i, x.point i = none) (a : Address) :
    stage a = .free ∨ (∃ c, stage a = .linked c) ∨ ∃ c, stage a = .lost c := by
  cases hst : stage a with
  | free => exact .inl rfl
  | linked c => exact .inr (.inl ⟨c, rfl⟩)
  | lost c => exact .inr (.inr ⟨c, rfl⟩)
  | fresh i =>
    have := ((s.stands i).fresh a).mp hst
    simp [idle] at this
  | taken i c =>
    have := ((s.stands i).taken a c).mp hst
    simp [idle] at this
  | spent i =>
    have := ((s.stands i).spent a).mp hst
    simp [idle] at this
  | shared =>
    obtain ⟨v, next, n, hn⟩ := s.exists_counted (a := a) (by simp [hst])
    have hb := s.balanced a v next n hn
    rw [hst] at hb
    have hzero : x.holders a = 0 := by simp [Crowd.holders, idle, holder?]
    exact absurd hzero (Nat.ne_of_gt hb.2.1)

omit [DecidableEq ι] in
theorem Bounded.stage_of_idle (b : x.Bounded stage l) (idle : ∀ i, x.point i = none) (a : Address) :
    stage a = .free ∨ ∃ c, stage a = .linked c :=
  (b.sound.stage_of_idle idle a).imp_right fun h => h.resolve_right fun ⟨c, hc⟩ => b.not_lost a c hc

omit [DecidableEq ι] in
/-- Two pairs of the chain that point to one node have the count that the stage of the node tells. -/
theorem Sound.nodup_address (s : x.Sound stage l) : (l.map Pair.address).Nodup := by
  refine s.nodup.map_on fun p hp q hq e => ?_
  have h := ((s.linked p).mp hp).symm.trans (e ▸ (s.linked q).mp hq)
  exact Pair.ext (Stage.linked.inj h) e

omit [DecidableEq ι] in
theorem Sound.isLiveAt_iff (s : x.Sound stage l) (counted : x.store.nodes.AllCounted) (a : Address) :
    x.store.nodes.isLiveAt a ↔ stage a ≠ .free := by
  rw [s.live]
  refine ⟨counted a, fun h => ?_⟩
  obtain ⟨y, hy⟩ := Option.isSome_iff_exists.mp h
  exact Nodes.isLiveAt_of_counted? hy

/-- When no operation is in flight, the nodes that are there are those of the chain, and every node
that has been detached has been released, once and before the next one in its place. -/
theorem nothing_stranded {ms : List (Move ι α)} (fit : CountsFit ms)
    (idle : ∀ i, (run ms).1.point i = none) :
    ∃ l count, Path (run ms).1.store.nodes.beneath? (run ms).1.store.head l ⟨count, .null⟩ ∧
      (l.map Pair.address).Nodup ∧
      (∀ a, (run ms).1.store.nodes.isLiveAt a ↔ a ∈ l.map Pair.address) ∧
      ∀ a, ∃ n, story (log ms) a = rounds n := by
  obtain ⟨counted, stage, l, b, hlog⟩ := tells_run fit
  obtain ⟨count, path⟩ := b.sound.chain
  refine ⟨l, count, path, b.sound.nodup_address, fun a => ?_, fun a => ?_⟩
  · rw [b.sound.isLiveAt_iff counted, List.mem_map]
    constructor
    · intro h
      obtain ⟨c, hc⟩ := (b.stage_of_idle idle a).resolve_left h
      exact ⟨⟨c, a⟩, (b.sound.linked _).mpr hc, rfl⟩
    · rintro ⟨p, hp, rfl⟩
      simp [(b.sound.linked p).mp hp]
  · obtain ⟨n, hn⟩ := hlog a
    refine ⟨n, ?_⟩
    obtain h | ⟨c, h⟩ := b.stage_of_idle idle a <;> simpa [h, Stage.deeds] using hn

end Lives

/-- The first pop releases the node for the second one and finds the stack empty. -/
def settlement : List (Move Bool Nat) := contest ++ [.step false, .step false]

theorem countsFit_settlement : CountsFit settlement := countsFit_of_lt (by decide +kernel)

theorem nothing_stranded_settlement :
    CountsFit settlement ∧ (∀ i, (run settlement).1.point i = none) ∧
      story (log settlement) (.node 0) = rounds 1 ∧
      ∃ l count, Path (run settlement).1.store.nodes.beneath? (run settlement).1.store.head l
          ⟨count, .null⟩ ∧ (l.map Pair.address).Nodup ∧
        (∀ a, (run settlement).1.store.nodes.isLiveAt a ↔ a ∈ l.map Pair.address) ∧
        ∀ a, ∃ n, story (log settlement) a = rounds n := by
  have idle : ∀ i, (run settlement).1.point i = none := Bool.forall_bool.mpr ⟨rfl, rfl⟩
  exact ⟨countsFit_settlement, idle, by decide +kernel, nothing_stranded countsFit_settlement idle⟩

end Crowd

end Counted

end LockFreeStack
