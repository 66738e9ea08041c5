import LockFreeStack.Proofs.Counted.Step

/-!
Whatever the threads of a crowd do, nobody touches a node that has been released, and a node is
released when all others are done with it.
-/

namespace LockFreeStack.Counted.Crowd

variable {ι α : Type} [DecidableEq ι] [Fintype ι] {x : Crowd ι α} {stage : Address → Stage ι}
  {l : List (Pair Address)} {i j : ι} {a : Address} {k : Nat}

/-- The effect of a move, if it has one. -/
def effect? (x : Crowd ι α) : Move ι α → Option (Effect α)
  | .step i => (x.point i).bind (Point.effect? x.store)
  | _ => none

namespace Sound

theorem call (s : x.Sound stage l) (c : Call α) (hp : x.point i = none) :
    (x.set i x.store (some c.start)).Sound stage l := by
  cases c <;>
    exact s.quiet i (fun _ => rfl) s.chain (by rw [hp]; rfl) (by rw [hp]; rfl) (by rw [hp]; rfl)
      (by rw [hp]; rfl) (by simp [Call.start])

omit [DecidableEq ι] in
/-- It does not matter which place is given out next. -/
theorem recycle (s : x.Sound stage l) (k : Nat) :
    Sound ⟨⟨x.store.nodes.recycle k, x.store.head⟩, x.point⟩ stage l := by
  have hnodes : ∀ p, Nodes.beneath? (x.store.nodes.recycle k) p = x.store.nodes.beneath? p :=
    fun p => beneath?_congr (Nodes.counted?_recycle _ k _)
  obtain ⟨count, path⟩ := s.chain
  refine ⟨fun a => ?_, ⟨count, path.congr fun p _ => hnodes p⟩, s.linked, fun a v nx n hv => ?_,
    fun j => ?_⟩
  · rw [s.live, Nodes.counted?_recycle]
  · rw [Nodes.counted?_recycle] at hv
    exact s.balanced a v nx n hv
  · have t := s.stands j
    exact ⟨t.fresh, t.taken, t.spent, t.held, fun p nx ho => by rw [hnodes]; exact t.next p nx ho⟩

/-- Only a step of a thread changes the stage of a node. -/
theorem move (s : x.Sound stage l) (mv : Move ι α) :
    ∃ stage' l', (x.move mv).Sound stage' l' ∧ Shift x.store.nodes l l' (x.effect? mv) ∧
      ∀ b, stage' b ≠ stage b → ∃ i, mv = .step i ∧ (stage b).Leads i (stage' b) := by
  have still (s' : (x.move mv).Sound stage l) (e : x.effect? mv = none) :
      ∃ stage' l', (x.move mv).Sound stage' l' ∧ Shift x.store.nodes l l' (x.effect? mv) ∧
        ∀ b, stage' b ≠ stage b → ∃ i, mv = .step i ∧ (stage b).Leads i (stage' b) :=
    ⟨stage, l, s', e ▸ .stay rfl, fun _ h => (h rfl).elim⟩
  cases mv with
  | call i c =>
    refine still ?_ rfl
    cases hp : x.point i with
    | none =>
      simp only [Crowd.move, hp]
      exact s.call c hp
    | some p => simpa only [Crowd.move, hp] using s
  | step i =>
    cases hp : x.point i with
    | none => exact still (by simpa only [Crowd.move, hp] using s) (by simp [effect?, hp])
    | some p =>
      have hk := s.step hp
      simp only [Crowd.move, hp, effect?, Option.bind_some]
      unfold Keeps at hk
      rcases hout : p.step x.store with ⟨m, q | a | f, notes⟩ <;> simp only [hout] at hk
      all_goals
        obtain ⟨stage', l', s', sh, leads⟩ := hk
        exact ⟨stage', l', s', sh, fun b hb => ⟨i, rfl, leads b hb⟩⟩
  | miss i =>
    refine still ?_ rfl
    simp only [Crowd.move]
    split
    · exact s.relink ‹_› _
    · exact s
  | recycle k => exact still (s.recycle k) rfl

theorem not_faults (s : x.Sound stage l) (i : ι) : ¬x.Faults i := by
  rintro ⟨p, f, hp, hf⟩
  have hk := s.step hp
  unfold Keeps at hk
  simp only [hf] at hk

omit [DecidableEq ι] in
/-- Only nodes that are there are in use. -/
theorem stage_of_uses (s : x.Sound stage l) (h : x.Uses j a) :
    stage a = .fresh j ∨ (stage a).IsKept ∨ stage a = .spent j := by
  obtain ⟨p, hp, hf | hh | hs⟩ := h
  · exact .inl (((s.stands j).fresh a).mpr (by simp [hp, hf]))
  · exact .inr (.inl ((s.stands j).held a (by simp [hp, holder?, hh])))
  · exact .inr (.inr (((s.stands j).spent a).mpr (by simp [hp, hs])))

end Sound

omit [DecidableEq ι] in
theorem sound_start : (start : Crowd ι α).Sound (fun _ => .free) [] where
  live a := by cases a <;> simp [start, Nodes.counted?, Nodes.at?, Heap.get?, Heap.empty]
  chain := ⟨0, .nil _⟩
  linked p := by simp
  balanced a v next n h := by
    cases a <;> simp [start, Nodes.counted?, Nodes.at?, Heap.get?, Heap.empty] at h
  stands i := by constructor <;> simp [start, holder?]

theorem sound_run (ms : List (Move ι α)) : ∃ stage l, (run ms).1.Sound stage l := by
  refine play_induction (fun x _ => ∃ stage l, Sound x stage l) ⟨_, _, sound_start⟩ ?_ ms
  rintro x _ mv ⟨stage, l, s⟩
  obtain ⟨stage', l', s', -⟩ := s.move mv
  exact ⟨stage', l', s'⟩

omit [Fintype ι] in
/-- A node is released from two points only, and is gone after that. -/
theorem spent_of_frees (h : x.Frees i k) :
    (∃ p, x.point i = some p ∧ p.spent? = some (.node k)) ∧
      (x.move (.step i)).store.nodes.counted? (.node k) = none := by
  obtain ⟨p, hp, hk⟩ := h
  obtain (_ | _ | _) | _ | _ | _ | _ | _ | _ | ⟨a, v⟩ | _ | ⟨a, now⟩ := p
  case pop.release | pop.releaseLate =>
    simp only [Point.step, Pop.step] at hk
    split at hk
    · rename_i hlive
      obtain rfl : a = .node k := by cases a <;> simp_all [Outcome.within, Address.freed]
      refine ⟨⟨_, hp, rfl⟩, ?_⟩
      simp [Crowd.move, hp, Point.step, Pop.step, hlive, Outcome.within, Next.within, set,
        Nodes.counted?_release]
    · simp [Outcome.within] at hk
  all_goals
    simp only [Point.step, Push.step, Pop.step] at hk
    repeat' split at hk
    all_goals simp [Outcome.within, exchanged] at hk

/-- No step reads, updates or releases a node that is not there. When a node is released, no other
thread is going to use it any more, nor is anyone after that. -/
theorem memory_safe (ms : List (Move ι α)) :
    (∀ i, ¬(run ms).1.Faults i) ∧
      ∀ i k, (run ms).1.Frees i k →
        (∀ j ≠ i, ¬(run ms).1.Uses j (.node k)) ∧
          ∀ j, ¬((run ms).1.move (.step i)).Uses j (.node k) := by
  obtain ⟨stage, l, s⟩ := sound_run ms
  refine ⟨s.not_faults, fun i k hf => ?_⟩
  obtain ⟨⟨p, hp, hspent⟩, hgone⟩ := spent_of_frees hf
  have hstage : stage (.node k) = .spent i := ((s.stands i).spent _).mpr (by simp [hp, hspent])
  constructor
  · intro j hj hu
    obtain h | h | h := s.stage_of_uses hu <;> rw [hstage] at h
    · cases h
    · exact h
    · exact hj (Stage.spent.inj h).symm
  · intro j hu
    obtain ⟨stage', l', s', -⟩ := s.move (.step i)
    have hfree : stage' (.node k) = .free := by
      by_contra hne
      simpa [hgone] using (s'.live _).mp hne
    obtain h | h | h := s'.stage_of_uses hu <;> rw [hfree] at h
    · cases h
    · exact h
    · cases h

end LockFreeStack.Counted.Crowd
