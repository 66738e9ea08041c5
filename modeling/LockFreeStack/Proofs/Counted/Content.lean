import LockFreeStack.Proofs.Counted.Safety
import LockFreeStack.Proofs.Counted.Activity
import Mathlib.Data.List.Forall2
import Mathlib.Data.List.Infix

/-!
What a crowd's history tells about the values that are linked from the head. As long as the counts
do not overflow, they are those of a plain list.
-/

namespace LockFreeStack.Counted

variable {ι α : Type}

/-- The values of the nodes that the pairs point to. -/
def Holds (h : Nodes α) (l : List (Pair Address)) (vs : List α) : Prop :=
  List.Forall₂ (fun p v => h.value? p.address = some v) l vs

theorem Holds.of_address_eq {h : Nodes α} {l l' : List (Pair Address)} {vs : List α}
    (hv : Holds h l vs) (e : l'.map Pair.address = l.map Pair.address) : Holds h l' vs := by
  unfold Holds at *
  rw [← List.forall₂_map_left_iff (f := Pair.address) (R := fun a v => h.value? a = some v)] at *
  rwa [e]

theorem Holds.congr {h h' : Nodes α} {l : List (Pair Address)} {vs : List α} (hv : Holds h l vs)
    (keep : ∀ p ∈ l, ∀ v, h.value? p.address = some v → h'.value? p.address = some v) :
    Holds h' l vs := by
  induction hv with
  | nil => exact .nil
  | cons hp _ ih => exact .cons (keep _ (by simp) _ hp) (ih fun p hp => keep p (by simp [hp]))

/-- What a shift of the chain does to the values along it. -/
theorem Shift.turns {h : Nodes α} {l l' : List (Pair Address)} {vs : List α} {e : Option (Effect α)}
    (sh : Shift h l l' e) (hv : Holds h l vs) : ∃ vs', Holds h l' vs' ∧ Turns e vs vs' := by
  cases sh with
  | stay e => exact ⟨vs, hv.of_address_eq e, rfl⟩
  | push hn => exact ⟨_, .cons (by simp [Nodes.value?, hn]) hv, .push _ _⟩
  | pop hn =>
    cases hv with
    | cons hw hv =>
      rw [Nodes.value?, hn] at hw
      obtain rfl := Option.some.inj hw
      exact ⟨_, hv, .pop _ _⟩
  | empty =>
    cases hv
    exact ⟨[], .nil, .empty⟩

namespace Crowd

variable [DecidableEq ι] {x : Crowd ι α} {h : List (Moment ι (Call α) α)} {i j : ι}

def activity? (x : Crowd ι α) (i : ι) : Option (Activity (Call α) α) :=
  match x.point i with
  | none => some .idle
  | some p => p.activity? x.store.nodes

omit [DecidableEq ι] in
theorem filterMap_moments (x : Crowd ι α) (mv : Move ι α) :
    (x.moments mv).filterMap Moment.effect? = (x.effect? mv).toList := by
  cases mv with
  | step i =>
    cases hp : x.point i with
    | none => simp [moments, effect?, hp]
    | some p =>
      simp only [moments, effect?, hp, Option.bind_some, List.filterMap_append]
      cases p.effect? x.store <;> cases (p.step x.store).next <;> simp [Moment.effect?]
  | call i c =>
    cases hp : x.point i <;> simp [moments, effect?, hp, Moment.effect?]
  | miss i => rfl
  | recycle k => rfl

theorem value?_move (x : Crowd ι α) (mv : Move ι α) {a : Address} {v v' : α}
    (h : x.store.nodes.value? a = some v) (h' : (x.move mv).store.nodes.value? a = some v') :
    v' = v := by
  have same {v' : α} (h' : x.store.nodes.value? a = some v') : v' = v :=
    Option.some.inj (h'.symm.trans h)
  cases mv with
  | call i c =>
    simp only [move] at h'
    split at h' <;> exact same h'
  | step i =>
    cases hp : x.point i with
    | none => exact same (by simpa [move, hp] using h')
    | some p =>
      rcases ho : p.step x.store with ⟨m, q | b | f, notes⟩ <;>
        simp only [move, hp, ho] at h'
      · exact p.value?_step x.store h (by rwa [ho])
      · exact p.value?_step x.store h (by rwa [ho])
      · exact same h'
  | miss i =>
    simp only [move] at h'
    split at h' <;> exact same (by simpa [set] using h')
  | recycle k => exact same (by simpa [move] using h')

theorem move_point_of_ne {mv : Move ι α} (h : mv.thread? ≠ some j) :
    (x.move mv).point j = x.point j := by
  cases mv with
  | call i c =>
    have hj : j ≠ i := fun e => h (by rw [e]; rfl)
    cases hp : x.point i <;> simp [move, hp, set, Function.update_of_ne hj]
  | step i =>
    have hj : j ≠ i := fun e => h (by rw [e]; rfl)
    cases hp : x.point i with
    | none => simp [move, hp]
    | some p =>
      rcases ho : p.step x.store with ⟨m, q | b | f, notes⟩ <;>
        simp [move, hp, ho, set, Function.update_of_ne hj]
  | miss i =>
    have hj : j ≠ i := fun e => h (by rw [e]; rfl)
    simp only [move]
    split <;> simp [set, Function.update_of_ne hj]
  | recycle k => rfl

omit [DecidableEq ι] in
theorem thread_of_mem_moments {mv : Move ι α} {m : Moment ι (Call α) α} (h : m ∈ x.moments mv) :
    mv.thread? = some m.thread := by
  cases mv with
  | call i c =>
    cases hp : x.point i <;> simp [moments, hp] at h
    subst h
    rfl
  | step i =>
    cases hp : x.point i with
    | none => simp [moments, hp] at h
    | some p =>
      simp only [moments, hp, List.mem_append] at h
      obtain h | h := h
      · obtain ⟨e, -, rfl⟩ := by simpa using h
        rfl
      · cases hn : (p.step x.store).next <;> simp [hn] at h
        subst h
        rfl
  | miss i | recycle k => simp [moments] at h

section Sound

variable [Fintype ι] {stage : Address → Stage ι} {l : List (Pair Address)}

omit [DecidableEq ι] in
theorem Sound.value_isSome (s : x.Sound stage l) {a : Address} (ha : x.Uses i a) :
    (x.store.nodes.value? a).isSome := by
  have hne : stage a ≠ .free := by
    intro hf
    obtain h | h | h := s.stage_of_uses ha <;> rw [hf] at h
    · cases h
    · exact h
    · cases h
  simpa [Nodes.value?] using (s.live a).mp hne

omit [DecidableEq ι] in
theorem Sound.point_value_isSome (s : x.Sound stage l) {p : Point α} (hp : x.point i = some p)
    {a : Address} (ha : p.Uses a) : (x.store.nodes.value? a).isSome :=
  s.value_isSome ⟨p, hp, ha⟩

omit [DecidableEq ι] in
theorem Sound.held_value_isSome (s : x.Sound stage l) {p : Point α} (hp : x.point i = some p)
    {q : Pair Address} (hq : p.held? = some q) : (x.store.nodes.value? q.address).isSome :=
  s.point_value_isSome hp (.inr (.inl (by simp [hq])))

omit [DecidableEq ι] in
/-- A thread that is left alone stays in its operation, as its nodes keep their values. -/
theorem Sound.activity?_of_point_eq {x' : Crowd ι α} (s : x'.Sound stage l)
    (point : x'.point j = x.point j)
    (values : ∀ a v v', x.store.nodes.value? a = some v → x'.store.nodes.value? a = some v' → v' = v)
    {st : Activity (Call α) α} (hs : x.activity? j = some st) : x'.activity? j = some st := by
  have keep {p : Point α} (hp : x.point j = some p) {a : Address} (ha : p.Uses a) {v : α}
      (hv : x.store.nodes.value? a = some v) : x'.store.nodes.value? a = some v := by
    obtain ⟨v', hv'⟩ := Option.isSome_iff_exists.mp (s.point_value_isSome (point.trans hp) ha)
    rw [hv', values a v v' hv hv']
  unfold activity? at *
  rw [point]
  rcases hp : x.point j with _ | (⟨v, granted⟩ | a | ⟨a, seen⟩) | p
  · rwa [hp] at hs
  · rwa [hp] at hs
  · rw [hp] at hs
    obtain ⟨v, hv, rfl⟩ := Option.map_eq_some_iff.mp hs
    exact Option.map_eq_some_iff.mpr ⟨v, keep hp (.inl rfl) hv, rfl⟩
  · rw [hp] at hs
    obtain ⟨v, hv, rfl⟩ := Option.map_eq_some_iff.mp hs
    exact Option.map_eq_some_iff.mpr ⟨v, keep hp (.inl rfl) hv, rfl⟩
  · cases p with
    | take held =>
      rw [hp] at hs
      obtain ⟨v, hv, rfl⟩ := Option.map_eq_some_iff.mp hs
      exact Option.map_eq_some_iff.mpr ⟨v, keep hp (.inr (.inl rfl)) hv, rfl⟩
    | _ => rwa [hp] at hs

/-- The values that are linked after a move are those of the history. -/
theorem Sound.content_move {mv : Move ι α} {stage' : Address → Stage ι} {l' : List (Pair Address)}
    {vs : List α} (s' : (x.move mv).Sound stage' l') (sh : Shift x.store.nodes l l' (x.effect? mv))
    (hv : Holds x.store.nodes l vs) (hr : Replays (h.filterMap Moment.effect?) vs) :
    ∃ vs', Holds (x.move mv).store.nodes l' vs' ∧
      Replays ((h ++ x.moments mv).filterMap Moment.effect?) vs' := by
  obtain ⟨vs', hv', turn⟩ := sh.turns hv
  refine ⟨vs', hv'.congr fun p hp v hpv => ?_, ?_⟩
  · have hlive : ((x.move mv).store.nodes.value? p.address).isSome := by
      simpa [Nodes.value?] using (s'.live p.address).mp (by simp [(s'.linked p).mp hp])
    obtain ⟨v', hv''⟩ := Option.isSome_iff_exists.mp hlive
    rw [hv'', x.value?_move mv hpv hv'']
  · rw [List.filterMap_append, filterMap_moments]
    exact hr.turn turn

section Account

variable {Ends : Call α → List (Effect α) → Answer α → Prop} {st : Activity (Call α) α}

/-- The thread that moves goes on in its operation, or ends it. -/
theorem Sound.account_step (s : x.Sound stage l) {p : Point α} (hp : x.point i = some p) {c : Call α}
    {es : List (Effect α)} (hacc : Account Ends i h (.busy c es)) (hc : p.Continues Ends x.store c es) :
    ∃ st, Account Ends i (h ++ x.moments (.step i)) st ∧ (x.move (.step i)).activity? i = some st := by
  have hacc' := hacc.effects (p.effect? x.store)
  rcases ho : p.step x.store with ⟨m, q | a | f, notes⟩
  · refine ⟨_, by simpa [moments, hp, ho] using hacc', ?_⟩
    simpa [Point.Continues, Crowd.move, activity?, set, hp, ho] using hc
  · refine ⟨.idle, ?_, by simp [Crowd.move, activity?, set, hp, ho]⟩
    have hends : Ends c (es ++ (p.effect? x.store).toList) a := by
      simpa [Point.Continues, ho] using hc
    simpa [moments, hp, ho] using hacc'.answer hends
  · exact absurd ⟨p, f, hp, by rw [ho]⟩ (s.not_faults i)

/-- A thread that goes on as its point says accounts for what it does. -/
theorem Sound.account_move (s : x.Sound stage l) (hacc : Account Ends j h st) (hst : x.activity? j = some st)
    (mv : Move ι α)
    (goes : ∀ p, x.point j = some p → ∃ c es, st = .busy c es ∧ p.Continues Ends x.store c es) :
    ∃ st, Account Ends j (h ++ x.moments mv) st ∧ (x.move mv).activity? j = some st := by
  obtain ⟨stage', l', s', -⟩ := s.move mv
  by_cases hj : mv.thread? = some j
  · cases mv with
    | call i c =>
      obtain rfl := Option.some.inj hj
      cases hp : x.point i with
      | none =>
        obtain rfl : Activity.idle = st := by simpa [activity?, hp] using hst
        refine ⟨_, by simpa [moments, hp] using hacc.call (c := c), ?_⟩
        cases c <;> simp [Crowd.move, hp, activity?, set, Call.start, Point.activity?]
      | some p => exact ⟨st, by simpa [moments, hp] using hacc, by simpa [Crowd.move, hp] using hst⟩
    | step i =>
      obtain rfl := Option.some.inj hj
      cases hp : x.point i with
      | none => exact ⟨st, by simpa [moments, hp] using hacc, by simpa [Crowd.move, hp] using hst⟩
      | some p =>
        obtain ⟨c, es, rfl, hc⟩ := goes p hp
        exact s.account_step hp hacc hc
    | miss i =>
      obtain rfl := Option.some.inj hj
      refine ⟨st, by simpa [moments] using hacc, ?_⟩
      simp only [Crowd.move]
      split
      · rename_i hp
        simpa [activity?, hp, set, Point.activity?] using hst
      · exact hst
    | recycle k => cases hj
  · exact ⟨st, hacc.others _ fun m hm e => hj (e ▸ thread_of_mem_moments hm),
      s'.activity?_of_point_eq (move_point_of_ne hj) (fun a v v' => x.value?_move mv) hst⟩

end Account

/-- The history tells what is linked from the head, and what each thread is doing. -/
structure Told (x : Crowd ι α) (h : List (Moment ι (Call α) α)) : Prop where
  content : ∃ stage l vs, x.Sound stage l ∧ Holds x.store.nodes l vs ∧
    Replays (h.filterMap Moment.effect?) vs
  accounts : ∀ i, ∃ st, Account Call.Fits i h st ∧ x.activity? i = some st
  fits : ∀ i p q, x.point i = some p → p.pair? = some q → q.Fits

namespace Told

omit [DecidableEq ι] in
theorem start : (start : Crowd ι α).Told [] where
  content := ⟨_, [], [], sound_start, .nil, .nil⟩
  accounts _ := ⟨.idle, .nil, rfl⟩
  fits := by simp [Crowd.start]

theorem content_move (t : x.Told h) (mv : Move ι α) :
    ∃ stage l vs, (x.move mv).Sound stage l ∧ Holds (x.move mv).store.nodes l vs ∧
      Replays ((h ++ x.moments mv).filterMap Moment.effect?) vs := by
  obtain ⟨stage, l, vs, s, hv, hr⟩ := t.content
  obtain ⟨stage', l', s', sh, -⟩ := s.move mv
  obtain ⟨vs', hv', hr'⟩ := s'.content_move sh hv hr
  exact ⟨stage', l', vs', s', hv', hr'⟩

theorem account_move (t : x.Told h) (mv : Move ι α) (j : ι) :
    ∃ st, Account Call.Fits j (h ++ x.moments mv) st ∧ (x.move mv).activity? j = some st := by
  obtain ⟨stage, l, vs, s, -⟩ := t.content
  obtain ⟨st, hacc, hst⟩ := t.accounts j
  refine s.account_move hacc hst mv fun p hp => ?_
  exact Point.continues (by simpa [activity?, hp] using hst) (fun q hq => s.held_value_isSome hp hq)
    (Point.calm_of_fits fun q => t.fits j p q hp)

theorem fits_move (t : x.Told h) (mv : Move ι α) (before : x.store.head.Fits)
    (after : (x.move mv).store.head.Fits) (j : ι) (p : Point α) (q : Pair Address)
    (hp : (x.move mv).point j = some p) (hq : p.pair? = some q) : q.Fits := by
  by_cases hj : mv.thread? = some j
  · cases mv with
    | call i c =>
      obtain rfl := Option.some.inj hj
      cases hi : x.point i with
      | none =>
        obtain rfl : c.start = p := by simpa [move, hi, set] using hp
        cases c <;> cases hq
      | some o => exact t.fits i p q (by simpa [move, hi] using hp) hq
    | step i =>
      obtain rfl := Option.some.inj hj
      cases hi : x.point i with
      | none => simp [move, hi] at hp
      | some o =>
        rcases ho : o.step x.store with ⟨m, o' | a | f, notes⟩ <;>
          simp only [move, hi, ho] at hp after
        · obtain rfl : o' = p := by simpa [set] using hp
          obtain rfl | rfl | hr := o.pair?_step (m := x.store) (by rw [ho]) hq
          · exact before
          · simpa [set, ho] using after
          · exact t.fits i o q hi hr
        · simp [set] at hp
        · exact t.fits i p q (hi.trans hp) hq
    | miss i =>
      obtain rfl := Option.some.inj hj
      simp only [move] at hp
      split at hp
      · obtain rfl : _ = p := by simpa [set] using hp
        cases hq
      · exact t.fits i p q hp hq
    | recycle k => cases hj
  · exact t.fits j p q (by rwa [move_point_of_ne hj] at hp) hq

theorem move (t : x.Told h) (mv : Move ι α) (before : x.store.head.Fits)
    (after : (x.move mv).store.head.Fits) : (x.move mv).Told (h ++ x.moments mv) :=
  ⟨t.content_move mv, t.account_move mv, t.fits_move mv before after⟩

end Told

/-- At no time do the moves give the head a count that overflows. -/
def CountsFit (ms : List (Move ι α)) : Prop := ∀ ms', ms' <+: ms → (run ms').1.store.head.Fits

omit [Fintype ι] in
theorem countsFit_of_lt {ms : List (Move ι α)}
    (h : ∀ ms' ∈ ms.inits, (run ms').1.store.head.count.toNat < 2 ^ 63) : CountsFit ms :=
  fun ms' hms => Pair.fits_of_lt (h ms' ((List.mem_inits ms' ms).mpr hms))

theorem told_run {ms : List (Move ι α)} (fit : CountsFit ms) : (run ms).1.Told (run ms).2 :=
  play_induction_of (fun x : Crowd ι α => x.store.head.Fits) Told (fun _ => .start)
    (fun _ _ mv before after t => t.move mv before after) ms fit

/-- The history is that of a plain list which now is `vs`, the nodes linked from the head on hold
its values in their order, and each value that has been pushed is there or has been popped. -/
structure Listed (x : Crowd ι α) (h : List (Moment ι (Call α) α)) (vs : List α) : Prop where
  explains : Explains Call.Fits h vs
  linked : ∃ l count, Path x.store.nodes.beneath? x.store.head l ⟨count, .null⟩ ∧ l.Nodup ∧
    Holds x.store.nodes l vs
  conserved : ((h.filterMap Moment.effect?).filterMap Effect.pushed?).Perm
    ((h.filterMap Moment.effect?).filterMap Effect.popped? ++ vs)

/-- Whatever the threads do, the stack is linearizable to a plain list while the counts fit. -/
theorem linearizable {ms : List (Move ι α)} (fit : CountsFit ms) :
    ∃ vs, (run ms).1.Listed (run ms).2 vs := by
  have t := told_run fit
  obtain ⟨stage, l, vs, s, hv, hr⟩ := t.content
  obtain ⟨count, path⟩ := s.chain
  refine ⟨vs, ⟨hr, fun i => ?_⟩, ⟨l, count, path, s.nodup, hv⟩, hr.perm⟩
  obtain ⟨st, hacc, -⟩ := t.accounts i
  exact ⟨st, hacc⟩

end Sound

/-- One thread pushes a value, and the other one pops it. -/
def handover : List (Move (Fin 2) Nat) :=
  [.call 0 (.push 7 true), .step 0, .step 0, .step 0,
    .call 1 .pop, .step 1, .step 1, .step 1, .step 1, .step 1, .step 1, .step 1]

theorem countsFit_handover : CountsFit handover := countsFit_of_lt (by decide +kernel)

theorem linearizable_handover :
    CountsFit handover ∧ ∃ vs, (run handover).1.Listed (run handover).2 vs :=
  ⟨countsFit_handover, linearizable countsFit_handover⟩

end Crowd

end LockFreeStack.Counted
