import LockFreeStack.Proofs.Hazard.Activity
import LockFreeStack.Proofs.Hazard.Safety
import Mathlib.Data.List.Forall2

/-!
What the history of a hazard stack tells about the values that are linked from its head. They are
those of a plain list, whatever happens on the other stacks and to the records.
-/

namespace LockFreeStack

variable {α : Type}

/-- Operations have effects on the stack that they were called for only. -/
theorem Point.Proper.stack_of_effect? {m : Memory α} {c : Hazard.Call α} {p : Point α} {s : Nat}
    {e : Effect α} (h : p.Proper m c) (he : p.effect? m = some (s, e)) : c.stack? = some s := by
  unfold effect? at he
  split at he
  case h_4 => cases he
  all_goals
    split at he
    case isFalse => cases he
    first
      | (obtain ⟨x, -, hx⟩ := Option.map_eq_some_iff.mp he; obtain ⟨rfl, -⟩ := Prod.mk.inj hx; exact h.1)
      | (obtain ⟨rfl, -⟩ := Prod.mk.inj (Option.some.inj he); exact h.1)

namespace Hazard

/-- The values of the nodes at the addresses. -/
def Holds (h : Nodes α) (l : List Address) (vs : List α) : Prop :=
  List.Forall₂ (fun a v => h.item? a = some v) l vs

theorem Holds.congr {h h' : Nodes α} {l : List Address} {vs : List α} (hv : Holds h l vs)
    (keep : ∀ a ∈ l, ∀ v, h.item? a = some v → h'.item? a = some v) : Holds h' l vs := by
  induction hv with
  | nil => exact .nil
  | cons ha _ ih => exact .cons (keep _ (by simp) _ ha) (ih fun a hm => keep a (by simp [hm]))

/-- An effect as the stack `s` sees it. -/
def effectOn (s : Nat) (e : Option (Nat × Effect α)) : Option (Effect α) :=
  (e.filter fun e => e.1 = s).map Prod.snd

theorem effectOn_of_forall {s : Nat} {e : Option (Nat × Effect α)} (h : ∀ t f, e = some (t, f) → t = s) :
    effectOn s e = e.map Prod.snd := by
  cases e with
  | none => rfl
  | some e => simp [effectOn, Option.filter_some, h e.1 e.2 rfl]

theorem effectOn_of_ne {s : Nat} {e : Option (Nat × Effect α)} (h : ∀ t f, e = some (t, f) → t ≠ s) :
    effectOn s e = none := by
  cases e with
  | none => rfl
  | some e => simp [effectOn, Option.filter_some, h e.1 e.2 rfl]

/-- What a shift of the chains does to the values along one of them. -/
theorem Shift.turns {h : Nodes α} {chain chain' : Nat → List Address} {s : Nat} {vs : List α}
    {e : Option (Nat × Effect α)} (sh : Shift h chain chain' e) (hv : Holds h (chain s) vs) :
    ∃ vs', Holds h (chain' s) vs' ∧ Turns (effectOn s e) vs vs' := by
  have elsewhere {t : Nat} {f : Effect α} (ht : t ≠ s) (same : chain' s = chain s) :
      ∃ vs', Holds h (chain' s) vs' ∧ Turns (effectOn s (some (t, f))) vs vs' := by
    rw [effectOn_of_ne (by rintro _ _ ⟨⟩; exact ht), same]
    exact ⟨vs, hv, rfl⟩
  have here {f : Effect α} : effectOn s (some (s, f)) = some f :=
    effectOn_of_forall (by rintro _ _ ⟨⟩; rfl)
  cases sh with
  | stay => exact ⟨vs, hv, rfl⟩
  | @push t a next v there =>
    by_cases ht : t = s
    · subst ht
      rw [here, Function.update_self]
      exact ⟨v :: vs, .cons (by simp [Nodes.item?, there]) hv, .push v vs⟩
    · exact elsewhere ht (Function.update_of_ne (Ne.symm ht) ..)
  | @pop t a next v l there top =>
    by_cases ht : t = s
    · subst ht
      rw [top] at hv
      cases hv with
      | cons ha hv =>
        rw [Nodes.item?, there] at ha
        obtain rfl := Option.some.inj ha
        rw [here, Function.update_self]
        exact ⟨_, hv, .pop _ _⟩
    · exact elsewhere ht (Function.update_of_ne (Ne.symm ht) ..)
  | @empty t none =>
    by_cases ht : t = s
    · subst ht
      rw [none] at hv ⊢
      cases hv
      rw [here]
      exact ⟨[], .nil, .empty⟩
    · exact elsewhere ht rfl

def Move.thread? : Move α → Option Nat
  | call i _ | step i | miss i => some i
  | change _ => none

namespace Crowd

variable {x x' : Crowd α} {g : Ghost} {h : List (Moment Nat (Call α) α)} {i j s : Nat} {c : Call α}
  {p : Point α} {es : List (Effect α)} {a : Address} {st : Activity (Call α) α}

/-- What a thread is doing on the stack `s`. -/
inductive Doing (x : Crowd α) (s i : Nat) : Activity (Call α) α → Prop where
  | idle (away : ∀ c p, x.busy i = some (c, p) → c.stack? ≠ some s) : Doing x s i .idle
  | busy {c : Call α} {p : Point α} {es : List (Effect α)} (there : x.busy i = some (c, p))
    (stack : c.stack? = some s) (had : Had x.memory.nodes c p es) : Doing x s i (.busy c es)

theorem moments_step (s : Nat) (hb : x.busy i = some (c, p)) :
    moments s x (.step i) = ((effectOn s (p.effect? x.memory)).map (Moment.effect i)).toList ++
      match (Operation.step (x.memory, x.me i) p).next with
      | .done a => if c.stack? = some s then [.answer i a] else []
      | _ => [] := by
  simp only [moments, hb, effectOn, Option.map_map]
  rfl

theorem filterMap_moments (x : Crowd α) (s : Nat) (mv : Move α) :
    (moments s x mv).filterMap Moment.effect? = (effectOn s (x.effect? mv)).toList := by
  cases mv with
  | step i =>
    cases hb : x.busy i with
    | none => simp [moments, effect?, effectOn, hb]
    | some b =>
      obtain ⟨c, p⟩ := b
      simp only [moments_step s hb, effect?, hb, Option.bind_some, List.filterMap_append]
      cases effectOn s (p.effect? x.memory) <;>
        cases (Operation.step (x.memory, x.me i) p).next <;> by_cases hc : c.stack? = some s <;>
          simp [Moment.effect?, hc]
  | call i c =>
    simp only [moments]
    split
    · split <;> rfl
    · rfl
  | miss i => rfl
  | change c => rfl

theorem Orderly.retains (o : x.Orderly) (mv : Move α) :
    x.memory.nodes.Retains (x.move mv).memory.nodes :=
  (o.turns mv).retains

theorem busy_move_of_ne {mv : Move α} (hj : mv.thread? ≠ some j) :
    (x.move mv).busy j = x.busy j := by
  have ne {i : Nat} (hi : mv.thread? = some i) : j ≠ i := fun e => hj (e ▸ hi)
  cases mv with
  | call i c =>
    simp only [move]
    split
    · exact busy_set_of_ne (ne rfl)
    · rfl
  | step i =>
    simp only [move]
    split
    · rfl
    · split
      · exact busy_set_of_ne (ne rfl)
      · exact busy_set_of_ne (ne rfl)
      · rfl
  | miss i =>
    simp only [move]
    split
    · rfl
    · split
      · exact busy_set_of_ne (ne rfl)
      · rfl
  | change c => rfl

theorem thread_of_mem_moments {mv : Move α} {m : Moment Nat (Call α) α} (hm : m ∈ moments s x mv) :
    mv.thread? = some m.thread := by
  cases mv with
  | call i c =>
    simp only [moments] at hm
    repeat' split at hm
    · obtain rfl := List.mem_singleton.mp hm
      rfl
    · cases hm
    · cases hm
  | step i =>
    simp only [moments] at hm
    split at hm
    · cases hm
    · obtain hm | hm := List.mem_append.mp hm
      · obtain ⟨e, -, rfl⟩ := Option.map_eq_some_iff.mp (Option.mem_toList.mp hm)
        rfl
      · repeat' split at hm
        · obtain rfl := List.mem_singleton.mp hm
          rfl
        · cases hm
        · cases hm
  | miss i | change c => cases hm

/-- The node that a thread is going to use is there. -/
theorem Stable.item?_isSome (k : x.Stable g) (hu : x.Uses j a) : (x.memory.nodes.item? a).isSome := by
  have there : ∃ y, x.memory.nodes.plain? a = some y := by
    obtain ⟨grade, ho⟩ | ⟨R, hr, hv, rfl⟩ := role_of_uses hu
    · exact k.sound.exists_plain_of_own ho
    · exact k.sound.exists_plain_of_valid hr hv
  obtain ⟨y, hy⟩ := there
  simp [Nodes.item?, hy]

/-- A thread goes on in the operation that it is in, and answers what fits its effects. -/
theorem Stable.continues (k : x.Stable g) (hb : x.busy i = some (c, p))
    (had : Had x.memory.nodes c p es) :
    Continues c es (p.effect? x.memory) (Operation.step (x.memory, x.me i) p) := by
  have seated := k.orderly.seated_of_busy hb
  have token := k.orderly.token i
  cases had with
  | allocate s v granted => exact Had.continues_allocate s v granted
  | load there => exact Had.continues_load there
  | link there => exact Had.continues_link there
  | acquire s t q => exact Had.continues_acquire seated (by omega)
  | pop had =>
    refine Had.continues_pop (Pop.proceeds had ?_) fun r hr => (k.popStep hb).good hr
    rintro a next rfl
    exact k.item?_isSome ⟨_, _, hb, rfl⟩
  | letGo fits => exact Had.continues_letGo fits
  | release fits => exact Had.continues_release fits
  | lookup s slot d => exact Had.continues_lookup s slot d
  | popWith had =>
    refine Had.continues_popWith (Pop.proceeds had ?_) fun r hr => (k.popStep hb).good hr
    rintro a next rfl
    exact k.item?_isSome ⟨_, _, hb, rfl⟩
  | reclaim s l t q =>
    have good (r : Except Trouble Nat) (hr : (x.memory.drainStep l t q).next = .done r) :=
      (k.drainStep hb).good hr
    simp only [Continues, Operation.step, Outcome.within]
    rcases ho : x.memory.drainStep l t q with ⟨m', q' | r | f, notes⟩ <;> rw [ho] at good
    · exact .reclaim ..
    · obtain ⟨n, rfl⟩ := good r rfl
      exact .reclaimed s n
    · trivial

/-- A thread that is left alone keeps doing the same. -/
theorem Doing.stay (d : x.Doing s j st) (k : x'.Stable g) (same : x'.busy j = x.busy j)
    (retains : x.memory.nodes.Retains x'.memory.nodes) : x'.Doing s j st := by
  cases d with
  | idle away => exact .idle fun c p hb => away c p (same ▸ hb)
  | @busy c p es there stack had =>
    have there' : x'.busy j = some (c, p) := same.trans there
    exact .busy there' stack (had.congr fun a v hp hv =>
      retains a v hv (k.item?_isSome ⟨c, p, there', hp⟩))

theorem Doing.miss (d : x.Doing s i st) : (x.move (.miss i)).Doing s i st := by
  cases hb : x.busy i with
  | none => simpa [move, hb] using d
  | some b =>
    obtain ⟨c, p⟩ := b
    cases hm : p.miss? x.memory with
    | none => simpa [move, hb, hm] using d
    | some o =>
      have there : (x.move (.miss i)).busy i = some (c, o.2) := by simp [move, hb, hm, set]
      cases d with
      | idle away =>
        refine .idle fun d q hd => ?_
        cases there.symm.trans hd
        exact away c p hb
      | busy was stack had =>
        cases hb.symm.trans was
        refine .busy there stack ?_
        simp only [move, hb, hm]
        exact had.miss hm

/-- The history of the stack `s` tells what is linked from its head, and what each thread is doing
on it. -/
structure Told (s : Nat) (x : Crowd α) (h : List (Moment Nat (Call α) α)) : Prop where
  content : ∃ g vs, x.Stable g ∧ Holds x.memory.nodes (g.chain s) vs ∧
    Replays (h.filterMap Moment.effect?) vs
  accounts : ∀ i, ∃ st, Account Call.Fits i h st ∧ x.Doing s i st

namespace Told

theorem start (s : Nat) : Told s (start : Crowd α) [] where
  content := by
    obtain ⟨g, k⟩ := stable_start (α := α)
    have none : g.chain s = [] := k.sound.placed.chain_eq_nil rfl
    exact ⟨g, [], k, none ▸ .nil, .nil⟩
  accounts _ := ⟨.idle, .nil, .idle (by rintro _ _ ⟨⟩)⟩

theorem content_move (t : Told s x h) (mv : Move α) :
    ∃ g vs, (x.move mv).Stable g ∧ Holds (x.move mv).memory.nodes (g.chain s) vs ∧
      Replays ((h ++ moments s x mv).filterMap Moment.effect?) vs := by
  obtain ⟨g, vs, k, hv, hr⟩ := t.content
  obtain ⟨g', k', sh⟩ := k.move mv
  obtain ⟨vs', hv', turn⟩ := sh.turns hv
  refine ⟨g', vs', k', hv'.congr fun a ha v hav => k.orderly.retains mv a v hav ?_, ?_⟩
  · have linked : g'.stage a = .linked s := (k'.sound.placed.linked a s).mp ha
    obtain ⟨y, hy⟩ := k'.sound.placed.exists_plain (a := a) (by simp [linked])
    have hy : (x.move mv).memory.nodes.plain? a = some y := hy
    simp [Nodes.item?, hy]
  · rw [List.filterMap_append, filterMap_moments]
    exact hr.turn turn

theorem account_call (t : Told s x h) (i : Nat) (c : Call α) :
    ∃ st, Account Call.Fits i (h ++ moments s x (.call i c)) st ∧ (x.move (.call i c)).Doing s i st := by
  obtain ⟨st, account, doing⟩ := t.accounts i
  cases hb : x.busy i with
  | some b => exact ⟨st, by simpa [moments, hb] using account, by simpa [move, hb] using doing⟩
  | none =>
    cases hc : c.start? x.memory (x.me i) with
    | none => exact ⟨st, by simpa [moments, hb, hc] using account, by simpa [move, hb, hc] using doing⟩
    | some p =>
      obtain rfl : st = .idle := by
        cases doing with
        | idle => rfl
        | busy there => simp [hb] at there
      have there : (x.move (.call i c)).busy i = some (c, p) := by simp [move, hb, hc, set]
      by_cases hs : c.stack? = some s
      · refine ⟨.busy c [], by simpa [moments, hb, hc, hs] using account.call, .busy there hs ?_⟩
        simp only [move, hb, hc]
        exact Had.start hs hc
      · refine ⟨.idle, by simpa [moments, hb, hc, hs] using account, .idle fun d q hd => ?_⟩
        cases there.symm.trans hd
        exact hs

/-- A step in an operation on another stack, or on none. -/
theorem account_step_of_ne (t : Told s x h) (hb : x.busy i = some (c, p)) (hc : c.stack? ≠ some s) :
    ∃ st, Account Call.Fits i (h ++ moments s x (.step i)) st ∧ (x.move (.step i)).Doing s i st := by
  obtain ⟨g, vs, k, -⟩ := t.content
  obtain ⟨st, account, doing⟩ := t.accounts i
  obtain rfl : st = .idle := by
    cases doing with
    | idle => rfl
    | busy there stack =>
      cases hb.symm.trans there
      exact absurd stack hc
  have effect : effectOn s (p.effect? x.memory) = none := by
    refine effectOn_of_ne fun t e he ht => hc ?_
    rw [← ht]
    exact (k.proper.proper i c p hb).stack_of_effect? he
  have none : moments s x (.step i) = [] := by
    rw [moments_step s hb, effect]
    cases (Operation.step (x.memory, x.me i) p).next <;> simp [hc]
  refine ⟨.idle, by rw [none, List.append_nil]; exact account, .idle fun d q hd => ?_⟩
  rcases ho : Operation.step (x.memory, x.me i) p with ⟨st, q | a | f, notes⟩ <;>
    simp only [Crowd.move, hb, ho, set, Function.update_self] at hd
  · cases hd
    exact hc
  · cases hd
  · cases hd
    exact hc

/-- The thread that moves goes on in its operation, or ends it. -/
theorem account_step (t : Told s x h) (hb : x.busy i = some (c, p)) (hc : c.stack? = some s) :
    ∃ st, Account Call.Fits i (h ++ moments s x (.step i)) st ∧ (x.move (.step i)).Doing s i st := by
  obtain ⟨g, vs, k, -⟩ := t.content
  obtain ⟨st, account, doing⟩ := t.accounts i
  cases doing with
  | idle away => exact absurd hc (away c p hb)
  | @busy c' p' es there stack had =>
    cases hb.symm.trans there
    have effect : effectOn s (p.effect? x.memory) = (p.effect? x.memory).map Prod.snd := by
      refine effectOn_of_forall fun t e he => ?_
      have := (k.proper.proper i c p hb).stack_of_effect? he
      exact Option.some.inj (this.symm.trans hc)
    have continues := k.continues hb had
    have account' := account.effects (effectOn s (p.effect? x.memory))
    rw [moments_step s hb]
    rcases ho : Operation.step (x.memory, x.me i) p with ⟨st, q | a | f, notes⟩ <;>
      rw [ho] at continues
    · have there' : (x.move (.step i)).busy i = some (c, q) := by simp [Crowd.move, hb, ho, set]
      refine ⟨_, by simpa using account', .busy there' hc ?_⟩
      rw [effect]
      simp only [Crowd.move, hb, ho]
      exact continues
    · refine ⟨.idle, ?_, .idle (by simp [Crowd.move, hb, ho, set])⟩
      simp only [if_pos hc, ← List.append_assoc]
      refine account'.answer ?_
      rw [effect]
      exact continues
    · exact absurd ⟨c, p, f, hb, by rw [ho]⟩ (k.not_faults i)

theorem account_move (t : Told s x h) (mv : Move α) (j : Nat) :
    ∃ st, Account Call.Fits j (h ++ moments s x mv) st ∧ (x.move mv).Doing s j st := by
  obtain ⟨g, vs, k, -⟩ := t.content
  obtain ⟨st, account, doing⟩ := t.accounts j
  by_cases hj : mv.thread? = some j
  · cases mv with
    | call i c =>
      obtain rfl := Option.some.inj hj
      exact t.account_call i c
    | step i =>
      obtain rfl := Option.some.inj hj
      cases hb : x.busy i with
      | none => exact ⟨st, by simpa [moments, hb] using account, by simpa [move, hb] using doing⟩
      | some b =>
        obtain ⟨c, p⟩ := b
        by_cases hc : c.stack? = some s
        · exact t.account_step hb hc
        · exact t.account_step_of_ne hb hc
    | miss i =>
      obtain rfl := Option.some.inj hj
      refine ⟨st, by simpa [moments] using account, doing.miss⟩
    | change c => cases hj
  · obtain ⟨g', k', -⟩ := k.move mv
    exact ⟨st, account.others _ fun m hm e => hj (e ▸ thread_of_mem_moments hm),
      doing.stay k' (busy_move_of_ne hj) (k.orderly.retains mv)⟩

theorem move (t : Told s x h) (mv : Move α) : Told s (x.move mv) (h ++ moments s x mv) :=
  ⟨t.content_move mv, t.account_move mv⟩

end Told

theorem told_run (s : Nat) (ms : List (Move α)) : Told s (run s ms).1 (run s ms).2 :=
  play_induction (Told s) (.start s) (fun _ _ mv t => t.move mv) ms

/-- The history of the stack `s` is that of a plain list which now is `vs`, the nodes linked from
the head on hold its values in their order, and each value that has been pushed is there or has been
popped. -/
structure Listed (s : Nat) (x : Crowd α) (h : List (Moment Nat (Call α) α)) (vs : List α) : Prop where
  explains : Explains Call.Fits h vs
  linked : ∃ l, Path x.memory.nodes.below? (x.memory.hazard s).head l .null ∧ l.Nodup ∧
    Holds x.memory.nodes l vs
  conserved : ((h.filterMap Moment.effect?).filterMap Effect.pushed?).Perm
    ((h.filterMap Moment.effect?).filterMap Effect.popped? ++ vs)

/-- Whatever the threads do with this stack and the others, it is linearizable to a plain list. -/
theorem linearizable_on (s : Nat) (ms : List (Move α)) :
    ∃ vs, Listed s (run s ms).1 (run s ms).2 vs := by
  have t := told_run s ms
  obtain ⟨g, vs, k, hv, hr⟩ := t.content
  have path := k.sound.placed.path s
  refine ⟨vs, ⟨hr, fun i => ?_⟩, ⟨g.chain s, path, path.nodup rfl, hv⟩, hr.perm⟩
  obtain ⟨st, account, -⟩ := t.accounts i
  exact ⟨st, account⟩

end Crowd

end Hazard

end LockFreeStack
