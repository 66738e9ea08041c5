import LockFreeStack.Proofs.Counted.Balance
import LockFreeStack.Proofs.Counted.Crowd

/-!
What a thread on a counted stack is doing, read off the point where it stands. Each step goes on in
the same operation, and an answer fits the effects that the operation has had.
-/

namespace LockFreeStack

namespace Nodes

variable {α : Type}

def value? (h : Nodes α) (a : Address) : Option α := (h.counted? a).map fun x => x.1

@[simp] theorem value?_setPair (h : Nodes α) (a : Address) (next : Pair Address) (b : Address) :
    (h.updateAt a (·.setPair next)).value? b = h.value? b := by
  unfold value?
  rw [counted?_setPair]
  by_cases hb : b = a
  · subst hb
    cases h.counted? b <;> simp
  · simp [hb]

@[simp] theorem value?_setInternal (h : Nodes α) (a : Address) (i : Int64) (b : Address) :
    (h.updateAt a (·.setInternal i)).value? b = h.value? b := by
  unfold value?
  rw [counted?_setInternal]
  by_cases hb : b = a
  · subst hb
    cases h.counted? b <;> simp
  · simp [hb]

@[simp] theorem value?_recycle (h : Nodes α) (k : Nat) (a : Address) :
    Nodes.value? (h.recycle k) a = h.value? a := by
  unfold value?
  rw [counted?_recycle]

theorem value?_alloc (h : Nodes α) (v : α) (next : Pair Address) (i : Int64) (a : Address) :
    Nodes.value? (h.alloc (.counted v next i)) a = if a = .node h.next then some v else h.value? a := by
  unfold value?
  rw [counted?_alloc]
  by_cases ha : a = .node h.next <;> simp [ha]

theorem value?_release (h : Nodes α) (a b : Address) :
    (h.release a).value? b = if b = a then none else h.value? b := by
  unfold value?
  rw [counted?_release]
  by_cases hb : b = a <;> simp [hb]

theorem value?_next (h : Nodes α) : h.value? (.node h.next) = none := by
  simp [value?, counted?_next]

end Nodes

namespace Counted

variable {α : Type}

namespace Point

/-- The value of a node is never changed while it is there. -/
theorem value?_step (p : Point α) (m : Store α) {a : Address} {v v' : α}
    (h : m.nodes.value? a = some v) (h' : (p.step m).memory.nodes.value? a = some v') : v' = v := by
  have same {v' : α} (h' : m.nodes.value? a = some v') : v' = v :=
    Option.some.inj (h'.symm.trans h)
  obtain (⟨w, granted⟩ | _ | _) | p := p
  · cases granted with
    | false => exact same h'
    | true =>
      have hne : a ≠ .node m.nodes.next := by
        rintro rfl
        rw [Nodes.value?_next] at h
        cases h
      refine same ?_
      simpa [step, Push.step, Outcome.within, Nodes.value?_alloc, hne] using h'
  · exact same h'
  · simp only [step, Push.step] at h'
    repeat' split at h'
    all_goals exact same (by simpa [Outcome.within] using h')
  · cases p with
    | release node w | releaseLate node w =>
      simp only [step, Pop.step] at h'
      split at h'
      · by_cases hn : a = node
        · simp [Outcome.within, Nodes.value?_release, hn] at h'
        · exact same (by simpa [Outcome.within, Nodes.value?_release, hn] using h')
      · exact same h'
    | _ =>
      simp only [step, Pop.step] at h'
      repeat' split at h'
      all_goals exact same (by simpa [Outcome.within] using h')

/-- What a thread at this point is doing, and which effect it has had. -/
def activity? (h : Nodes α) : Point α → Option (Activity (Call α) α)
  | push (.allocate v granted) => some (.busy (.push v granted) [])
  | push (.load a) | push (.link a _) => (h.value? a).map fun v => .busy (.push v true) []
  | pop (.take held) => (h.value? held.address).map fun v => .busy .pop [.pop v]
  | pop (.fold _ v) | pop (.release _ v) => some (.busy .pop [.pop v])
  | pop _ => some (.busy .pop [])

/-- The pair that the next count, or the surplus, is computed from. -/
def pair? : Point α → Option (Pair Address)
  | pop (.bump p) | pop (.readNext p) | pop (.detach p _) | pop (.take p) | pop (.fold p _)
  | pop (.giveBack _ p) | pop (.releaseLate _ p) => some p
  | _ => none

/-- The point after a step, or the answer, belongs to the operation with the effects had so far. `Ends`
says which answers do. -/
def Continues (Ends : Call α → List (Effect α) → Answer α → Prop) (m : Store α) (p : Point α) (c : Call α)
    (es : List (Effect α)) : Prop :=
  match (p.step m).next with
  | .goto q => q.activity? (p.step m).memory.nodes = some (.busy c (es ++ (p.effect? m).toList))
  | .done a => Ends c (es ++ (p.effect? m).toList) a
  | .fault _ => True

/-- The next step does not end in an overflow. -/
def Calm (m : Store α) (p : Point α) : Prop := ∀ e, (p.step m).next ≠ .done (.trouble (.panic e))

section Continues

variable {m : Store α} {v : α} {granted : Bool} {a : Address} {seen held next now : Pair Address}

theorem next_bump_of_error {e : Panic} (h : seen.bump = .error e) :
    ((pop (.bump seen) : Point α).step m).next = .done (.trouble (.panic e)) := by
  simp [step, Pop.step, h, Outcome.within, Next.within, Answer.ofPop]

theorem next_fold_of_error {e : Panic} (h : held.surplus = .error e) :
    ((pop (.fold held v)).step m).next = .done (.trouble (.panic e)) := by
  simp [step, Pop.step, h, Outcome.within, Next.within, Answer.ofPop]

theorem next_fold_of_min {x : α × Pair Address × Int64} (h : held.surplus = .ok Int64.minValue)
    (there : m.nodes.counted? held.address = some x) :
    ((pop (.fold held v)).step m).next = .done (.trouble (.panic .negationOverflow)) := by
  simp [step, Pop.step, h, there, Outcome.within, Next.within, Answer.ofPop]

theorem continues_allocate : (push (.allocate v granted)).Continues Call.Fits m (.push v granted) [] := by
  cases granted with
  | false => exact .refused v
  | true =>
    simp [Continues, step, Push.step, Outcome.within, Next.within, effect?, activity?,
      Nodes.value?_alloc]

theorem continues_link (hv : m.nodes.value? a = some v) :
    (push (.link a seen)).Continues Call.Fits m (.push v true) [] := by
  obtain ⟨⟨w, nx, n⟩, hn, rfl⟩ := Option.map_eq_some_iff.mp hv
  by_cases hs : m.head = seen
  · simpa [Continues, step, Push.step, hn, hs, Outcome.within, Next.within, effect?,
      Answer.ofPush] using Call.Fits.pushed w
  · simp [Continues, step, Push.step, hn, hs, Outcome.within, Next.within, effect?, activity?, hv]

theorem continues_bump (calm : (pop (.bump seen)).Calm m) :
    (pop (.bump seen)).Continues Call.Fits m .pop [] := by
  obtain ⟨held, hb⟩ : ∃ held, seen.bump = .ok held := by
    cases hb : seen.bump with
    | ok held => exact ⟨held, rfl⟩
    | error e => exact absurd (next_bump_of_error hb) (calm e)
  obtain ⟨haddr, -⟩ := Pair.bump_eq_ok hb
  by_cases hs : m.head = seen
  · by_cases hnull : seen.address = .null
    · simpa [Continues, step, Pop.step, hb, hs, hnull, haddr, Outcome.within, Next.within,
        effect?, Answer.ofPop] using Call.Fits.empty
    · simp [Continues, step, Pop.step, hb, hs, hnull, haddr, Outcome.within, Next.within, effect?,
        activity?]
  · simp [Continues, step, Pop.step, hb, hs, Outcome.within, Next.within, effect?, activity?]

theorem continues_detach (there : (m.nodes.value? held.address).isSome) :
    (pop (.detach held next)).Continues Call.Fits m .pop [] := by
  obtain ⟨v, hv⟩ := Option.isSome_iff_exists.mp there
  obtain ⟨⟨w, nx, n⟩, hn, rfl⟩ := Option.map_eq_some_iff.mp hv
  by_cases hs : m.head = held <;>
    simp [Continues, step, Pop.step, hs, Outcome.within, Next.within, effect?, activity?, hn, hv]

theorem continues_fold (calm : (pop (.fold held v)).Calm m) :
    (pop (.fold held v)).Continues Call.Fits m .pop [.pop v] := by
  cases hs : held.surplus with
  | error e => exact absurd (next_fold_of_error hs) (calm e)
  | ok more =>
    cases hn : m.nodes.counted? held.address with
    | none => simp [Continues, step, Pop.step, hs, hn, Outcome.within, Next.within]
    | some x =>
      by_cases hmin : more = Int64.minValue
      · exact absurd (next_fold_of_min (hmin ▸ hs) hn) (calm _)
      · simp only [Continues, step, Pop.step, hs, hn, if_neg hmin]
        by_cases hz : x.2.2 = -more
        · simp only [if_pos hz]
          rfl
        · simp only [if_neg hz]
          exact .popped v

theorem continues_release : (pop (.release a v)).Continues Call.Fits m .pop [.pop v] := by
  by_cases hl : m.nodes.isLiveAt a
  · simp only [Continues, step, Pop.step, if_pos hl]
    exact .popped v
  · simp only [Continues, step, Pop.step, if_neg hl]
    trivial

end Continues

/-- A thread goes on in the operation that it is in, and answers what fits its effects. -/
theorem continues {m : Store α} {p : Point α} {st : Activity (Call α) α}
    (hs : p.activity? m.nodes = some st)
    (there : ∀ q, p.held? = some q → (m.nodes.value? q.address).isSome)
    (calm : p.Calm m) : ∃ c es, st = .busy c es ∧ p.Continues Call.Fits m c es := by
  obtain (⟨v, granted⟩ | a | ⟨a, seen⟩) | p := p
  · obtain rfl := Option.some.inj hs
    exact ⟨_, _, rfl, continues_allocate⟩
  · obtain ⟨v, hv, rfl⟩ := Option.map_eq_some_iff.mp hs
    exact ⟨_, _, rfl, hs⟩
  · obtain ⟨v, hv, rfl⟩ := Option.map_eq_some_iff.mp hs
    exact ⟨_, _, rfl, continues_link hv⟩
  · cases p with
    | load => exact ⟨_, _, (Option.some.inj hs).symm, rfl⟩
    | bump seen => exact ⟨_, _, (Option.some.inj hs).symm, continues_bump calm⟩
    | readNext held =>
      refine ⟨_, _, (Option.some.inj hs).symm, ?_⟩
      rcases hn : m.nodes.counted? held.address with _ | ⟨w, nx, n⟩ <;>
        simp [Continues, step, Pop.step, hn, Outcome.within, Next.within, effect?, activity?]
    | detach held next => exact ⟨_, _, (Option.some.inj hs).symm, continues_detach (there _ rfl)⟩
    | take held =>
      obtain ⟨v, hv, rfl⟩ := Option.map_eq_some_iff.mp hs
      obtain ⟨⟨w, nx, n⟩, hn, rfl⟩ := Option.map_eq_some_iff.mp hv
      refine ⟨_, _, rfl, ?_⟩
      simp [Continues, step, Pop.step, hn, Outcome.within, Next.within, effect?, activity?]
    | fold held v => exact ⟨_, _, (Option.some.inj hs).symm, continues_fold calm⟩
    | release a v => exact ⟨_, _, (Option.some.inj hs).symm, continues_release⟩
    | giveBack held now =>
      refine ⟨_, _, (Option.some.inj hs).symm, ?_⟩
      rcases hn : m.nodes.counted? held.address with _ | ⟨w, nx, n⟩
      · simp [Continues, step, Pop.step, hn, Outcome.within, Next.within]
      · by_cases h1 : n = 1 <;>
          simp [Continues, step, Pop.step, hn, h1, Outcome.within, Next.within, effect?, activity?]
    | releaseLate a now =>
      refine ⟨_, _, (Option.some.inj hs).symm, ?_⟩
      by_cases hl : m.nodes.isLiveAt a <;>
        simp [Continues, step, Pop.step, hl, Outcome.within, Next.within, effect?, activity?]

/-- Only two additions can overflow: the next count, and the one that adds the surplus. -/
theorem overflows {m : Store α} {p : Point α} {e : Panic}
    (h : (p.step m).next = .done (.trouble (.panic e))) :
    (∃ seen, p = pop (.bump seen) ∧ seen.bump = .error e) ∨
      ∃ held v, p = pop (.fold held v) ∧ ¬held.Folds := by
  obtain (⟨v, granted⟩ | _ | _) | p := p
  case push.allocate => cases granted <;> cases h
  case push.load => cases h
  case push.link =>
    simp only [step, Push.step] at h
    repeat' split at h
    all_goals cases h
  cases p with
  | bump seen =>
    cases hb : seen.bump with
    | error e' =>
      rw [next_bump_of_error hb] at h
      cases h
      exact .inl ⟨seen, rfl, hb⟩
    | ok held =>
      simp only [step, Pop.step, hb] at h
      repeat' split at h
      all_goals cases h
  | fold held v =>
    refine .inr ⟨held, v, rfl, ?_⟩
    rintro ⟨more, hs, hmin⟩
    simp only [step, Pop.step, hs, if_neg hmin] at h
    repeat' split at h
    all_goals cases h
  | _ =>
    simp only [step, Pop.step] at h
    repeat' split at h
    all_goals cases h

theorem calm_of_fits {m : Store α} {p : Point α} (fits : ∀ q, p.pair? = some q → q.Fits) : p.Calm m := by
  intro e h
  obtain ⟨seen, rfl, hb⟩ | ⟨held, v, rfl, folds⟩ := overflows h
  · obtain ⟨q, hq⟩ := (fits seen rfl).1
    rw [hb] at hq
    cases hq
  · exact folds (fits held rfl).2

/-- The same for a step that may end in an overflow. -/
theorem continues_or_overflows {m : Store α} {p : Point α} {st : Activity (Call α) α}
    (hs : p.activity? m.nodes = some st)
    (there : ∀ q, p.held? = some q → (m.nodes.value? q.address).isSome) :
    ∃ c es, st = .busy c es ∧ p.Continues Call.Ends m c es := by
  by_cases calm : p.Calm m
  · obtain ⟨c, es, rfl, h⟩ := continues hs there calm
    refine ⟨c, es, rfl, ?_⟩
    unfold Continues at h ⊢
    split <;> simp_all [Call.Ends.fits]
  · obtain ⟨e, he⟩ := not_forall_not.mp calm
    obtain ⟨seen, rfl, hb⟩ | ⟨held, v, rfl, -⟩ := overflows he
    · refine ⟨_, _, (Option.some.inj hs).symm, ?_⟩
      simpa [Continues, he, effect?, hb] using Call.Ends.overflows e
    · refine ⟨_, _, (Option.some.inj hs).symm, ?_⟩
      simpa [Continues, he, effect?] using Call.Ends.loses v e

/-- A pair that a pop goes on with was the head before or after the step, or was in use already. -/
theorem pair?_step {m : Store α} {p q : Point α} {r : Pair Address}
    (hq : (p.step m).next = .goto q) (hr : q.pair? = some r) :
    r = m.head ∨ r = (p.step m).memory.head ∨ p.pair? = some r := by
  obtain (_ | _ | _) | p := p
  case push.allocate | push.load | push.link =>
    simp only [step, Push.step] at hq
    repeat' split at hq
    all_goals simp only [Outcome.within, Next.within, Next.goto.injEq, reduceCtorEq] at hq
    all_goals subst hq; cases hr
  cases p with
  | bump seen =>
    cases hb : seen.bump with
    | error e => simp [step, Pop.step, hb, Outcome.within, Next.within] at hq
    | ok held =>
      by_cases hs : m.head = seen <;> by_cases hn : held.address = .null <;>
        simp [step, Pop.step, hb, hs, hn, Outcome.within, Next.within] at hq ⊢ <;>
        subst hq <;> simp_all [pair?]
  | _ =>
    simp only [step, Pop.step] at hq
    repeat' split at hq
    all_goals simp only [Outcome.within, Next.within, Next.goto.injEq, reduceCtorEq] at hq
    all_goals subst hq; simp_all [pair?]

end Point

end Counted

end LockFreeStack
