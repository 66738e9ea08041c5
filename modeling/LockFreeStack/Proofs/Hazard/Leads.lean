import LockFreeStack.Proofs.Hazard.Stores
import LockFreeStack.Proofs.Retries

/-!
Where the operations that have to do with records go on after a step, point by point, and what they
answer.
-/

namespace LockFreeStack

variable {α : Type} {m : Memory α} {me : Thread} {p q : Point α} {place : Place}

theorem Next.within_eq_goto {κ κ₁ ρ ρ₁ : Type} {n : Next κ ρ} {point : κ → κ₁} {result : ρ → Next κ₁ ρ₁}
    {q : κ₁} (h : n.within point result = .goto q) :
    (∃ k, n = .goto k ∧ q = point k) ∨ ∃ r, n = .done r ∧ result r = .goto q := by
  cases n with
  | goto k => exact .inl ⟨k, rfl, (Next.goto.inj h).symm⟩
  | done r => exact .inr ⟨r, rfl, h⟩
  | fault f => cases h

theorem Next.within_eq_done {κ κ₁ ρ ρ₁ : Type} {n : Next κ ρ} {point : κ → κ₁} {result : ρ → Next κ₁ ρ₁}
    {a : ρ₁} (h : n.within point result = .done a) : ∃ r, n = .done r ∧ result r = .done a := by
  cases n with
  | goto k => cases h
  | done r => exact ⟨r, rfl, h⟩
  | fault f => cases h

/-- A pass reports no exhausted table. -/
theorem Memory.drainStep_ne (m : Memory α) (l t : Nat) (p : Drain.Point) (f : Failure) :
    (m.drainStep l t p).next ≠ .done (.error (.failure f)) := by
  intro h
  cases p with
  | delete a d w =>
    simp only [drainStep] at h
    split at h <;> cases h
  | _ =>
    simp only [drainStep, Outcome.within] at h
    obtain ⟨r, hr, h⟩ := Next.within_eq_done h
    obtain rfl := Next.done.inj h
    simp only [Drain.step] at hr
    repeat' split at hr
    all_goals cases hr

theorem Hazard.Push.step_ne (m : Memory α) (s : Nat) (p : Hazard.Push α) (n : Nat) :
    (p.step m s).next ≠ .done (.error (.exhausted n)) := by
  intro h
  cases p <;> simp only [step] at h
  · split at h <;> cases h
  · cases h
  · repeat' split at h
    all_goals cases h

namespace Hazard.Pop

theorem step_ne (m : Memory α) (s : Nat) (place : Place) (p : Pop α) (f : Failure) :
    (p.step m s place).next ≠ .done (.error (.failure f)) := by
  intro h
  cases p with
  | protect a =>
    obtain ⟨r, -, h⟩ := Next.within_eq_done h
    cases h
  | insert c a v =>
    obtain ⟨r, -, h⟩ := Next.within_eq_done h
    cases h
  | reclaim a v =>
    obtain ⟨r, hr, h⟩ := Next.within_eq_done h
    cases r with
    | ok n => cases h
    | error e =>
      obtain rfl := Except.error.inj (Next.done.inj h)
      exact m.drainStep_ne _ _ a f hr
  | _ =>
    simp only [step] at h
    repeat' split at h
    all_goals cases h

end Hazard.Pop

/-- From a point to the next one. -/
inductive Leads (m : Memory α) (me : Thread) : Point α → Point α → Prop
  | away (p q : Point α) (h : ¬q.OnRecords) : Leads m me p q
  | acquire (t : Nat) (purpose : Purpose) (a b : Acquire.Point)
    (h : (Acquire.step (α := α) t purpose.pins (m.tables, me) a).next = .goto b) :
    Leads m me (.acquire t purpose a) (.acquire t purpose b)
  | replace (t : Nat) (name : String) (a : Acquire.Point) (old index : Nat) :
    Leads m me (.acquire t (.register name) a) (.letGo old (.count index))
  | popped (s : Nat) (place : Place) (c : Nat) (a : Hazard.Pop α) (r : Except Trouble (Option α))
    (h : ∀ f, r ≠ .error (.failure f)) : Leads m me (.hazardPop s place (some c) a) (.letGo c (.ofPop r))
  | dropped (name : String) (place : Place) : Leads m me (.dropSlot name) (.release place .clear .ok)
  | taken (place : Place) : Leads m me .takeBack (.release place .clear .ok)
  | last (c : Nat) (place : Place) (answer : Answer α) :
    Leads m me (.letGo c answer) (.release place .clear answer)
  | cleared (place : Place) (answer : Answer α) :
    Leads m me (.release place .clear answer) (.release place .disown answer)
  | exit : Leads m me .exit .exit
  | exitLast (place : Place) : Leads m me .exit (.exitRelease place .clear)
  | exitCleared (place : Place) : Leads m me (.exitRelease place .clear) (.exitRelease place .disown)
  | exitDisowned (place : Place) : Leads m me (.exitRelease place .disown) .exit

namespace Operation

theorem letGo_eq_goto {c : Nat} {answer : Answer α} (h : (letGo m me c answer).next = .goto q) :
    ∃ place, q = .release place .clear answer := by
  obtain ⟨me', he | ⟨place, he⟩⟩ := letGo_cases m me c answer <;> rw [he] at h <;> cases h
  exact ⟨place, rfl⟩

theorem leads_acquire {t : Nat} {purpose : Purpose} {a : Acquire.Point}
    (hq : (step (m, me) (.acquire t purpose a)).next = .goto q) : Leads m me (.acquire t purpose a) q := by
  obtain ⟨ts, me', b, notes, ha, h⟩ | ⟨ts, me', e, notes, ha, h⟩ | ⟨ts, me', c, notes, ha, -, h⟩ :=
    acquire_cases m me t purpose a <;> rw [h] at hq
  · obtain rfl := Next.goto.inj hq
    exact .acquire t purpose a b (by rw [ha])
  · cases hq
  · cases purpose with
    | register name =>
      simp only [acquired] at hq
      split at hq <;> cases hq
      exact .replace ..
    | lend => cases hq
    | pop s =>
      simp only [acquired] at hq
      split at hq <;> cases hq
      exact .away _ _ id

theorem leads (hq : (step (m, me) p).next = .goto q) : Leads m me p q := by
  cases p with
  | acquire t purpose a => exact leads_acquire hq
  | hazardPop s place own a =>
    obtain ⟨b, -, rfl⟩ | ⟨r, hr, h⟩ := Next.within_eq_goto hq
    · exact .away _ _ id
    · cases own with
      | none => cases h
      | some c =>
        cases h
        exact .popped s place c a r fun f hf => a.step_ne m s place f (hf ▸ hr)
  | popWith s c =>
    simp only [step] at hq
    repeat' split at hq
    all_goals cases hq
    exact .away _ _ id
  | hazardPush | countedPush | countedPop | drain | insert =>
    obtain ⟨b, -, rfl⟩ | ⟨r, -, h⟩ := Next.within_eq_goto hq
    · exact .away _ _ id
    · cases h
  | publish c a =>
    simp only [step] at hq
    split at hq <;> cases hq
  | follow cell c a =>
    simp only [step] at hq
    split at hq
    · cases hq
    · obtain ⟨b, -, rfl⟩ | ⟨r, -, h⟩ := Next.within_eq_goto hq
      · exact .away _ _ id
      · cases h
  | tryPublish cell c a =>
    simp only [step] at hq
    split at hq <;> cases hq
    exact .away _ _ id
  | dropSlot name =>
    simp only [step] at hq
    split at hq
    · cases hq
    · obtain ⟨place, rfl⟩ := letGo_eq_goto hq
      exact .dropped name place
  | takeBack =>
    simp only [step] at hq
    split at hq
    · cases hq
    · obtain ⟨place, rfl⟩ := letGo_eq_goto hq
      exact .taken place
  | letGo c answer =>
    obtain ⟨place, rfl⟩ := letGo_eq_goto hq
    exact .last c place answer
  | release place a answer =>
    cases a with
    | clear =>
      cases hq
      exact .cleared place answer
    | disown => cases hq
  | exit =>
    obtain ⟨me', h | h | ⟨place, h⟩⟩ := exit_cases m me <;> simp only [step, h] at hq <;> cases hq
    · exact .exit
    · exact .exitLast place
  | exitRelease place a =>
    cases a with
    | clear =>
      cases hq
      exact .exitCleared place
    | disown =>
      cases hq
      exact .exitDisowned place
  | park | parkBox =>
    cases hq
    exact .away _ _ id
  | isEmpty | describe | tryValidate => cases hq

theorem leads_of_point? (hq : (step (m, me) p).next.point? = some q) : Leads m me p q := by
  cases hn : (step (m, me) p).next <;> rw [hn] at hq <;> cases hq
  exact leads hn

end Operation

namespace Acquire

variable {ts : Tables} {table i : Nat} {pin : Bool} {a : Point}

theorem clear_of_disown (h : (step (α := α) table pin (ts, me) a).next = .goto (.releasing i place .disown)) :
    a = .releasing i place .clear := by
  cases a with
  | lookup =>
    simp only [step] at h
    split at h <;> cases h
  | prune j =>
    replace h : (prune ts me j).2 = .releasing i place .disown := Next.goto.inj h
    unfold prune at h
    repeat' split at h
    all_goals cases h
  | releasing j place' b =>
    cases b <;> cases h
    rfl
  | claiming b =>
    simp only [step] at h
    repeat' split at h
    all_goals cases h

/-- A claim begins when the whole cache is pruned. -/
theorem claiming_of_claiming {b : Claiming.Point}
    (h : (step (α := α) table pin (ts, me) a).next = .goto (.claiming b)) :
    b = .check 0 ∨ ∃ c t, a = .claiming c ∧ ts[table]? = some t ∧
      (Claiming.step (α := α) t me.token c).next = .goto b := by
  cases a with
  | lookup =>
    simp only [step] at h
    split at h <;> cases h
  | prune j =>
    replace h : (prune ts me j).2 = .claiming b := Next.goto.inj h
    unfold prune at h
    repeat' split at h
    all_goals cases h
    exact .inl rfl
  | releasing j place' c => cases c <;> cases h
  | claiming c =>
    cases ht : ts[table]? with
    | none => simp [step, ht] at h
    | some t =>
      simp only [step, ht] at h
      refine .inr ⟨c, t, rfl, rfl, ?_⟩
      rcases hc : Claiming.step (α := α) t me.token c with ⟨t', c' | (e | d) | f, notes⟩ <;> rw [hc] at h <;>
        cases h
      rfl

/-- Only the probe past the last record finds the table exhausted. -/
theorem probe_of_exhausted {n : Nat} (ht : table < ts.size)
    (h : (step (α := α) table pin (ts, me) a).next = .done (.error (.failure (.exhausted n)))) :
    ∃ k t, a = .claiming (.probe k) ∧ ts[table]? = some t ∧ t.records[k]? = none ∧ n = t.capacity := by
  cases a with
  | lookup =>
    simp only [step] at h
    split at h <;> cases h
  | prune j => cases h
  | releasing j place' c => cases c <;> cases h
  | claiming c =>
    obtain ⟨t, ht⟩ : ∃ t, ts[table]? = some t := ⟨_, Array.getElem?_eq_getElem ht⟩
    simp only [step, ht] at h
    have hc : (Claiming.step (α := α) t me.token c).next = .done (.error (.failure (.exhausted n))) := by
      rcases hc : Claiming.step (α := α) t me.token c with ⟨t', c' | (e | d) | f, notes⟩ <;> rw [hc] at h <;>
        cases h
      rfl
    cases c with
    | probe k =>
      cases hr : t.records[k]? with
      | none =>
        simp only [Claiming.step, hr] at hc
        cases hc
        exact ⟨k, t, rfl, ht, hr, rfl⟩
      | some r =>
        simp only [Claiming.step, hr] at hc
        repeat' split at hc
        all_goals cases hc
    | _ =>
      simp only [Claiming.step] at hc
      repeat' split at hc
      all_goals cases hc

end Acquire

namespace Leads

theorem claiming? (h : Leads m me p q) {t : Nat} {b : Claiming.Point} (hb : q.claiming? = some (t, b)) :
    b = .check 0 ∨ ∃ a tb, p.claiming? = some (t, a) ∧ m.tables[t]? = some tb ∧
      (Claiming.step (α := α) tb me.token a).next = .goto b := by
  obtain ⟨purpose, rfl⟩ := Point.exists_acquire hb
  cases h with
  | away p q h => exact absurd trivial h
  | acquire t purpose a b h =>
    exact (Acquire.claiming_of_claiming h).imp_right fun ⟨c, tb, ha, ht, hc⟩ => ⟨c, tb, by rw [ha]; rfl, ht, hc⟩

/-- A record is disowned right after its address was cleared. -/
theorem cleared_of_disown? (h : Leads m me p q) (hd : q.disown? = some place) :
    p.site? = some place ∧ p.store? me = some (place, .null) := by
  cases h with
  | away p q h =>
    unfold Point.disown? at hd
    split at hd
    case h_4 => cases hd
    all_goals exact absurd trivial h
  | acquire t purpose a b h =>
    cases b with
    | releasing i place' c =>
      cases c <;> cases hd
      rw [Acquire.clear_of_disown h]
      exact ⟨rfl, rfl⟩
    | _ => cases hd
  | cleared | exitCleared =>
    cases hd
    exact ⟨rfl, rfl⟩
  | _ => cases hd

end Leads

end LockFreeStack
