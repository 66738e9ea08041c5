import LockFreeStack.Proofs.Hazard.Orderly
import LockFreeStack.Proofs.Hazard.Records
import LockFreeStack.Proofs.Hazard.Roles

/-!
Stacks keep their tables and lists, and every operation works on those of its own stack.
-/

namespace LockFreeStack

variable {α : Type} {m m' m'' : Memory α} {me : Thread} {s : Nat}

namespace Memory

/-- The stacks of `m` are in `m'` with the same tables and lists. -/
def Grows (m m' : Memory α) : Prop :=
  ∀ s, s < m.hazards.size → s < m'.hazards.size ∧
    (m'.hazard s).table = (m.hazard s).table ∧ (m'.hazard s).list = (m.hazard s).list

/-- At most the heads of stacks differ. -/
structure Keeps (m m' : Memory α) : Prop where
  lists : m'.lists.size = m.lists.size
  hazards : m'.hazards = m.hazards ∨ ∃ s a, m'.hazards = (m.setHead s a).hazards

namespace Keeps

theorem same (lists : m'.lists = m.lists) (hazards : m'.hazards = m.hazards) : m.Keeps m' :=
  ⟨congrArg Array.size lists, .inl hazards⟩

theorem grows (k : m.Keeps m') : m.Grows m' := by
  intro s hs
  obtain hh | ⟨t, a, hh⟩ := k.hazards
  · have heq : m'.hazard s = m.hazard s := by simp only [hazard, hh]
    rw [heq, hh]
    exact ⟨hs, rfl, rfl⟩
  · have heq : m'.hazard s = (m.setHead t a).hazard s := by simp only [hazard, hh]
    have hsize : m'.hazards.size = m.hazards.size := by rw [hh]; simp [setHead]
    rw [heq, hsize]
    by_cases ht : t < m.hazards.size
    · rw [hazard_setHead ht]
      by_cases hst : s = t <;> simp [hst, ht, hs]
    · have hne : t ≠ s := by omega
      have same : (m.setHead t a).hazard s = m.hazard s := by
        simp only [hazard, setHead, Array.getElem?_modify, if_neg hne]
      rw [same]
      exact ⟨hs, rfl, rfl⟩

theorem tidy (k : m.Keeps m') (t : m.Tidy) : m'.Tidy := by
  have back {s : Nat} {h' : Hazard.Stack} (hh : m'.hazards[s]? = some h') :
      ∃ h, m.hazards[s]? = some h ∧ h.list = h'.list := by
    obtain he | ⟨u, a, he⟩ := k.hazards <;> rw [he] at hh
    · exact ⟨h', hh, rfl⟩
    · simp only [setHead, Array.getElem?_modify] at hh
      split at hh
      · obtain ⟨h, hm, rfl⟩ := Option.map_eq_some_iff.mp hh
        exact ⟨h, hm, rfl⟩
      · exact ⟨h', hh, rfl⟩
  refine ⟨fun s h' hs => ?_, fun s u h₁ h₂ hs hu he => ?_⟩
  · obtain ⟨h, hm, hl⟩ := back hs
    rw [← hl, k.lists]
    exact t.list_lt s h hm
  · obtain ⟨h, hm, hl⟩ := back hs
    obtain ⟨h', hm', hl'⟩ := back hu
    exact t.apart s u h h' hm hm' (hl.trans (he.trans hl'.symm))

end Keeps

theorem keeps_insertStep (m : Memory α) (l : Nat) (c : Chain) (p : Insert.Point) :
    m.Keeps (m.insertStep l c p).memory :=
  ⟨Array.size_setIfInBounds .., .inl rfl⟩

theorem keeps_drainStep (m : Memory α) (l t : Nat) (p : Drain.Point) :
    m.Keeps (m.drainStep l t p).memory := by
  cases p with
  | delete a d w =>
    simp only [drainStep]
    split
    · cases d <;> exact .same rfl rfl
    · exact .same rfl rfl
  | _ => exact ⟨Array.size_setIfInBounds .., .inl rfl⟩

end Memory

theorem Hazard.Push.keeps_step (m : Memory α) (s : Nat) (p : Hazard.Push α) :
    m.Keeps (p.step m s).memory := by
  cases p with
  | allocate v granted => cases granted <;> exact .same rfl rfl
  | load node => exact .same rfl rfl
  | link node seen =>
    simp only [step]
    split
    · exact .same rfl rfl
    · split
      · exact ⟨rfl, .inr ⟨s, node, rfl⟩⟩
      · exact .same rfl rfl

theorem Hazard.Pop.keeps_step (m : Memory α) (s : Nat) (place : Place) (p : Hazard.Pop α) :
    m.Keeps (p.step m s place).memory := by
  cases p with
  | detach node next =>
    simp only [step]
    split
    · exact ⟨rfl, .inr ⟨s, next, rfl⟩⟩
    · exact .same rfl rfl
  | park node v => exact ⟨Array.size_setIfInBounds .., .inl rfl⟩
  | insert c p v => exact m.keeps_insertStep ..
  | reclaim p v => exact m.keeps_drainStep ..
  | protect p => exact .same rfl rfl
  | _ =>
    simp only [step]
    repeat' split
    all_goals exact .same rfl rfl

namespace Operation

/-- What a step does to the memory apart from the records. -/
theorem keeps_step (m : Memory α) (me : Thread) (p : Point α) (h : p.Fitting me) :
    m.Keeps (step (m, me) p).memory.1 := by
  have onRecords (hp : p.OnRecords) : m.Keeps (step (m, me) p).memory.1 := by
    obtain ⟨ts, hts⟩ := (stays_step hp m me).memory
    rw [hts]
    exact .same rfl rfl
  cases p with
  | hazardPush s q => exact q.keeps_step m s
  | hazardPop s place own q => exact q.keeps_step m s place
  | drain l t q => exact m.keeps_drainStep ..
  | acquire | popWith | publish | dropSlot | takeBack | letGo | release | exit | exitRelease =>
    exact onRecords trivial
  | _ => exact h.elim

end Operation

namespace Point

/-- The operation is on the stack that it was called for, whose table and list it uses. -/
def Proper (m : Memory α) (c : Hazard.Call α) : Point α → Prop
  | hazardPush s _ | popWith s _ => c.stack? = some s ∧ s < m.hazards.size
  | acquire t (.pop s) _ => c.stack? = some s ∧ s < m.hazards.size ∧ t = (m.hazard s).table
  | hazardPop s place _ _ => c.stack? = some s ∧ s < m.hazards.size ∧ place.table = (m.hazard s).table
  | drain l t _ =>
    ∃ s, c.stack? = some s ∧ s < m.hazards.size ∧ l = (m.hazard s).list ∧ t = (m.hazard s).table
  | _ => True

theorem Proper.mono {c : Hazard.Call α} {p : Point α} (h : p.Proper m c) (grows : m.Grows m') :
    p.Proper m' c := by
  cases p with
  | hazardPush s q | popWith s d => exact ⟨h.1, (grows s h.2).1⟩
  | hazardPop s place own q =>
    obtain ⟨hc, hs, ht⟩ := h
    obtain ⟨hs', ht', -⟩ := grows s hs
    exact ⟨hc, hs', ht.trans ht'.symm⟩
  | acquire t purpose q =>
    cases purpose with
    | pop s =>
      obtain ⟨hc, hs, ht⟩ := h
      obtain ⟨hs', ht', -⟩ := grows s hs
      exact ⟨hc, hs', ht.trans ht'.symm⟩
    | _ => trivial
  | drain l t q =>
    obtain ⟨s, hc, hs, hl, ht⟩ := h
    obtain ⟨hs', ht', hl'⟩ := grows s hs
    exact ⟨s, hc, hs', hl.trans hl'.symm, ht.trans ht'.symm⟩
  | _ => trivial

theorem proper_letGo {c : Hazard.Call α} {d : Nat} {answer : Answer α} {q : Point α}
    (hq : (Operation.letGo m me d answer).next = .goto q) : q.Proper m c := by
  obtain ⟨me', h | ⟨place, h⟩⟩ := Operation.letGo_cases m me d answer <;> rw [h] at hq <;> cases hq
  trivial

theorem proper_exit {c : Hazard.Call α} {q : Point α} (hq : (Operation.exit m me).next = .goto q) :
    q.Proper m c := by
  obtain ⟨me', h | h | ⟨place, h⟩⟩ := Operation.exit_cases m me <;> rw [h] at hq <;> cases hq
  · trivial
  · trivial

theorem Proper.acquire {c : Hazard.Call α} {table : Nat} {purpose : Purpose} {r : Acquire.Point}
    {q : Point α} (h : (Point.acquire table purpose r).Proper m c)
    (seated : Seated m.tables me (some (.acquire table purpose r : Point α))) (h0 : me.token ≠ 0)
    (hq : (Operation.step (m, me) (.acquire table purpose r)).next = .goto q) : q.Proper m c := by
  have k : Acquire.Keeps table m.tables me.token
      (Acquire.step (α := α) table purpose.pins (m.tables, me) r) :=
    Acquire.Sound.step ⟨seated.counts, seated.owns, seated.fitting _ rfl⟩ h0
  simp only [Operation.step] at hq
  rcases ho : Acquire.step (α := α) table purpose.pins (m.tables, me) r with
    ⟨⟨ts', me'⟩, r' | (e | d) | f, notes⟩ <;> rw [ho] at hq k
  · cases hq
    cases purpose <;> exact h
  · cases hq
  · obtain ⟨place, hplace, htable⟩ := k.next.place
    cases purpose with
    | register name =>
      simp only [Operation.acquired] at hq
      split at hq <;> cases hq
      trivial
    | lend => cases hq
    | pop s =>
      simp only [Operation.acquired, hplace] at hq
      cases hq
      exact ⟨h.1, h.2.1, htable.trans h.2.2⟩
  · cases hq

/-- A step stays within the operation. -/
theorem Proper.step {c : Hazard.Call α} {p q : Point α} (h : p.Proper m c)
    (seated : Seated m.tables me (some p)) (h0 : me.token ≠ 0)
    (hq : (Operation.step (m, me) p).next = .goto q) : q.Proper m c := by
  cases p with
  | hazardPush s r =>
    simp only [Operation.step, Outcome.within] at hq
    cases ho : (r.step m s).next <;> simp [ho, Next.within] at hq
    subst hq
    exact h
  | hazardPop s place own r =>
    simp only [Operation.step, Outcome.within] at hq
    cases ho : (r.step m s place).next <;> simp only [ho, Next.within] at hq
    · cases hq
      exact h
    · split at hq <;> cases hq
      trivial
    · cases hq
  | drain l t r =>
    simp only [Operation.step, Outcome.within] at hq
    cases ho : (m.drainStep l t r).next <;> simp [ho, Next.within] at hq
    subst hq
    exact h
  | acquire table purpose r => exact h.acquire seated h0 hq
  | popWith s d =>
    simp only [Operation.step] at hq
    repeat' split at hq
    · rename_i ht
      cases hq
      exact ⟨h.1, h.2, ht⟩
    · cases hq
    · cases hq
  | publish d a =>
    simp only [Operation.step] at hq
    split at hq <;> cases hq
  | dropSlot name =>
    simp only [Operation.step] at hq
    split at hq
    · cases hq
    · exact proper_letGo hq
  | takeBack =>
    simp only [Operation.step] at hq
    split at hq
    · cases hq
    · exact proper_letGo hq
  | letGo d answer => exact proper_letGo hq
  | release place r answer =>
    cases r with
    | clear =>
      cases hq
      trivial
    | disown => cases hq
  | exit => exact proper_exit hq
  | exitRelease place r =>
    cases r <;>
    · cases hq
      trivial
  | _ => exact (seated.fitting _ rfl).elim

theorem Proper.start {c : Hazard.Call α} {p : Point α} (h : c.start? m me = some p) :
    p.Proper m c := by
  cases c with
  | push s v granted =>
    simp only [Hazard.Call.start?, Option.ite_none_right_eq_some, Option.some.injEq] at h
    obtain ⟨hs, rfl⟩ := h
    exact ⟨rfl, hs⟩
  | pop s =>
    simp only [Hazard.Call.start?, Option.ite_none_right_eq_some, Option.some.injEq] at h
    obtain ⟨hs, rfl⟩ := h
    exact ⟨rfl, hs, rfl⟩
  | popWith s slot =>
    simp only [Hazard.Call.start?, Option.ite_none_right_eq_some, Option.map_eq_some_iff] at h
    obtain ⟨hs, d, -, rfl⟩ := h
    exact ⟨rfl, hs⟩
  | reclaim s =>
    simp only [Hazard.Call.start?, Option.ite_none_right_eq_some, Option.some.injEq] at h
    obtain ⟨hs, rfl⟩ := h
    exact ⟨s, rfl, hs, rfl, rfl⟩
  | publish slot a =>
    obtain ⟨d, -, rfl⟩ := Option.map_eq_some_iff.mp h
    trivial
  | register t slot | lend t | takeBack | dropSlot slot | exit =>
    simp only [Hazard.Call.start?, Option.ite_none_right_eq_some, Option.ite_none_left_eq_some,
      Option.some.injEq] at h
    obtain ⟨-, rfl⟩ := h
    trivial

/-- A missed exchange touches no stack. -/
theorem keeps_miss {p q : Point α} (hm : p.miss? m = some (m', q)) : m.Keeps m' := by
  unfold Point.miss? at hm
  split at hm
  case h_5 => cases hm
  all_goals
    obtain ⟨rfl, rfl⟩ := Prod.mk.inj (Option.some.inj hm)
    first | exact .same rfl rfl | exact ⟨Array.size_setIfInBounds .., .inl rfl⟩

/-- A missed exchange stays at its point. -/
theorem Proper.miss {c : Hazard.Call α} {p q : Point α} (h : p.Proper m c)
    (hm : p.miss? m = some (m', q)) : q.Proper m c := by
  unfold Point.miss? at hm
  split at hm
  case h_5 => cases hm
  all_goals
    obtain ⟨-, rfl⟩ := Prod.mk.inj (Option.some.inj hm)
    exact h

end Point

namespace Hazard

/-- A call starts with a push or a pass of its own stack, or it has to do with the records first. -/
theorem Call.start_cases {c : Call α} {p : Point α} (h : c.start? m me = some p) :
    p.OnRecords ∨ (∃ s v granted, p = .hazardPush s (.allocate v granted)) ∨ ∃ s, p = .reclaim m s := by
  cases c with
  | push s v granted =>
    simp only [start?, Option.ite_none_right_eq_some, Option.some.injEq] at h
    exact .inr (.inl ⟨s, v, granted, h.2.symm⟩)
  | reclaim s =>
    simp only [start?, Option.ite_none_right_eq_some, Option.some.injEq] at h
    exact .inr (.inr ⟨s, h.2.symm⟩)
  | popWith s slot =>
    simp only [start?, Option.ite_none_right_eq_some, Option.map_eq_some_iff] at h
    obtain ⟨-, d, -, rfl⟩ := h
    exact .inl trivial
  | publish slot a =>
    obtain ⟨d, -, rfl⟩ := Option.map_eq_some_iff.mp h
    exact .inl trivial
  | _ =>
    simp only [start?, Option.ite_none_right_eq_some, Option.ite_none_left_eq_some,
      Option.some.injEq] at h
    obtain ⟨-, rfl⟩ := h
    exact .inl trivial

theorem Change.grows (c : Change) (m : Memory α) : m.Grows (c.apply m) := by
  intro s hs
  cases c with
  | registry capacity =>
    simp only [apply]
    split <;> exact ⟨hs, rfl, rfl⟩
  | stack t =>
    simp only [apply]
    split
    · have hlt : s < (m.hazards.push ⟨.null, t, m.lists.size⟩).size := by
        rw [Array.size_push]
        omega
      have same : ((m.addHandle t).addHazard t).hazard s = m.hazard s := by
        simp [Memory.hazard, Memory.addHazard, Memory.addList, Memory.addHandle, Array.getElem?_push,
          Nat.ne_of_lt hs]
      exact ⟨hlt, by rw [same], by rw [same]⟩
    · exact ⟨hs, rfl, rfl⟩
  | _ => exact ⟨hs, rfl, rfl⟩

/-- A new stack comes with a new list. -/
theorem Change.tidy (c : Change) {m : Memory α} (t : m.Tidy) : (c.apply m).Tidy := by
  cases c with
  | registry capacity =>
    simp only [apply]
    split <;> exact ⟨t.list_lt, t.apart⟩
  | stack table =>
    simp only [apply]
    split
    · have cases {s : Nat} {h : Hazard.Stack}
          (hh : (m.hazards.push ⟨.null, table, m.lists.size⟩)[s]? = some h) :
          s = m.hazards.size ∧ h.list = m.lists.size ∨ m.hazards[s]? = some h ∧ h.list < m.lists.size := by
        rw [Array.getElem?_push] at hh
        split at hh
        · rename_i hs
          obtain rfl := Option.some.inj hh
          exact .inl ⟨hs, rfl⟩
        · exact .inr ⟨hh, t.list_lt s h hh⟩
      refine ⟨fun s h hh => ?_, fun s u h h' hs hu he => ?_⟩
      · show h.list < (m.lists.push .empty).size
        rw [Array.size_push]
        obtain ⟨-, hl⟩ | ⟨-, hl⟩ := cases hh <;> omega
      · obtain ⟨rfl, hl⟩ | ⟨hm, hl⟩ := cases hs <;> obtain ⟨rfl, hl'⟩ | ⟨hm', hl'⟩ := cases hu
        · rfl
        · omega
        · omega
        · exact t.apart s u h h' hm hm' he
    · exact t
  | _ => exact ⟨t.list_lt, t.apart⟩

namespace Crowd

structure Proper (x : Crowd α) : Prop where
  tidy : x.memory.Tidy
  proper : ∀ i c p, x.busy i = some (c, p) → p.Proper x.memory c

namespace Proper

variable {x : Crowd α} {i : Nat} {st : Operation.State α} {b : Option (Call α × Point α)}

theorem start : (start : Crowd α).Proper :=
  ⟨⟨fun s h hs => by simp [Crowd.start, Memory.empty] at hs,
    fun s t h h' hs => by simp [Crowd.start, Memory.empty] at hs⟩,
    fun i c p h => by cases h⟩

theorem set (k : x.Proper) (keeps : x.memory.Keeps st.1)
    (proper : ∀ c p, b = some (c, p) → p.Proper x.memory c) : (x.set i st b).Proper := by
  refine ⟨keeps.tidy k.tidy, fun j c p hj => ?_⟩
  by_cases hji : j = i
  · subst hji
    simp only [Crowd.set, Function.update_self] at hj
    exact (proper c p hj).mono keeps.grows
  · simp only [Crowd.set, Function.update_of_ne hji] at hj
    exact (k.proper j c p hj).mono keeps.grows

theorem move (k : x.Proper) (o : x.Orderly) (mv : Move α) : (x.move mv).Proper := by
  cases mv with
  | call i c =>
    simp only [Crowd.move]
    split
    · rename_i p hb hc
      refine k.set (.same rfl rfl) ?_
      rintro _ _ ⟨⟩
      exact .start hc
    · exact k
  | step i =>
    simp only [Crowd.move]
    split
    · exact k
    · rename_i c p hb
      have hs := o.seated_of_busy hb
      have keeps := Operation.keeps_step x.memory (x.me i) p (hs.fitting _ rfl)
      rcases ho : Operation.step (x.memory, x.me i) p with ⟨st, q | a | f, notes⟩ <;> rw [ho] at keeps
      · refine k.set keeps ?_
        rintro _ _ ⟨⟩
        have ht := o.token i
        exact (k.proper i c p hb).step hs (by omega) (by rw [ho])
      · exact k.set keeps (by simp)
      · exact k
  | miss i =>
    simp only [Crowd.move]
    split
    · exact k
    · rename_i c p hb
      split
      · rename_i m q hm
        refine k.set (Point.keeps_miss hm) ?_
        rintro _ _ ⟨⟩
        exact (k.proper i c p hb).miss hm
      · exact k
  | change c =>
    exact ⟨c.tidy k.tidy, fun i d p h => (k.proper i d p h).mono (c.grows x.memory)⟩

end Proper

theorem proper_after (ms : List (Move α)) : (after ms).Proper := by
  induction ms using List.reverseRecOn with
  | nil => exact .start
  | append_singleton ms mv ih => exact after_append_singleton ms mv ▸ ih.move (orderly_after ms) mv

end Crowd

end Hazard

end LockFreeStack
