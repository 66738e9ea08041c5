import LockFreeStack.Proofs.Hazard.Reachable
import LockFreeStack.Proofs.Parking.Census

/-!
What the threads of a crowd do to parked lists, they do as a crowd of pushes and passes. So the
counter of a list is exact when nothing is in flight.
-/

namespace LockFreeStack

variable {α : Type} {m m' : Memory α} {l i s : Nat}

namespace Memory

theorem list_setParking (hl : l < m.lists.size) (p : Parking) :
    (m.withoutEntries.setParking l p).list = Function.update m.list l p.list := by
  funext k
  by_cases hk : k = l
  · subst hk
    simp [list, setParking, setList, withoutEntries, hl]
  · simp [list, setParking, setList, withoutEntries, hk, Ne.symm hk]

theorem Tidy.list_lt_size (t : m.Tidy) (hs : s < m.hazards.size) : (m.hazard s).list < m.lists.size :=
  t.list_lt s _ (getElem?_hazards hs)

end Memory

namespace Hazard

/-- What a pop does to the parked list of its stack. -/
def Pop.parking? : Pop α → Option Parking.Point
  | park a _ => some (.park a .node)
  | insert c p _ => some (.insert c p)
  | reclaim p _ => some (.drain p)
  | _ => none

end Hazard

/-- The list that an operation is at work on, and what it does there. -/
def Point.parking? (m : Memory α) : Point α → Option (Nat × Parking.Point)
  | hazardPop s _ _ p => p.parking?.map fun q => ((m.hazard s).list, q)
  | drain l _ p => some (l, .drain p)
  | _ => none

theorem Point.OnRecords.parking? {p : Point α} (hp : p.OnRecords) (m : Memory α) : p.parking? m = none := by
  cases p <;> first | rfl | exact hp.elim

theorem Point.Proper.parking?_eq {c : Hazard.Call α} {p : Point α} (h : p.Proper m c) (grows : m.Grows m') :
    p.parking? m' = p.parking? m := by
  cases p with
  | hazardPop s place own q => simp only [Point.parking?, (grows s h.2.1).2.2]
  | _ => rfl

/-- The memory changes as a thread's work on a list goes on. -/
inductive Mirrors (m m' : Memory α) :
    Option (Nat × Parking.Point) → Option (Nat × Parking.Point) → Prop where
  | same (entries : m'.entries = m.entries) (list : m'.list = m.list) : Mirrors m m' none none
  | call (l : Nat) (c : Parking.Call) (entries : m'.entries = m.entries) (list : m'.list = m.list) :
    Mirrors m m' none (some (l, c.start))
  | step {l : Nat} {q q' : Parking.Point} (t : Table) (next : (q.step t (m.parking l)).next = .goto q')
    (entries : m'.entries = (q.step t (m.parking l)).memory.entries)
    (list : m'.list = Function.update m.list l (q.step t (m.parking l)).memory.list) :
    Mirrors m m' (some (l, q)) (some (l, q'))
  | stop {l : Nat} {q : Parking.Point} {r : Except Trouble Nat} (t : Table)
    (next : (q.step t (m.parking l)).next = .done r)
    (entries : m'.entries = (q.step t (m.parking l)).memory.entries)
    (list : m'.list = Function.update m.list l (q.step t (m.parking l)).memory.list) :
    Mirrors m m' (some (l, q)) none

/-- The memory changes as a weak exchange misses. -/
inductive Misses (m m' : Memory α) :
    Option (Nat × Parking.Point) → Option (Nat × Parking.Point) → Prop where
  | same (entries : m'.entries = m.entries) (list : m'.list = m.list) : Misses m m' none none
  | miss {l : Nat} {q q' : Parking.Point} {p : Parking} (h : q.miss? (m.parking l) = some (p, q'))
    (entries : m'.entries = p.entries) (list : m'.list = Function.update m.list l p.list) :
    Misses m m' (some (l, q)) (some (l, q'))

/-- The same for one step of an operation, or of a part of it. -/
def MirrorsStep {κ β : Type} (m : Memory α) (o : Option (Nat × Parking.Point))
    (parking? : κ → Option (Nat × Parking.Point)) (out : Outcome (Memory α) κ β α) : Prop :=
  match out.next with
  | .goto q => Mirrors m out.memory o (parking? q)
  | .done _ => Mirrors m out.memory o none
  | .fault _ => True

theorem MirrorsStep.within {κ κ' β β' : Type} {o : Option (Nat × Parking.Point)}
    {parking? : κ → Option (Nat × Parking.Point)} {parking?' : κ' → Option (Nat × Parking.Point)}
    {out : Outcome (Memory α) κ β α} {point : κ → κ'} {result : β → Next κ' β'}
    (k : MirrorsStep m o parking? out) (same : ∀ q, parking?' (point q) = parking? q)
    (ends : ∀ b q, result b = .goto q → parking?' q = none) :
    MirrorsStep m o parking?' (out.within id point result) := by
  obtain ⟨m', q | b | f, notes⟩ := out
  · simp only [MirrorsStep, Outcome.within, Next.within, same]
    exact k
  · simp only [MirrorsStep, Outcome.within, Next.within]
    cases hb : result b with
    | goto q =>
      simp only [ends b q hb]
      exact k
    | done b' => exact k
    | fault f => trivial
  · trivial

theorem Insert.step_erase (c : Chain) (m : Parking) (p : Insert.Point) :
    (step (α := Unit) c m p).memory = (step (α := α) c m p).memory ∧
      (step (α := Unit) c m p).next = (step (α := α) c m p).next := by
  cases p with
  | load => exact ⟨rfl, rfl⟩
  | link seen =>
    simp only [step]
    repeat' split
    all_goals constructor <;> trivial

theorem Drain.step_erase (t : Table) (m : Parking) (p : Drain.Point) :
    (step (α := Unit) t m p).memory = (step (α := α) t m p).memory ∧
      (step (α := Unit) t m p).next = (step (α := α) t m p).next := by
  cases p with
  | restore c q deferred reclaimed =>
    obtain ⟨memory, next⟩ := Insert.step_erase (α := α) c m q
    simp only [step]
    rcases ho : Insert.step (α := Unit) c m q with ⟨m', q' | u | f, notes⟩ <;>
      rcases ho' : Insert.step (α := α) c m q with ⟨m'', q'' | u' | f', notes'⟩ <;>
      simp_all
  | _ =>
    simp only [step]
    repeat' split
    all_goals constructor <;> trivial

namespace Mirrors

variable {q q' : Parking.Point} {t : Table} {p : Parking} {r : Except Trouble Nat}

theorem ofStep (hl : l < m.lists.size) (memory : (q.step t (m.parking l)).memory = p)
    (next : (q.step t (m.parking l)).next = .goto q') :
    Mirrors m (m.withoutEntries.setParking l p) (some (l, q)) (some (l, q')) :=
  .step t next (congrArg Parking.entries memory).symm (memory ▸ Memory.list_setParking hl p)

theorem ofStop (hl : l < m.lists.size) (memory : (q.step t (m.parking l)).memory = p)
    (next : (q.step t (m.parking l)).next = .done r) :
    Mirrors m (m.withoutEntries.setParking l p) (some (l, q)) none :=
  .stop t next (congrArg Parking.entries memory).symm (memory ▸ Memory.list_setParking hl p)

end Mirrors

namespace Memory

theorem mirrors_insertStep (hl : l < m.lists.size) (c : Chain) (p : Insert.Point) :
    MirrorsStep m (some (l, .insert c p)) (fun q => some (l, .insert c q)) (m.insertStep l c p) := by
  obtain ⟨memory, next⟩ := Insert.step_erase (α := α) c (m.parking l) p
  simp only [MirrorsStep, insertStep, Outcome.within]
  rcases ho : Insert.step (α := α) c (m.parking l) p with ⟨m', q | r | f, notes⟩ <;> rw [ho] at memory next
  · exact .ofStep (t := ⟨#[], 0⟩) hl memory (by simp [Parking.Point.step, Outcome.within, next, Next.within])
  · exact .ofStop (t := ⟨#[], 0⟩) (r := .ok 0) hl memory
      (by simp [Parking.Point.step, Outcome.within, next, Next.within])
  · trivial

theorem mirrors_drainStep (hl : l < m.lists.size) (t : Nat) (p : Drain.Point) :
    MirrorsStep m (some (l, .drain p)) (fun q => some (l, .drain q)) (m.drainStep l t p) := by
  have within (h : m.drainStep l t p =
      (Drain.step (m.table t) (m.parking l) p).within (m.withoutEntries.setParking l ·) id .done) :
      MirrorsStep m (some (l, .drain p)) (fun q => some (l, .drain q)) (m.drainStep l t p) := by
    obtain ⟨memory, next⟩ := Drain.step_erase (α := α) (m.table t) (m.parking l) p
    simp only [MirrorsStep, h, Outcome.within]
    rcases ho : Drain.step (α := α) (m.table t) (m.parking l) p with ⟨m', q | r | f, notes⟩ <;>
      rw [ho] at memory next
    · exact .ofStep (t := m.table t) hl memory
        (by simp [Parking.Point.step, Outcome.within, next, Next.within])
    · exact .ofStop (t := m.table t) (r := r) hl memory
        (by simp [Parking.Point.step, Outcome.within, next, Next.within])
    · trivial
  cases p with
  | delete a d w =>
    by_cases hd : m.deletable a d
    · simp only [MirrorsStep, drainStep, if_pos hd]
      refine .step (m.table t) rfl ?_ ?_
      · cases d <;> rfl
      · refine Eq.trans ?_ (Function.update_eq_self l m.list).symm
        cases d <;> rfl
    · simp only [MirrorsStep, drainStep, if_neg hd]
  | _ => exact within rfl

end Memory

theorem Hazard.Pop.mirrors_step (hl : (m.hazard s).list < m.lists.size) (place : Place) (p : Hazard.Pop α) :
    MirrorsStep m (p.parking?.map fun q => ((m.hazard s).list, q))
      (fun p => p.parking?.map fun q => ((m.hazard s).list, q)) (p.step m s place) := by
  cases p with
  | park node v =>
    exact .ofStep (t := ⟨#[], 0⟩) hl rfl rfl
  | insert c q v =>
    exact (Memory.mirrors_insertStep hl c q).within (fun _ => rfl) (by rintro _ _ ⟨⟩; rfl)
  | reclaim q v =>
    refine (Memory.mirrors_drainStep hl _ q).within (fun _ => rfl) fun r _ h => ?_
    cases r <;> cases h
  | check v =>
    simp only [step]
    split
    · exact Mirrors.same rfl rfl
    · exact Mirrors.call _ .drain rfl rfl
  | scan node v i =>
    simp only [step]
    split
    · exact Mirrors.same rfl rfl
    · rename_i found _
      cases found
      · exact Mirrors.same rfl rfl
      · exact Mirrors.call _ (.push node .node) rfl rfl
    · trivial
  | protect q =>
    simp only [step]
    rcases Protect.step (α := α) (m.hazard s).head place m.tables q with ⟨ts, q' | a | f, notes⟩
    · exact Mirrors.same rfl rfl
    · by_cases ha : a = .null
      · simp only [Outcome.within, Next.within, if_pos ha]
        exact Mirrors.same rfl rfl
      · simp only [Outcome.within, Next.within, if_neg ha]
        exact Mirrors.same rfl rfl
    · trivial
  | _ =>
    simp only [step]
    repeat' split
    all_goals first | exact Mirrors.same rfl rfl | trivial

theorem Hazard.Push.mirrors_step (m : Memory α) (s : Nat) (p : Hazard.Push α) :
    MirrorsStep m none (fun _ => none) (p.step m s) := by
  cases p with
  | allocate v granted => cases granted <;> exact Mirrors.same rfl rfl
  | load a => exact Mirrors.same rfl rfl
  | link a seen =>
    simp only [step]
    repeat' split
    all_goals first | exact Mirrors.same rfl rfl | trivial

namespace Hazard.Crowd

variable {x : Crowd α} {c : Call α} {p : Point α}

/-- What a step of a thread does to the parked lists. -/
theorem mirrors_step (o : x.Orderly) (k : x.Proper) (hb : x.busy i = some (c, p)) :
    MirrorsStep x.memory (p.parking? x.memory) (Point.parking? x.memory)
      (Operation.step (x.memory, x.me i) p).shared := by
  have hp := k.proper i c p hb
  have onRecords (hp : p.OnRecords) : MirrorsStep x.memory (p.parking? x.memory)
      (Point.parking? x.memory) (Operation.step (x.memory, x.me i) p).shared := by
    have stays := Operation.stays_step hp x.memory (x.me i)
    rw [hp.parking?]
    rcases ho : Operation.step (x.memory, x.me i) p with ⟨⟨m, me⟩, q | a | f, notes⟩ <;> rw [ho] at stays <;>
      obtain ⟨⟨ts, rfl⟩, next, -⟩ := stays
    · have hq : q.parking? x.memory = none := by
        obtain hq | ⟨s, place, own, rfl⟩ := next
        · exact hq.parking? _
        · rfl
      simp only [MirrorsStep, Outcome.shared, hq]
      exact .same rfl rfl
    · exact Mirrors.same rfl rfl
    · trivial
  cases p with
  | hazardPush s q => exact (q.mirrors_step x.memory s).within (fun _ => rfl) (by rintro _ _ ⟨⟩)
  | hazardPop s place own q =>
    refine (q.mirrors_step (k.tidy.list_lt_size hp.2.1) place).within (fun _ => rfl) fun r q' h => ?_
    cases own with
    | none => cases h
    | some d =>
      cases h
      rfl
  | drain l t q =>
    obtain ⟨s, -, hs, rfl, -⟩ := hp
    exact (Memory.mirrors_drainStep (k.tidy.list_lt_size hs) t q).within (fun _ => rfl) (by rintro _ _ ⟨⟩)
  | acquire | popWith | publish | dropSlot | takeBack | letGo | release | exit | exitRelease =>
    exact onRecords trivial
  | _ => exact ((o.seated_of_busy hb).fitting _ rfl).elim

/-- The crowd that is at work on the parked lists. -/
def parked (x : Crowd α) : Parking.Crowd :=
  ⟨x.memory.entries, x.memory.list, fun i => (x.busy i).bind fun b => b.2.parking? x.memory⟩

/-- At most one move of the crowd on the parked lists. -/
def Follows (x y : Parking.Crowd) : Prop := y = x ∨ ∃ mv, y = x.move mv

@[simp] theorem parking_parked (x : Crowd α) (l : Nat) : x.parked.parking l = x.memory.parking l := rfl

variable {st : Operation.State α} {b : Option (Call α × Point α)}

theorem parked_set (k : x.Proper) (grows : x.memory.Grows st.1)
    (proper : ∀ c p, b = some (c, p) → p.Proper x.memory c) :
    (x.set i st b).parked = ⟨st.1.entries, st.1.list,
      Function.update x.parked.busy i (b.bind fun b => b.2.parking? x.memory)⟩ := by
  unfold parked
  congr
  funext j
  by_cases hj : j = i
  · subst hj
    simp only [Crowd.set, Function.update_self]
    cases b with
    | none => rfl
    | some b => exact (proper b.1 b.2 rfl).parking?_eq grows
  · simp only [Crowd.set, Function.update_of_ne hj]
    cases hb : x.busy j with
    | none => rfl
    | some b => exact (k.proper j b.1 b.2 hb).parking?_eq grows

theorem follows_set (k : x.Proper) (grows : x.memory.Grows st.1)
    (proper : ∀ c p, b = some (c, p) → p.Proper x.memory c)
    (mirrors : Mirrors x.memory st.1 (x.parked.busy i) (b.bind fun b => b.2.parking? x.memory)) :
    Follows x.parked (x.set i st b).parked := by
  rw [parked_set k grows proper]
  generalize hp : x.parked.busy i = o at mirrors
  generalize (b.bind fun b => b.2.parking? x.memory) = o' at mirrors
  cases mirrors with
  | same entries list =>
    left
    rw [entries, list, ← hp, Function.update_eq_self]
    rfl
  | call l c entries list =>
    right
    refine ⟨.call i l c, ?_⟩
    simp only [Parking.Crowd.move, hp, Parking.Crowd.set, Parking.Crowd.parking, Function.update_eq_self,
      entries, list, Option.map_some]
    rfl
  | @step l q q' t next entries list =>
    right
    refine ⟨.step i t, ?_⟩
    rcases ho : q.step t (x.memory.parking l) with ⟨m, n, notes⟩
    rw [ho] at next entries list
    simp only at next entries list
    simp only [Parking.Crowd.move, hp, parking_parked, ho, next, Parking.Crowd.set, entries, list, Option.map_some]
    rfl
  | @stop l q r t next entries list =>
    right
    refine ⟨.step i t, ?_⟩
    rcases ho : q.step t (x.memory.parking l) with ⟨m, n, notes⟩
    rw [ho] at next entries list
    simp only at next entries list
    simp only [Parking.Crowd.move, hp, parking_parked, ho, next, Parking.Crowd.set, entries, list, Option.map_none]
    rfl

theorem follows_miss (k : x.Proper) (grows : x.memory.Grows st.1)
    (proper : ∀ c p, b = some (c, p) → p.Proper x.memory c)
    (misses : Misses x.memory st.1 (x.parked.busy i) (b.bind fun b => b.2.parking? x.memory)) :
    Follows x.parked (x.set i st b).parked := by
  rw [parked_set k grows proper]
  generalize hp : x.parked.busy i = o at misses
  generalize (b.bind fun b => b.2.parking? x.memory) = o' at misses
  cases misses with
  | same entries list =>
    left
    rw [entries, list, ← hp, Function.update_eq_self]
    rfl
  | @miss l q q' p h entries list =>
    right
    refine ⟨.miss i, ?_⟩
    simp only [Parking.Crowd.move, hp, parking_parked, h, Parking.Crowd.set, entries, list, Option.map_some]
    rfl

theorem parking?_start {m : Memory α} {me : Thread} (h : c.start? m me = some p) :
    p.parking? m = none ∨ ∃ l, p.parking? m = some (l, Parking.Call.drain.start) := by
  obtain hp | ⟨s, v, granted, rfl⟩ | ⟨s, rfl⟩ := c.start_cases h
  · exact .inl (hp.parking? m)
  · exact .inl rfl
  · exact .inr ⟨_, rfl⟩

theorem misses_miss {q : Point α} (k : x.Proper) (hb : x.busy i = some (c, p))
    (hm : p.miss? x.memory = some (m, q)) :
    Misses x.memory m (p.parking? x.memory) (q.parking? x.memory) := by
  have hp := k.proper i c p hb
  have insert {s : Nat} {c : Chain} {seen : Option Nat} {q q' : Parking.Point} (hs : s < x.memory.hazards.size)
      (h : q.miss? (x.memory.parking (x.memory.hazard s).list) =
        some ((Insert.miss c (x.memory.parking (x.memory.hazard s).list) seen).1, q')) :
      Misses x.memory (x.memory.missInsert (x.memory.hazard s).list c seen).1
        (some ((x.memory.hazard s).list, q)) (some ((x.memory.hazard s).list, q')) :=
    .miss h rfl (Memory.list_setParking (k.tidy.list_lt_size hs) _)
  unfold Point.miss? at hm
  split at hm
  · obtain ⟨rfl, rfl⟩ := Prod.mk.inj (Option.some.inj hm)
    exact .same rfl rfl
  · obtain ⟨rfl, rfl⟩ := Prod.mk.inj (Option.some.inj hm)
    exact insert hp.2.1 rfl
  · obtain ⟨rfl, rfl⟩ := Prod.mk.inj (Option.some.inj hm)
    exact insert hp.2.1 rfl
  · obtain ⟨rfl, rfl⟩ := Prod.mk.inj (Option.some.inj hm)
    obtain ⟨s, hs, hlt, rfl, rfl⟩ := hp
    exact insert hlt rfl
  · cases hm

theorem list_change (c : Change) (m : Memory α) : (c.apply m).list = m.list := by
  funext l
  cases c with
  | registry capacity =>
    simp only [Change.apply]
    split <;> rfl
  | stack t =>
    simp only [Change.apply]
    split
    · exact list_push_empty m l
    · rfl
  | _ => rfl

theorem parked_busy_change (k : x.Proper) (c : Change) :
    (x.move (.change c)).parked.busy = x.parked.busy := by
  funext i
  simp only [parked, Crowd.move]
  cases hb : x.busy i with
  | none => rfl
  | some b => exact (k.proper i b.1 b.2 hb).parking?_eq (c.grows x.memory)

theorem follows_change (k : x.Proper) (c : Change) :
    Follows x.parked (x.move (.change c)).parked := by
  have eq : (x.move (.change c)).parked = ⟨(c.apply x.memory).entries, x.memory.list, x.parked.busy⟩ := by
    rw [← parked_busy_change k c, ← list_change c]
    rfl
  rw [eq]
  cases c with
  | recycleEntry n => exact .inr ⟨.recycle n, rfl⟩
  | registry capacity =>
    left
    simp only [Change.apply]
    split <;> rfl
  | stack t =>
    left
    simp only [Change.apply]
    split <;> rfl
  | _ => exact .inl rfl

theorem parked_busy (hb : x.busy i = some (c, p)) : x.parked.busy i = p.parking? x.memory := by
  simp [parked, hb]

theorem parked_idle (hb : x.busy i = none) : x.parked.busy i = none := by simp [parked, hb]

/-- A step that is no fault takes the thread to another point, or to the end of its operation. -/
theorem step_cases (o : x.Orderly) (k : x.Proper) (hb : x.busy i = some (c, p)) :
    (x.Faults i ∧ x.move (.step i) = x) ∨ ∃ st b, x.move (.step i) = x.set i st b ∧
      x.memory.Grows st.1 ∧ (∀ c p, b = some (c, p) → p.Proper x.memory c) ∧
        Mirrors x.memory st.1 (x.parked.busy i) (b.bind fun b => b.2.parking? x.memory) := by
  have hs := o.seated_of_busy hb
  have keeps := Operation.keeps_step x.memory (x.me i) p (hs.fitting _ rfl)
  have mirrors := mirrors_step o k hb
  have ht := o.token i
  rw [parked_busy hb]
  simp only [Crowd.move, hb]
  rcases ho : Operation.step (x.memory, x.me i) p with ⟨st, q | a | f, notes⟩ <;> rw [ho] at keeps mirrors
  · refine .inr ⟨st, some (c, q), rfl, keeps.grows, ?_, mirrors⟩
    rintro _ _ ⟨⟩
    exact (k.proper i c p hb).step hs (by omega) (by rw [ho])
  · exact .inr ⟨st, none, rfl, keeps.grows, by simp, mirrors⟩
  · exact .inl ⟨⟨c, p, f, hb, by rw [ho]⟩, rfl⟩

theorem miss_cases {q : Point α} (k : x.Proper) (hb : x.busy i = some (c, p))
    (hm : p.miss? x.memory = some (m, q)) :
    x.move (.miss i) = x.set i (m, x.me i) (some (c, q)) ∧ x.memory.Grows m ∧
      (∀ d r, some (c, q) = some (d, r) → r.Proper x.memory d) ∧
        Misses x.memory m (x.parked.busy i) (q.parking? x.memory) := by
  refine ⟨by simp only [Crowd.move, hb, hm], (Point.keeps_miss hm).grows, ?_,
    parked_busy hb ▸ misses_miss k hb hm⟩
  rintro _ _ ⟨⟩
  exact (k.proper i c p hb).miss hm

theorem follows_move (o : x.Orderly) (k : x.Proper) (mv : Move α) : Follows x.parked (x.move mv).parked := by
  cases mv with
  | call i c =>
    simp only [Crowd.move]
    split
    · rename_i p hb hc
      refine follows_set k (fun _ hs => ⟨hs, rfl, rfl⟩) ?_ ?_
      · rintro _ _ ⟨⟩
        exact .start hc
      · rw [parked_idle hb, Option.bind_some]
        obtain hp | ⟨l, hp⟩ := parking?_start hc <;> rw [hp]
        · exact .same rfl rfl
        · exact .call l .drain rfl rfl
    · exact .inl rfl
  | step i =>
    cases hb : x.busy i with
    | none => exact .inl (by simp only [Crowd.move, hb])
    | some b =>
      obtain ⟨-, same⟩ | ⟨st, b', after, grows, proper, mirrors⟩ := step_cases o k hb
      · exact .inl (by rw [same])
      · rw [after]
        exact follows_set k grows proper mirrors
  | miss i =>
    cases hb : x.busy i with
    | none => exact .inl (by simp only [Crowd.move, hb])
    | some b =>
      obtain ⟨c, p⟩ := b
      cases hm : p.miss? x.memory with
      | none => exact .inl (by simp only [Crowd.move, hb, hm])
      | some out =>
        obtain ⟨after, grows, proper, misses⟩ := miss_cases k hb hm
        rw [after]
        exact follows_miss k grows proper misses
  | change c => exact follows_change k c

theorem parked_start : (start : Crowd α).parked = Parking.Crowd.start := by
  have list : (Memory.empty : Memory α).list = fun _ => .empty := by
    funext l
    simp [Memory.list, Memory.empty]
  simp only [parked, Crowd.start, list]
  rfl

theorem books_after (ms : List (Move α)) : ∃ K T E, (after ms).parked.Books K T E := by
  induction ms using List.reverseRecOn with
  | nil => exact ⟨_, _, _, (parked_start (α := α)).symm ▸ Parking.Crowd.Books.start⟩
  | append_singleton ms mv ih =>
    obtain ⟨K, T, E, b⟩ := ih
    rw [after_append_singleton]
    obtain h | ⟨mv', h⟩ := follows_move (orderly_after ms) (proper_after ms) mv
    · exact ⟨K, T, E, h ▸ b⟩
    · exact h ▸ b.move mv'

/-- A list that no operation is at work on has as many entries as its counter tells. -/
theorem pending_eq {ms : List (Move α)} {l : Nat} {es : List Nat}
    (rest : ∀ i p, (after ms).parked.busy i ≠ some (l, p))
    (path : Path (after ms).memory.entries.follow ((after ms).memory.list l).head (es.map some) none) :
    ((after ms).memory.list l).pending = .ofNat es.length := by
  obtain ⟨K, T, E, b⟩ := books_after ms
  obtain ⟨linked, held, ls⟩ := b.stored.exists_lists
  obtain ⟨h, -⟩ := path.unique rfl (ls.path l) rfl
  rw [show es = linked l from List.map_injective_iff.mpr (Option.some_injective _) h]
  exact b.pending_of_rest ls rest

end Hazard.Crowd

end LockFreeStack
