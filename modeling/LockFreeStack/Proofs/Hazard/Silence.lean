import LockFreeStack.Proofs.Hazard.Orderly
import LockFreeStack.Proofs.Hazard.Records

/-!
Records that publish something. Where slots are not written to from outside, only a pop publishes,
and it takes its publication back on every way out.
-/

namespace LockFreeStack

variable {α : Type} {ts ts' ts'' : Tables} {m : Memory α} {me : Thread} {place : Place}

/-- Every record that publishes something did so before. -/
def Tables.Hushes (ts ts' : Tables) : Prop :=
  ∀ place r', ts'.record? place = some r' → r'.published ≠ .null →
    ∃ r, ts.record? place = some r ∧ r.published ≠ .null

namespace Tables.Hushes

theorem refl (ts : Tables) : ts.Hushes ts := fun _ r h hr => ⟨r, h, hr⟩

theorem trans (h : ts.Hushes ts') (h' : ts'.Hushes ts'') : ts.Hushes ts'' := by
  intro place r'' h'' hr''
  obtain ⟨r', hp, hr'⟩ := h' place r'' h'' hr''
  exact h place r' hp hr'

theorem publish_null (ts : Tables) (place : Place) : ts.Hushes (ts.publish place .null) := by
  intro q r' h hr
  rw [record?_publish] at h
  split at h
  · obtain ⟨r, -, rfl⟩ := Option.map_eq_some_iff.mp h
    exact absurd rfl hr
  · exact ⟨r', h, hr⟩

theorem setOwner (ts : Tables) (place : Place) (n : Nat) : ts.Hushes (ts.setOwner place n) := by
  intro q r' h hr
  rw [record?_setOwner] at h
  split at h
  · obtain ⟨r, hq, rfl⟩ := Option.map_eq_some_iff.mp h
    exact ⟨r, hq, hr⟩
  · exact ⟨r', h, hr⟩

end Tables.Hushes

theorem Release.hushes_step (ts : Tables) (place : Place) (p : Release.Point) :
    ts.Hushes (step (α := α) ts place p).memory := by
  cases p with
  | clear => exact .publish_null ts place
  | disown => exact .setOwner ts place 0

/-- A claim that succeeds changes the owner of its record only. -/
theorem Claiming.memory_of_ok {t : Table} {token i : Nat} {p : Claiming.Point} :
    (step (α := α) t token p).next = .done (.ok i) →
      (step (α := α) t token p).memory = t.setOwner i token := by
  cases p <;>
  · simp only [step]
    repeat' split
    all_goals simp +contextual

theorem Acquire.hushes_step (table : Nat) (pin : Bool) (ts : Tables) (me : Thread) (p : Acquire.Point) :
    ts.Hushes (step (α := α) table pin (ts, me) p).memory.1 := by
  cases p with
  | lookup =>
    simp only [step]
    split <;> exact .refl ts
  | prune i => exact .refl ts
  | releasing i place q =>
    have hushes := Release.hushes_step (α := α) ts place q
    simp only [step]
    rcases ho : Release.step (α := α) ts place q with ⟨ts', q' | u | f, notes⟩ <;> rw [ho] at hushes <;>
      exact hushes
  | claiming q =>
    simp only [step]
    split
    · exact .refl ts
    · rename_i t ht
      rcases ho : Claiming.step (α := α) t me.token q with ⟨t', q' | (e | i) | f, notes⟩
      · exact .refl ts
      · exact .refl ts
      · have memory := Claiming.memory_of_ok (congrArg Outcome.next ho)
        rw [ho] at memory
        obtain rfl : t' = t.setOwner i me.token := memory
        simp only [Tables.set_setOwner ht]
        exact .setOwner ts ⟨table, i⟩ me.token
      · exact .refl ts

/-- The operation is not there to publish something for its own sake. -/
def Point.Tame : Point α → Prop
  | publish _ a => a = .null
  | _ => True

/-- A pop that has a slot and has not taken its publication back. -/
def Hazard.Pop.Publishes : Hazard.Pop α → Prop
  | protect _ | withdraw | readNext _ | detach .. | take _ | clear .. => True
  | _ => False

def Point.Publishes (place : Place) : Point α → Prop
  | hazardPop _ q _ p => q = place ∧ p.Publishes
  | _ => False

theorem Point.OnRecords.not_publishes {p : Point α} (hp : p.OnRecords) : ¬p.Publishes place := by
  cases p <;> first | exact id | exact hp.elim

theorem Point.hushes_miss {m' : Memory α} {p q : Point α} (h : p.miss? m = some (m', q)) :
    q.Tame ∧ ∀ place, ¬p.Publishes place := by
  unfold miss? at h
  split at h
  case h_5 => cases h
  all_goals
    obtain ⟨-, rfl⟩ := Prod.mk.inj (Option.some.inj h)
    refine ⟨trivial, fun place => ?_⟩
    first | exact id | exact And.right

/-- A step that leads on to no publication for its own sake, and does not change the records but to
publish less. -/
structure Outcome.Hushes (m : Memory α) (o : Outcome (Operation.State α) (Point α) (Answer α) α) : Prop where
  records : m.tables.Hushes o.memory.1.tables
  next : ∀ q, o.next = .goto q → q.Tame

namespace Operation

theorem hushes_letGo (m : Memory α) (me : Thread) (c : Nat) (answer : Answer α) :
    (letGo m me c answer).Hushes m := by
  obtain ⟨me', h | ⟨place, h⟩⟩ := letGo_cases m me c answer <;> rw [h] <;>
    exact ⟨.refl _, by rintro _ ⟨⟩ <;> trivial⟩

theorem hushes_exit (m : Memory α) (me : Thread) : (exit m me).Hushes m := by
  obtain ⟨me', h | h | ⟨place, h⟩⟩ := exit_cases m me <;> rw [h] <;>
    exact ⟨.refl _, by rintro _ ⟨⟩ <;> trivial⟩

theorem hushes_acquired (m : Memory α) (me : Thread) (c : Nat) (purpose : Purpose) :
    (acquired m me c purpose).Hushes m := by
  obtain ⟨me', ⟨a, h⟩ | ⟨d, a, h⟩ | ⟨s, place, h⟩⟩ := acquired_cases m me c purpose <;> rw [h] <;>
    exact ⟨.refl _, by rintro _ ⟨⟩ <;> trivial⟩

theorem hushes_acquire (m : Memory α) (me : Thread) (table : Nat) (purpose : Purpose) (q : Acquire.Point) :
    (step (m, me) (.acquire table purpose q)).Hushes m := by
  have records := Acquire.hushes_step (α := α) table purpose.pins m.tables me q
  simp only [step]
  rcases ho : Acquire.step (α := α) table purpose.pins (m.tables, me) q with
    ⟨⟨ts', me'⟩, q' | (e | d) | f, notes⟩ <;> rw [ho] at records
  · exact ⟨records, by rintro _ ⟨⟩; trivial⟩
  · exact ⟨records, by rintro _ ⟨⟩⟩
  · have a := hushes_acquired { m with tables := ts' } me' d purpose
    exact ⟨records.trans a.records, a.next⟩
  · exact ⟨records, by rintro _ ⟨⟩⟩

theorem hushes_step {p : Point α} (hp : p.OnRecords) (tame : p.Tame) (m : Memory α) (me : Thread) :
    (step (m, me) p).Hushes m := by
  cases p with
  | acquire table purpose q => exact hushes_acquire m me table purpose q
  | popWith s d =>
    simp only [step]
    repeat' split
    all_goals
      refine ⟨.refl _, ?_⟩
      rintro _ ⟨⟩ <;> trivial
  | publish d a =>
    obtain rfl : a = .null := tame
    simp only [step]
    split
    · exact ⟨.refl _, by rintro _ ⟨⟩⟩
    · exact ⟨.publish_null _ _, by rintro _ ⟨⟩⟩
  | dropSlot name =>
    simp only [step]
    split
    · exact ⟨.refl _, by rintro _ ⟨⟩⟩
    · exact hushes_letGo ..
  | takeBack =>
    simp only [step]
    split
    · exact ⟨.refl _, by rintro _ ⟨⟩⟩
    · exact hushes_letGo ..
  | letGo d answer => exact hushes_letGo ..
  | release place q answer =>
    refine ⟨Release.hushes_step (α := α) m.tables place q, ?_⟩
    cases q <;> rintro _ ⟨⟩
    trivial
  | exit => exact hushes_exit m me
  | exitRelease place q =>
    refine ⟨Release.hushes_step (α := α) m.tables place q, ?_⟩
    cases q <;> rintro _ ⟨⟩ <;> trivial
  | _ => exact hp.elim

end Operation

theorem Drain.Point.hushes_step (m : Memory α) (me : Thread) (l t : Nat) (p : Drain.Point) :
    (Operation.step (m, me) (.drain l t p)).Hushes m := by
  refine ⟨m.tables_drainStep l t p ▸ .refl _, fun q hq => ?_⟩
  simp only [Operation.step, Outcome.within] at hq
  cases ho : (m.drainStep l t p).next <;> simp [ho, Next.within] at hq
  subst hq
  trivial

namespace Hazard

theorem Push.hushes_step (m : Memory α) (me : Thread) (s : Nat) (p : Push α) :
    (Operation.step (m, me) (.hazardPush s p)).Hushes m := by
  refine ⟨p.tables_step m s ▸ .refl _, fun q hq => ?_⟩
  simp only [Operation.step, Outcome.within] at hq
  cases ho : (p.step m s).next <;> simp [ho, Next.within] at hq
  subst hq
  trivial

/-- A pop writes to its own record only. While it publishes something it goes on to a point where it
is known to do so. -/
theorem Pop.records_step (m : Memory α) (s : Nat) (place : Place) (p : Pop α)
    (safe : ∀ f, (p.step m s place).next ≠ .fault f) :
    ((p.step m s place).memory.tables = m.tables ∧
        (p.Publishes → ∃ q, (p.step m s place).next = .goto q ∧ q.Publishes)) ∨
      ∃ a, (p.step m s place).memory.tables = m.tables.publish place a ∧
        (a = .null ∨ ∃ q, (p.step m s place).next = .goto q ∧ q.Publishes) := by
  cases p with
  | protect q =>
    cases q with
    | load => exact .inl ⟨rfl, fun _ => ⟨_, rfl, trivial⟩⟩
    | publish a => exact .inr ⟨a, rfl, .inr ⟨_, rfl, trivial⟩⟩
    | validate a =>
      refine .inl ⟨rfl, fun _ => ?_⟩
      by_cases ha : a = (m.hazard s).head
      · by_cases hn : a = .null
        · exact ⟨.withdraw, by simp [step, Protect.step, Outcome.within, Next.within, ← ha, hn], trivial⟩
        · exact ⟨.readNext a, by simp [step, Protect.step, Outcome.within, Next.within, ← ha, hn], trivial⟩
      · exact ⟨.protect (.publish (m.hazard s).head),
          by simp [step, Protect.step, Outcome.within, Next.within, ha], trivial⟩
  | withdraw => exact .inr ⟨.null, rfl, .inl rfl⟩
  | clear a v => exact .inr ⟨.null, rfl, .inl rfl⟩
  | readNext a | take a =>
    left
    cases hx : m.nodes.plain? a with
    | none => exact absurd (by simp only [step, hx]) (safe (.node a))
    | some x =>
      simp only [step, hx]
      exact ⟨trivial, fun _ => ⟨_, rfl, trivial⟩⟩
  | detach a next =>
    left
    simp only [step]
    split <;> exact ⟨rfl, fun _ => ⟨_, rfl, trivial⟩⟩
  | reclaim q v => exact .inl ⟨Memory.tables_drainStep .., False.elim⟩
  | park | insert => exact .inl ⟨rfl, False.elim⟩
  | _ =>
    left
    simp only [step]
    repeat' split
    all_goals exact ⟨rfl, False.elim⟩

theorem Change.hushes (c : Change) (m : Memory α) : m.tables.Hushes (c.apply m).tables := by
  intro place r hr hp
  cases c with
  | registry capacity =>
    by_cases hc : capacity = 0
    · simp only [apply, Table.new, hc, ↓reduceIte] at hr
      exact ⟨r, hr, hp⟩
    · simp only [apply, Table.new, hc, ↓reduceIte, Memory.addTable, Tables.record?, Array.getElem?_push] at hr
      split at hr
      · rename_i t ht
        split at ht
        · obtain rfl := Option.some.inj ht
          obtain rfl := (Array.mem_replicate.mp (Array.mem_of_getElem? hr)).2
          exact absurd rfl hp
        · exact ⟨r, by simp only [Tables.record?, ht, hr], hp⟩
      · cases hr
  | handle t => exact ⟨r, (record?_setHandles m.tables t (· + 1) place).symm.trans hr, hp⟩
  | unhandle t => exact ⟨r, (record?_setHandles m.tables t (· - 1) place).symm.trans hr, hp⟩
  | stack t =>
    simp only [apply] at hr
    split at hr
    · exact ⟨r, (record?_setHandles m.tables t (· + 1) place).symm.trans hr, hp⟩
    · exact ⟨r, hr, hp⟩
  | recycleNode k | recycleEntry k => exact ⟨r, hr, hp⟩

/-- A call that does not publish an address for its own sake. -/
def Call.Tame : Call α → Prop
  | publish _ a => a = .null
  | _ => True

theorem Call.tame_start {m : Memory α} {c : Call α} {p : Point α} (tame : c.Tame)
    (h : c.start? m me = some p) : p.Tame := by
  cases c with
  | popWith s slot =>
    simp only [start?, Option.ite_none_right_eq_some, Option.map_eq_some_iff] at h
    obtain ⟨-, d, -, rfl⟩ := h
    trivial
  | publish slot a =>
    obtain ⟨d, -, rfl⟩ := Option.map_eq_some_iff.mp h
    exact tame
  | _ =>
    simp only [start?, Option.ite_none_right_eq_some, Option.ite_none_left_eq_some,
      Option.some.injEq] at h
    obtain ⟨-, rfl⟩ := h
    trivial

/-- The move is no call that publishes an address for its own sake. -/
def Move.Tame : Move α → Prop
  | call _ c => c.Tame
  | _ => True

namespace Crowd

/-- Whatever is published, a pop in flight publishes it. -/
structure Hushed (x : Crowd α) : Prop where
  tame : ∀ i c p, x.busy i = some (c, p) → p.Tame
  records : ∀ place r, x.memory.tables.record? place = some r → r.published ≠ .null →
    ∃ i c p, x.busy i = some (c, p) ∧ p.Publishes place

namespace Hushed

variable {x : Crowd α} {i : Nat} {st : Operation.State α} {b : Option (Call α × Point α)}
  {c : Call α} {p : Point α}

theorem start : (start : Crowd α).Hushed where
  tame i c p h := by cases h
  records place r hr := by simp [Crowd.start, Memory.empty, Tables.record?] at hr

theorem set (h : x.Hushed) (tame : ∀ c q, b = some (c, q) → q.Tame)
    (records : ∀ place r', st.1.tables.record? place = some r' → r'.published ≠ .null →
      (∃ c q, b = some (c, q) ∧ q.Publishes place) ∨
        (∀ c p, x.busy i = some (c, p) → ¬p.Publishes place) ∧
          ∃ r, x.memory.tables.record? place = some r ∧ r.published ≠ .null) : (x.set i st b).Hushed where
  tame j d q hj := by
    by_cases hji : j = i
    · subst hji
      exact tame d q (by simpa [Crowd.set] using hj)
    · exact h.tame j d q (by simpa [Crowd.set, hji] using hj)
  records place r' hr hp := by
    obtain ⟨d, q, rfl, hq⟩ | ⟨mine, r, hr, hp⟩ := records place r' hr hp
    · exact ⟨i, d, q, by simp [Crowd.set], hq⟩
    · obtain ⟨j, d, q, hj, hq⟩ := h.records place r hr hp
      have hji : j ≠ i := by
        rintro rfl
        exact mine d q hj hq
      exact ⟨j, d, q, by simpa [Crowd.set, hji] using hj, hq⟩

/-- The thread was not publishing anything. -/
theorem quiet (h : x.Hushed) (tame : ∀ c q, b = some (c, q) → q.Tame)
    (hushes : x.memory.tables.Hushes st.1.tables)
    (mine : ∀ place c p, x.busy i = some (c, p) → ¬p.Publishes place) : (x.set i st b).Hushed :=
  h.set tame fun place r' hr hp => .inr ⟨mine place, hushes place r' hr hp⟩

theorem popStep {s : Nat} {place : Place} {own : Option Nat} {q : Pop α} (h : x.Hushed)
    (hb : x.busy i = some (c, .hazardPop s place own q))
    (safe : ∀ f, (q.step x.memory s place).next ≠ .fault f)
    (hm : st.1 = (q.step x.memory s place).memory)
    (goes : ∀ q', (q.step x.memory s place).next = .goto q' → b = some (c, .hazardPop s place own q'))
    (tame : ∀ c q, b = some (c, q) → q.Tame) : (x.set i st b).Hushed := by
  refine h.set tame fun place' r' hr hp => ?_
  rw [hm] at hr
  have mine (hq : place = place' → ¬q.Publishes) (d : Call α) (p : Point α) (hd : x.busy i = some (d, p)) :
      ¬p.Publishes place' := by
    obtain ⟨rfl, rfl⟩ := Prod.mk.inj (Option.some.inj (hb.symm.trans hd))
    exact fun ⟨he, hq'⟩ => hq he hq'
  obtain ⟨same, on⟩ | ⟨a, publish, on⟩ := q.records_step x.memory s place safe
  · rw [same] at hr
    by_cases hq : place = place' ∧ q.Publishes
    · obtain ⟨rfl, hq⟩ := hq
      obtain ⟨q', hn, hq'⟩ := on hq
      exact .inl ⟨c, _, goes q' hn, rfl, hq'⟩
    · exact .inr ⟨mine (not_and.mp hq), r', hr, hp⟩
  · rw [publish, Tables.record?_publish] at hr
    by_cases he : place' = place
    · subst he
      obtain rfl | ⟨q', hn, hq'⟩ := on
      · rw [if_pos rfl, Option.map_eq_some_iff] at hr
        obtain ⟨r, -, rfl⟩ := hr
        exact absurd rfl hp
      · exact .inl ⟨c, _, goes q' hn, rfl, hq'⟩
    · rw [if_neg he] at hr
      exact .inr ⟨mine fun h => absurd h.symm he, r', hr, hp⟩

theorem popMove {s : Nat} {place : Place} {own : Option Nat} {q : Pop α} (h : x.Hushed)
    (hb : x.busy i = some (c, .hazardPop s place own q)) : (x.move (.step i)).Hushed := by
  simp only [Crowd.move, hb, Operation.step, Outcome.within]
  rcases ho : q.step x.memory s place with ⟨m, q' | r | f, notes⟩
  · refine h.popStep hb (by simp [ho]) (by rw [ho]) ?_ ?_
    · rw [ho]
      rintro _ ⟨⟩
      rfl
    · rintro _ _ ⟨⟩
      trivial
  · cases own with
    | none => exact h.popStep hb (by simp [ho]) (by rw [ho]) (by simp [ho]) (by simp)
    | some d =>
      refine h.popStep hb (by simp [ho]) (by rw [ho]) (by simp [ho]) ?_
      rintro _ _ ⟨⟩
      trivial
  · exact h

/-- A step of a thread that was not publishing anything. -/
theorem quietMove (h : x.Hushed) (hb : x.busy i = some (c, p)) (hp : ∀ place, ¬p.Publishes place)
    (k : (Operation.step (x.memory, x.me i) p).Hushes x.memory) : (x.move (.step i)).Hushed := by
  have mine (place : Place) (d : Call α) (p' : Point α) (hd : x.busy i = some (d, p')) :
      ¬p'.Publishes place := by
    obtain ⟨rfl, rfl⟩ := Prod.mk.inj (Option.some.inj (hb.symm.trans hd))
    exact hp place
  rcases ho : Operation.step (x.memory, x.me i) p with ⟨st, q | a | f, notes⟩ <;> rw [ho] at k <;>
    simp only [Crowd.move, hb, ho]
  · refine h.quiet ?_ k.records mine
    rintro _ _ ⟨⟩
    exact k.next q rfl
  · exact h.quiet (by simp) k.records mine
  · exact h

theorem step (h : x.Hushed) (o : x.Orderly) (i : Nat) : (x.move (.step i)).Hushed := by
  cases hb : x.busy i with
  | none => simpa only [Crowd.move, hb] using h
  | some b =>
    obtain ⟨c, p⟩ := b
    have onRecords (hp : p.OnRecords) : (x.move (.step i)).Hushed :=
      h.quietMove hb (fun _ => hp.not_publishes) (Operation.hushes_step hp (h.tame i c p hb) _ _)
    cases p with
    | hazardPush s q => exact h.quietMove hb (fun _ => id) (q.hushes_step x.memory (x.me i) s)
    | drain l t q => exact h.quietMove hb (fun _ => id) (q.hushes_step x.memory (x.me i) l t)
    | hazardPop s place own q => exact h.popMove hb
    | acquire | popWith | publish | dropSlot | takeBack | letGo | release | exit | exitRelease =>
      exact onRecords trivial
    | _ => exact ((o.seated_of_busy hb).fitting _ rfl).elim

theorem miss (h : x.Hushed) (i : Nat) : (x.move (.miss i)).Hushed := by
  simp only [Crowd.move]
  split
  · exact h
  · rename_i c p hb
    split
    · rename_i m q hm
      obtain ⟨tame, mine⟩ := Point.hushes_miss hm
      refine h.quiet ?_ (tables_miss hm ▸ .refl _) fun place d p' hd => ?_
      · rintro _ _ ⟨⟩
        exact tame
      · obtain ⟨rfl, rfl⟩ := Prod.mk.inj (Option.some.inj (hb.symm.trans hd))
        exact mine place
    · exact h

theorem move (h : x.Hushed) (o : x.Orderly) {mv : Move α} (tame : mv.Tame) : (x.move mv).Hushed := by
  cases mv with
  | call i c =>
    simp only [Crowd.move]
    split
    · rename_i p hb hc
      refine h.quiet ?_ (.refl _) fun place d q hd => ?_
      · rintro _ _ ⟨⟩
        exact c.tame_start tame hc
      · rw [hb] at hd
        cases hd
    · exact h
  | step i => exact h.step o i
  | miss i => exact h.miss i
  | change c =>
    refine ⟨h.tame, fun place r' hr hp => ?_⟩
    obtain ⟨r, hr, hp⟩ := c.hushes x.memory place r' hr hp
    exact h.records place r hr hp

end Hushed

theorem hushed_after {ms : List (Move α)} (tame : ∀ mv ∈ ms, mv.Tame) : (after ms).Hushed := by
  induction ms using List.reverseRecOn with
  | nil => exact .start
  | append_singleton ms mv ih =>
    rw [after_append_singleton]
    have h := ih fun mv' hmv => tame mv' (List.mem_append_left _ hmv)
    exact h.move (orderly_after ms) (tame mv (by simp))

/-- Where nobody publishes an address for its own sake, no record publishes anything between
operations. -/
theorem published_eq_null {ms : List (Move α)} (tame : ∀ mv ∈ ms, mv.Tame)
    (rest : ∀ i, (after ms).busy i = none) {r : Record}
    (hr : (after ms).memory.tables.record? place = some r) : r.published = .null := by
  by_contra hp
  obtain ⟨i, c, p, hi, -⟩ := (hushed_after tame).records place r hr hp
  rw [rest i] at hi
  cases hi

end Crowd

end Hazard

end LockFreeStack
