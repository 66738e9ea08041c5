import LockFreeStack.Proofs.Hazard.Heads
import LockFreeStack.Proofs.Hazard.Tally

/-!
Progress on hazard stacks. An operation starts over at most as often as others have pushed and popped
since it began, and an insertion into a parked list at most as often as others have changed the head
of that list.
-/

namespace LockFreeStack

variable {i l : Nat}

namespace Insert

/-- What an insertion takes the head of the list to be. -/
def Point.seen? : Point → Option (Option Nat)
  | load => none
  | link seen => some seen

/-- The insertion has not looked at the list yet. -/
def Point.isFresh : Point → Bool
  | load => true
  | link _ => false

/-- The exchange has failed, and is going to be tried again. -/
def Point.retries : Point → Point → Bool
  | link _, link _ => true
  | _, _ => false

/-- The part of the history of a list's head that a move of thread `i` adds, from what the list's head
and the thread's insertion are before and after it. -/
def beats (i : Nat) (head head' : Option Nat) (o o' : Option Point) : List (Beat Nat) :=
  (if o'.any Point.isFresh ∧ ¬o.any Point.isFresh then [.begins i] else []) ++
    (if o.any fun p => o'.any p.retries then [.fails i] else []) ++
      if head' ≠ head then [.changes i true] else []

section Beats

variable {α : Type} {head head' : Option Nat} {o o' : Option Point}

theorem beats_of_none : beats i head head none none = [] := by simp [beats]

theorem round_step (c : Chain) (m : Parking) (p : Point) :
    Round i m.list.head (step (α := α) c m p).memory.list.head p.seen?
      ((step (α := α) c m p).next.point?.bind Point.seen?)
      (beats i m.list.head (step (α := α) c m p).memory.list.head (some p)
        (step (α := α) c m p).next.point?) := by
  cases p with
  | load =>
    rw [show beats i m.list.head (step (α := α) c m .load).memory.list.head (some .load)
      (step (α := α) c m .load).next.point? = [] by simp [beats, step, Next.point?, Point.retries, Point.isFresh]]
    exact .quiet rfl fun v hv => .inl (Option.some.inj hv).symm
  | link seen =>
    have still : beats i m.list.head m.list.head (some (.link seen)) none = [] := by simp [beats]
    simp only [step]
    cases he : m.entries.get? c.last with
    | none =>
      simp only [Next.point?]
      rw [still]
      exact .rest rfl
    | some x =>
      by_cases hs : m.list.head = seen
      · simp only [if_pos hs, Next.point?]
        by_cases hc : some c.first = m.list.head
        · rw [hc, still]
          exact .rest rfl
        · rw [show beats i m.list.head (some c.first) (some (.link seen)) none = [.changes i true] by
            simp [beats, hc]]
          exact .settles true
      · simp only [if_neg hs, Next.point?]
        rw [show beats i m.list.head m.list.head (some (.link seen)) (some (.link m.list.head)) = [.fails i] by
          simp [beats, Point.retries, Point.isFresh]]
        exact .fails seen rfl rfl (Ne.symm hs) fun v hv => (Option.some.inj hv).symm

/-- An exchange that misses has failed if it has found another head than it expects. -/
theorem round_miss (c : Chain) (m : Parking) (seen : Option Nat) :
    Round i m.list.head (miss c m seen).1.list.head (some seen) (miss c m seen).2.seen?
      (if some seen = some m.list.head then [] else
        beats i m.list.head (miss c m seen).1.list.head (some (.link seen)) (some (miss c m seen).2)) := by
  by_cases hs : seen = m.list.head
  · rw [if_pos (congrArg some hs)]
    exact .quiet rfl fun v hv => .inl (Option.some.inj hv).symm
  · rw [if_neg (fun h => hs (Option.some.inj h)),
      show beats i m.list.head (miss c m seen).1.list.head (some (.link seen)) (some (miss c m seen).2) =
        [.fails i] by simp [beats, miss, Point.retries, Point.isFresh]]
    exact .fails seen rfl rfl hs fun v hv => (Option.some.inj hv).symm

end Beats

end Insert

namespace Parking.Point

/-- The insertion that an operation on a list is in the middle of. -/
def insert? : Point → Option Insert.Point
  | insert _ p | drain (.restore _ p _ _) => some p
  | _ => none

/-- An operation that does not insert, and does not begin to. -/
theorem round_away {head head' : Option Nat} :
    Round i head head' none none (Insert.beats i head head' none none) := by
  by_cases h : head' = head
  · rw [h, Insert.beats_of_none]
    exact .rest rfl
  · rw [show Insert.beats i head head' none none = [.changes i true] by simp [Insert.beats, h]]
    exact .settles true

theorem round_begin {head : Option Nat} :
    Round i head head none none (Insert.beats i head head none (some .load)) := by
  rw [show Insert.beats i head head none (some .load) = [.begins i] by simp [Insert.beats, Insert.Point.isFresh]]
  exact .begins rfl rfl

theorem round_step (t : Table) (m : Parking) (q : Point) :
    Round i m.list.head (q.step t m).memory.list.head (q.insert?.bind Insert.Point.seen?)
      (((q.step t m).next.point?.bind insert?).bind Insert.Point.seen?)
      (Insert.beats i m.list.head (q.step t m).memory.list.head q.insert?
        ((q.step t m).next.point?.bind insert?)) := by
  cases q with
  | park a d => exact round_begin
  | insert c p =>
    have r := Insert.round_step (i := i) (α := Unit) c m p
    simp only [step, Outcome.within]
    rcases ho : Insert.step (α := Unit) c m p with ⟨m', p' | u | f, notes⟩ <;> rw [ho] at r <;> exact r
  | drain q =>
    cases q with
    | restore c p deferred reclaimed =>
      have r := Insert.round_step (i := i) (α := Unit) c m p
      simp only [step, Outcome.within, Drain.step]
      rcases ho : Insert.step (α := Unit) c m p with ⟨m', p' | u | f, notes⟩ <;> rw [ho] at r <;> exact r
    | _ =>
      simp only [step, Outcome.within, Drain.step]
      repeat' split
      all_goals first | exact round_away | exact round_begin

theorem round_miss {m m' : Parking} {q q' : Point} (h : q.miss? m = some (m', q')) :
    Round i m.list.head m'.list.head (q.insert?.bind Insert.Point.seen?) (q'.insert?.bind Insert.Point.seen?)
      (if q.insert?.bind Insert.Point.seen? = some m.list.head then [] else
        Insert.beats i m.list.head m'.list.head q.insert? q'.insert?) := by
  unfold miss? at h
  split at h
  · obtain ⟨rfl, rfl⟩ := Prod.mk.inj (Option.some.inj h)
    exact Insert.round_miss _ m _
  · obtain ⟨rfl, rfl⟩ := Prod.mk.inj (Option.some.inj h)
    exact Insert.round_miss _ m _
  · cases h

/-- The insertion into the list `l`, if it is this list that the operation is at work on. -/
def insertOn? (l : Nat) (o : Option (Nat × Point)) : Option Insert.Point :=
  o.bind fun b => if b.1 = l then b.2.insert? else none

section InsertOn

variable {k : Nat} {q : Point}

theorem insertOn?_self : insertOn? l (some (l, q)) = q.insert? := if_pos rfl

theorem insertOn?_of_ne (h : k ≠ l) : insertOn? l (some (k, q)) = none := if_neg h

end InsertOn

end Parking.Point

open Parking.Point (insertOn? insertOn?_self insertOn?_of_ne)

variable {α : Type} {m m' : Memory α} {o o' : Option (Nat × Parking.Point)}

theorem Mirrors.round (h : Mirrors m m' o o') (i l : Nat) :
    Round i (m.list l).head (m'.list l).head ((insertOn? l o).bind Insert.Point.seen?)
      ((insertOn? l o').bind Insert.Point.seen?)
      (Insert.beats i (m.list l).head (m'.list l).head (insertOn? l o) (insertOn? l o')) := by
  cases h with
  | same entries list => exact Parking.Point.round_away
  | call k c entries list =>
    have fresh : insertOn? l (some (k, c.start)) = none := by
      by_cases hk : k = l
      · subst hk
        rw [insertOn?_self]
        cases c <;> rfl
      · exact insertOn?_of_ne hk
    rw [fresh]
    exact Parking.Point.round_away
  | @step k q q' t next entries list =>
    by_cases hk : k = l
    · subst hk
      have r := Parking.Point.round_step (i := i) t (m.parking k) q
      rw [next] at r
      rw [list, Function.update_self, insertOn?_self, insertOn?_self]
      exact r
    · rw [insertOn?_of_ne hk, insertOn?_of_ne hk]
      exact Parking.Point.round_away
  | @stop k q r t next entries list =>
    by_cases hk : k = l
    · subst hk
      have r := Parking.Point.round_step (i := i) t (m.parking k) q
      rw [next] at r
      rw [list, Function.update_self, insertOn?_self]
      exact r
    · rw [insertOn?_of_ne hk]
      exact Parking.Point.round_away

theorem Misses.round (h : Misses m m' o o') (i l : Nat) :
    Round i (m.list l).head (m'.list l).head ((insertOn? l o).bind Insert.Point.seen?)
      ((insertOn? l o').bind Insert.Point.seen?)
      (if (insertOn? l o).bind Insert.Point.seen? = some (m.list l).head then [] else
        Insert.beats i (m.list l).head (m'.list l).head (insertOn? l o) (insertOn? l o')) := by
  cases h with
  | same entries list => exact Parking.Point.round_away
  | @miss k q q' p h entries list =>
    by_cases hk : k = l
    · subst hk
      rw [list, Function.update_self, insertOn?_self, insertOn?_self]
      exact Parking.Point.round_miss h
    · rw [insertOn?_of_ne hk, insertOn?_of_ne hk]
      exact Parking.Point.round_away

namespace Hazard.Crowd

variable {x : Crowd α} {g : Ghost} {c : Call α} {p : Point α}

/-- The insertion into the list `l` that thread `i` is in the middle of. -/
def insert? (x : Crowd α) (l i : Nat) : Option Insert.Point := insertOn? l (x.parked.busy i)

def insertSeen? (x : Crowd α) (l i : Nat) : Option (Option Nat) := (x.insert? l i).bind Insert.Point.seen?

/-- What a move adds to the history of the head of the list `l`. An exchange that misses what it finds
has not failed. -/
def listBeats (l : Nat) (x : Crowd α) (mv : Move α) : List (Beat Nat) :=
  let y := x.move mv
  let beats (i : Nat) :=
    Insert.beats i (x.memory.list l).head (y.memory.list l).head (x.insert? l i) (y.insert? l i)
  match mv with
  | .step i => beats i
  | .miss i => if x.insertSeen? l i = some (x.memory.list l).head then [] else beats i
  | _ => []

theorem Stable.parked_step (k : x.Stable g) (i : Nat) :
    ∃ o, (x.move (.step i)).parked.busy = Function.update x.parked.busy i o ∧
      Mirrors x.memory (x.move (.step i)).memory (x.parked.busy i) o := by
  cases hb : x.busy i with
  | none =>
    have same : x.move (.step i) = x := by simp only [Crowd.move, hb]
    rw [same]
    exact ⟨_, (Function.update_eq_self i _).symm, parked_idle hb ▸ .same rfl rfl⟩
  | some b =>
    obtain ⟨faults, -⟩ | ⟨st, b', after, grows, proper, mirrors⟩ := step_cases k.orderly k.proper hb
    · exact absurd faults (k.not_faults i)
    · rw [after]
      exact ⟨_, congrArg Parking.Crowd.busy (parked_set k.proper grows proper), mirrors⟩

theorem miss?_of_retries_insert {k : Nat} {q : Parking.Point} {r : Insert.Point} (h : p.parking? m = some (k, q))
    (hq : q.insert? = some r) (hr : r.retries r) : ∃ o, p.miss? m = some o := by
  cases r with
  | load => cases hr
  | link seen =>
    unfold Parking.Point.insert? at hq
    split at hq <;> cases hq
    · cases p with
      | hazardPop s place own q =>
        cases q <;> cases h
        exact ⟨_, rfl⟩
      | _ => cases h
    · cases p with
      | hazardPop s place own q =>
        cases q <;> cases h
        exact ⟨_, rfl⟩
      | drain k t q =>
        cases h
        exact ⟨_, rfl⟩
      | _ => cases h

/-- Where no exchange can miss, there is nothing to tell. -/
theorem listBeats_of_miss?_eq_none (hb : x.busy i = some (c, p)) (hm : p.miss? x.memory = none) (l : Nat) :
    listBeats l x (.miss i) = [] := by
  have goes : ((x.insert? l i).any fun r => (x.insert? l i).any r.retries) = false := by
    cases hr : x.insert? l i with
    | none => rfl
    | some r =>
      obtain ⟨⟨k, q⟩, ho, hq⟩ := Option.bind_eq_some_iff.mp hr
      rw [Option.ite_none_right_eq_some] at hq
      rw [parked_busy hb] at ho
      by_contra h
      obtain ⟨o, hmiss⟩ := miss?_of_retries_insert ho hq.2 (by simpa using h)
      simp [hm] at hmiss
  have same : x.move (.miss i) = x := by simp [move, hb, hm]
  simp [listBeats, same, Insert.beats, goes]

theorem Stable.parked_missing (k : x.Stable g) {q : Point α} (hb : x.busy i = some (c, p))
    (hm : p.miss? x.memory = some (m, q)) :
    (x.move (.miss i)).parked.busy = Function.update x.parked.busy i (q.parking? x.memory) ∧
      Misses x.memory (x.move (.miss i)).memory (x.parked.busy i) (q.parking? x.memory) := by
  obtain ⟨after, grows, proper, misses⟩ := miss_cases k.proper hb hm
  rw [after]
  exact ⟨congrArg Parking.Crowd.busy (parked_set k.proper grows proper), misses⟩

theorem Stable.parked_call (k : x.Stable g) (hb : x.busy i = none) (hc : c.start? x.memory (x.me i) = some p) :
    (x.move (.call i c)).memory = x.memory ∧
      (x.move (.call i c)).parked.busy = Function.update x.parked.busy i (p.parking? x.memory) := by
  have after : x.move (.call i c) = x.set i (x.memory, x.me i) (some (c, p)) := by
    simp only [Crowd.move, hb, hc]
  rw [after]
  refine ⟨rfl, congrArg Parking.Crowd.busy (parked_set k.proper (fun _ hs => ⟨hs, rfl, rfl⟩) ?_)⟩
  rintro _ _ ⟨⟩
  exact .start hc

/-- No call starts with an insertion. -/
theorem insertOn?_start {me : Thread} (h : c.start? m me = some p) (l : Nat) :
    insertOn? l (p.parking? m) = none := by
  obtain hp | ⟨k, hp⟩ := parking?_start (m := m) h <;> rw [hp]
  · rfl
  · by_cases hk : k = l
    · rw [hk]
      exact insertOn?_self
    · exact insertOn?_of_ne hk

theorem insertSeen?_of_ne {y : Crowd α} {j : Nat} {o : Option (Nat × Parking.Point)}
    (h : y.parked.busy = Function.update x.parked.busy i o) (hj : j ≠ i) :
    y.insertSeen? l j = x.insertSeen? l j := by
  rw [insertSeen?, insertSeen?, insert?, insert?, h, Function.update_of_ne hj]

theorem insert?_update {y : Crowd α} {o : Option (Nat × Parking.Point)}
    (h : y.parked.busy = Function.update x.parked.busy i o) : y.insert? l i = insertOn? l o := by
  rw [insert?, h, Function.update_self]

/-- What a move does to the head of the list `l` and to what the insertions into it take it to be. -/
theorem Stable.round_list (k : x.Stable g) (l : Nat) (mv : Move α) :
    ∃ i, Round i (x.memory.list l).head ((x.move mv).memory.list l).head (x.insertSeen? l i)
      ((x.move mv).insertSeen? l i) (listBeats l x mv) ∧
        ∀ j ≠ i, (x.move mv).insertSeen? l j = x.insertSeen? l j := by
  have still (i : Nat) (same : x.move mv = x) (beats : listBeats l x mv = []) :
      ∃ i, Round i (x.memory.list l).head ((x.move mv).memory.list l).head (x.insertSeen? l i)
        ((x.move mv).insertSeen? l i) (listBeats l x mv) ∧
          ∀ j ≠ i, (x.move mv).insertSeen? l j = x.insertSeen? l j := by
    rw [same, beats]
    exact ⟨i, .quiet rfl fun v hv => .inr hv, fun j _ => rfl⟩
  cases mv with
  | call i c =>
    cases hb : x.busy i with
    | some b => exact still i (by simp [Crowd.move, hb]) rfl
    | none =>
      cases hc : c.start? x.memory (x.me i) with
      | none => exact still i (by simp [Crowd.move, hb, hc]) rfl
      | some p =>
        obtain ⟨memory, busy⟩ := k.parked_call hb hc
        refine ⟨i, .quiet (by rw [memory]) fun v hv => ?_, fun j hj => insertSeen?_of_ne busy hj⟩
        rw [insertSeen?, insert?_update busy, insertOn?_start hc] at hv
        cases hv
  | step i =>
    obtain ⟨o, busy, mirrors⟩ := k.parked_step i
    refine ⟨i, ?_, fun j hj => insertSeen?_of_ne busy hj⟩
    have r := mirrors.round i l
    rw [← insert?_update busy] at r
    exact r
  | miss i =>
    cases hb : x.busy i with
    | none =>
      have same : x.move (.miss i) = x := by simp [Crowd.move, hb]
      have none : x.insert? l i = none := by rw [insert?, parked_idle hb]; rfl
      exact still i same (by simp [listBeats, same, Insert.beats, none])
    | some b =>
      obtain ⟨c, p⟩ := b
      cases hm : p.miss? x.memory with
      | none => exact still i (by simp [Crowd.move, hb, hm]) (listBeats_of_miss?_eq_none hb hm l)
      | some o =>
        obtain ⟨busy, misses⟩ := k.parked_missing hb hm
        refine ⟨i, ?_, fun j hj => insertSeen?_of_ne busy hj⟩
        have r := misses.round i l
        rw [← insert?_update busy] at r
        exact r
  | change c =>
    have same (j : Nat) : (x.move (.change c)).insertSeen? l j = x.insertSeen? l j := by
      rw [insertSeen?, insertSeen?, insert?, insert?, parked_busy_change k.proper c]
    have list : (x.move (.change c)).memory.list = x.memory.list := list_change c x.memory
    exact ⟨0, .quiet (by rw [list]) fun v hv => .inr (same 0 ▸ hv), fun j _ => same j⟩

/-- Whoever has seen another head of the list `l` than is there now is yet to fail. -/
theorem chased_list (l : Nat) (ms : List (Move α)) :
    Chased ((play move (listBeats l) start ms).1.memory.list l).head
      ((play move (listBeats l) start ms).1.insertSeen? l) (play move (listBeats l) start ms).2 := by
  refine (play_induction
    (fun (x : Crowd α) h => (∃ g, x.Stable g) ∧ Chased (x.memory.list l).head (x.insertSeen? l) h)
    ⟨stable_start, .start _ fun _ => rfl⟩ (fun x h mv ⟨⟨g, k⟩, chased⟩ => ?_) ms).2
  obtain ⟨g', k', -⟩ := k.move mv
  obtain ⟨i, round, others⟩ := k.round_list l mv
  exact ⟨⟨g', k'⟩, chased.round round others⟩

/-- An operation starts over because of the head of its stack at most as often as other threads have
pushed to this stack or popped from it since the operation began. An insertion into a list fails at most
as often as other threads have changed the head of this list since the insertion began. -/
theorem retries_charged (ms : List (Move α)) (i : Nat) :
    (∀ s, failures i (play move (headBeats s) start ms).2 ≤ rivals i (play move (headBeats s) start ms).2) ∧
      ∀ l, failures i (play move (listBeats l) start ms).2 ≤ rivals i (play move (listBeats l) start ms).2 :=
  ⟨fun s => (chased_head s ms i).1, fun l => (chased_list l ms i).1⟩

end Hazard.Crowd

end LockFreeStack
