import LockFreeStack.Proofs.Parking.Census
import LockFreeStack.Proofs.Parking.Course
import LockFreeStack.Proofs.Parking.Passes

/-!
A pass over a list that other threads put entries on meanwhile. They work on the list, and the pass
on what it has taken from it, until the pass puts its chain in front of what they have linked.
-/

namespace LockFreeStack.Parking

open Entries

/-- What is seen of one thread and of the list that it passes over: what the thread shows and how its
operation ends, and of all others that an entry is counted to the list, or linked. -/
inductive Sight where
  | noted (n : Note Unit)
  | answered (r : Except Trouble Nat)
  | counted
  | linked (x : Deposit)

namespace Sight

def note? : Sight → Option (Note Unit)
  | noted n => some n
  | _ => none

def answer? : Sight → Option (Except Trouble Nat)
  | answered r => some r
  | _ => none

def deposit? : Sight → Option Deposit
  | linked x => some x
  | _ => none

def counts : Sight → Bool
  | counted => true
  | _ => false

end Sight

/-- The deleters called, in order. -/
def called (log : List Sight) : List (Address × Deleter) := deletions (log.filterMap Sight.note?)

def reported (log : List Sight) : List (Nat × Nat) := reports (log.filterMap Sight.note?)

def answers (log : List Sight) : List (Except Trouble Nat) := log.filterMap Sight.answer?

/-- The deposits that have been linked, the last one first. -/
def stacked (log : List Sight) : List Deposit := (log.filterMap Sight.deposit?).reverse

def entered (log : List Sight) : Nat := log.countP Sight.counts

/-- What a step of the thread that passes over the list shows. -/
def Point.shows (out : Outcome Parking Point (Except Trouble Nat) Unit) : List Sight :=
  out.notes.map .noted ++ match out.next with
    | .done r => [.answered r]
    | _ => []

/-- What a step of another thread does to the list. -/
def Point.brings (m : Parking) (out : Outcome Parking Point (Except Trouble Nat) Unit) : Point → List Sight
  | park .. => [.counted]
  | insert c _ =>
    match out.next with
    | .done _ => ((content? m.entries c.first).map fun v => .linked ⟨c.first, v.1, v.2⟩).toList
    | _ => []
  | drain _ => []

/-- What is seen of thread `i` and of the list `l` at a move. -/
def Crowd.sights (i l : Nat) (x : Crowd) : Move → List Sight
  | .step j t =>
    match x.busy j with
    | none => []
    | some (k, p) =>
      let out := p.step t (x.parking k)
      if j = i then Point.shows out else if k = l then p.brings (x.parking k) out else []
  | _ => []

/-- The threads after some moves, and what was seen of thread `i` and of the list `l`. -/
def Crowd.watch (i l : Nat) (x : Crowd) (ms : List Move) : Crowd × List Sight :=
  play Crowd.move (Crowd.sights i l) x ms

/-- A move that starts no pass over the list `l` and lets thread `i` find published what `t` shows. -/
def Move.Spares (i l : Nat) (t : Table) : Move → Prop
  | call _ k c => c = .drain → k ≠ l
  | step j t' => j = i → t'.shown = t.shown
  | _ => True

namespace Crowd

variable (i l : Nat) (x : Crowd)

@[simp] theorem watch_nil : x.watch i l [] = (x, []) := rfl

theorem watch_cons (mv : Move) (ms : List Move) :
    x.watch i l (mv :: ms) =
      (((x.move mv).watch i l ms).1, x.sights i l mv ++ ((x.move mv).watch i l ms).2) := play_cons mv ms

theorem watch_snoc (ms : List Move) (mv : Move) :
    x.watch i l (ms ++ [mv]) =
      ((x.watch i l ms).1.move mv, (x.watch i l ms).2 ++ (x.watch i l ms).1.sights i l mv) := play_snoc ms mv

end Crowd

section Logs

variable (log more : List Sight)

@[simp] theorem called_append : called (log ++ more) = called log ++ called more := by
  simp [called]

@[simp] theorem reported_append : reported (log ++ more) = reported log ++ reported more := by
  simp [reported]

@[simp] theorem answers_append : answers (log ++ more) = answers log ++ answers more :=
  List.filterMap_append

@[simp] theorem stacked_append : stacked (log ++ more) = stacked more ++ stacked log := by
  simp [stacked]

@[simp] theorem entered_append : entered (log ++ more) = entered log + entered more := List.countP_append

@[simp] theorem stacked_counted : stacked [.counted] = [] := rfl

@[simp] theorem stacked_linked (x : Deposit) : stacked [.linked x] = [x] := rfl

@[simp] theorem entered_counted : entered [.counted] = 1 := rfl

@[simp] theorem entered_linked (x : Deposit) : entered [.linked x] = 0 := rfl

theorem note?_noted (notes : List (Note Unit)) : (notes.map Sight.noted).filterMap Sight.note? = notes := by
  induction notes with
  | nil => rfl
  | cons n notes ih => simp [Sight.note?, ih]

variable (out : Outcome Parking Point (Except Trouble Nat) Unit)

theorem called_shows : called (Point.shows out) = deletions out.notes := by
  unfold called Point.shows
  rw [List.filterMap_append, note?_noted, deletions_append]
  split
  · exact List.append_nil _
  · exact List.append_nil _

theorem reported_shows : reported (Point.shows out) = reports out.notes := by
  unfold reported Point.shows
  rw [List.filterMap_append, note?_noted, reports_append]
  split
  · exact List.append_nil _
  · exact List.append_nil _

theorem stacked_shows : stacked (Point.shows out) = [] := by
  unfold stacked Point.shows
  split <;> simp [Sight.deposit?, List.filterMap_eq_nil_iff]

theorem answers_shows : answers (Point.shows out) = match out.next with
    | .done r => [r]
    | _ => [] := by
  have none : (out.notes.map Sight.noted).filterMap Sight.answer? = [] := by
    simp [List.filterMap_eq_nil_iff, Sight.answer?]
  unfold answers Point.shows
  rw [List.filterMap_append, none]
  split <;> rfl

theorem entered_shows : entered (Point.shows out) = 0 := by
  unfold entered Point.shows
  split <;> simp [Sight.counts, List.countP_eq_zero]

end Logs

/-- What a pass is going to keep is in its hands, to be looked at or put aside already. -/
theorem Course.mem_hand {t : Table} {h : Entries} {xs : List Deposit} {p : Drain.Point}
    {calls : List (Address × Deleter)} (c : Drain.Course t h xs p calls) (nodup : (xs.map Deposit.entry).Nodup)
    (l : Nat) {y : Deposit} (hy : y ∈ Drain.kept t xs) :
    (∃ ys, h.Linked (p.hand l).due ys none ∧ y ∈ ys) ∨
      ∃ ys, h.Hung (p.hand l).kept ys ∧ (ys.map Deposit.entry).Nodup ∧ y ∈ ys := by
  have sorted {w : Drain.Walk} {done due : List Deposit} (s : Drain.Sorted t h w done due)
      (split : done ++ due = xs) :
      (∃ ys, h.Linked w.at? ys none ∧ y ∈ ys) ∨
        ∃ ys, h.Hung w.kept ys ∧ (ys.map Deposit.entry).Nodup ∧ y ∈ ys := by
    subst split
    rw [Drain.kept, List.filter_append, List.mem_append] at hy
    obtain hy | hy := hy
    · rw [List.map_append] at nodup
      exact .inr ⟨_, s.kept, Drain.kept_nodup nodup.of_append_left t, List.mem_reverse.mpr hy⟩
    · exact .inl ⟨_, s.due, (Drain.kept_sublist t due).subset hy⟩
  cases c with
  | scan linked met => exact .inl ⟨_, linked, (Drain.kept_sublist t xs).subset hy⟩
  | walk split s => exact sorted s split
  | delete split gone s => exact sorted s (by simpa using split)
  | settle s => exact .inr ⟨_, s.kept, Drain.kept_nodup nodup t, List.mem_reverse.mpr hy⟩
  | restore q k => exact .inr ⟨_, k, Drain.kept_nodup nodup t, List.mem_reverse.mpr hy⟩

/-- A pass is where it was as long as nobody touches what it has in its hands. -/
theorem Course.congr {t : Table} {h h' : Entries} {xs : List Deposit} {p : Drain.Point}
    {calls : List (Address × Deleter)} (c : Drain.Course t h xs p calls) (nodup : (xs.map Deposit.entry).Nodup)
    (l : Nat) (due : ∀ ys, h.Linked (p.hand l).due ys none → ∀ y ∈ ys, h'.get? y.entry = h.get? y.entry)
    (kept : ∀ ys, h.Hung (p.hand l).kept ys → (ys.map Deposit.entry).Nodup →
      ∀ y ∈ ys, h'.get? y.entry = h.get? y.entry) : Drain.Course t h' xs p calls := by
  have front {done due : List Deposit} (split : done ++ due = xs) :
      ((Drain.kept t done).reverse.map Deposit.entry).Nodup := by
    rw [← split, List.map_append] at nodup
    exact Drain.kept_nodup nodup.of_append_left t
  cases c with
  | scan linked met => exact .scan (linked.congr (due _ linked)) met
  | walk split s => exact .walk split (s.congr (due _ s.due) (kept _ s.kept (front split)))
  | @delete w done rest x split gone s =>
    have split' : (done ++ [x]) ++ rest = xs := by simpa using split
    exact .delete split gone (s.congr (due _ s.due) (kept _ s.kept (front split')))
  | settle s => exact .settle (s.congr (by simp) (kept _ s.kept (front (List.append_nil xs))))
  | restore q k => exact .restore q (k.congr (kept _ k (front (List.append_nil xs))))

namespace Point

variable {t : Table} {m m' : Parking} {p q : Point} {r : Drain.Point}

theorem list_miss (h : p.miss? m = some (m', q)) : m'.list = m.list := by
  obtain _ | ⟨c, _ | seen⟩ | (_ | _ | _ | _ | _ | ⟨c, _ | seen, deferred, reclaimed⟩) := p <;> cases h
  all_goals rfl

theorem drain_of_miss (h : p.miss? m = some (m', .drain r)) : ∃ r', p = .drain r' := by
  obtain _ | ⟨c, _ | seen⟩ | r' := p
  · cases h
  · cases h
  · cases h
  · exact ⟨r', rfl⟩

theorem drain_of_step (h : (p.step t m).next = .goto (.drain r)) : ∃ r', p = .drain r' := by
  cases p with
  | park a d => simp [step] at h
  | insert c p =>
    rcases ho : (Insert.step c m p : Outcome Parking Insert.Point Unit Unit) with ⟨m', q | _ | f, notes⟩ <;>
      simp [step, ho, Outcome.within, Next.within] at h
  | drain r' => exact ⟨r', rfl⟩

end Point

namespace Crowd

theorem list_set_parking (x : Crowd) (i k l : Nat) (o : Option Point) :
    (x.set i k (x.parking k) o).list l = x.list l := by
  by_cases hk : l = k
  · subst hk
    simp [set, parking]
  · simp [set, hk]

/-- What is kept whatever the threads do. -/
def Settled (x : Crowd) : Prop := ∃ K T E, x.Books K T E ∧ x.Single

variable {x : Crowd} {K : Nat → Keeper} {T : Finset Nat} {E : Nat → Finset Nat} {i l : Nat} {t : Table}
  {xs ys : List Deposit} {n : UInt64} {p q : Drain.Point} {log : List Sight} {mv : Move} {h' : Entries}

theorem Settled.move (s : x.Settled) (mv : Move) : (x.move mv).Settled := by
  obtain ⟨K, T, E, b, single⟩ := s
  obtain ⟨K', T', E', b'⟩ := b.move mv
  exact ⟨K', T', E', b', single.move mv⟩

namespace Books

/-- What a pass has yet to look at is in the hands of its thread, -/
theorem keeper_of_due (b : x.Books K T E) (hi : x.busy i = some (l, .drain p))
    (k : x.entries.Linked (p.hand l).due ys none) : ∀ y ∈ ys, K y.entry = .due l i := by
  have due := b.stored.due i
  simp only [hi, handOf, Point.stack_hand] at due
  exact due.mem_of_linked k

/-- and so is what it has put aside. -/
theorem keeper_of_kept (b : x.Books K T E) (hi : x.busy i = some (l, .drain p))
    (k : x.entries.Hung (p.hand l).kept ys) (nodup : (ys.map Deposit.entry).Nodup) :
    ∀ y ∈ ys, K y.entry = .kept l i := by
  intro y hy
  have kept := b.stored.kept i
  simp only [hi, handOf, Point.stack_hand] at kept
  have hand : (Point.hand l (.drain p)).kept = (p.hand l).kept := rfl
  rw [hand] at kept
  cases hk : (p.hand l).kept with
  | none =>
    rw [hk] at k
    obtain rfl : ys = [] := k
    cases hy
  | some c =>
    rw [hk] at k kept
    obtain ⟨⟨d, linked⟩, last⟩ := k
    obtain ⟨es, d', path, nodup', last', mem⟩ := kept
    have same : es = (ys.map Deposit.entry).map some := by
      refine path.unique_of_getLast linked.path nodup' (nodup.map fun _ _ => Option.some.inj) last' ?_
      rw [List.getLast?_map, last]
      rfl
    exact (mem _).mp (same ▸ by simpa using ⟨y, hy, rfl⟩)

end Books

/-- Thread `i` is at the point `p` of its pass over the deposits `xs`, which it has detached from the list
`l` when the list's counter was `n`. -/
structure Midway (i l : Nat) (t : Table) (xs : List Deposit) (n : UInt64) (p : Drain.Point) (x : Crowd)
    (log : List Sight) : Prop where
  settled : x.Settled
  nodup : (xs.map Deposit.entry).Nodup
  busy : x.busy i = some (l, .drain p)
  alone : ∀ j q, x.busy j = some (l, .drain q) → j = i
  course : Drain.Course t x.entries xs p (called log)
  linked : x.entries.Linked (x.list l).head (stacked log) none
  pending : (x.list l).pending + .ofNat p.paid = n + .ofNat (entered log)
  reported : reported log = []
  answers : answers log = []

/-- The pass of thread `i` is over. -/
structure Finished (i l : Nat) (t : Table) (xs : List Deposit) (n : UInt64) (x : Crowd) (log : List Sight) :
    Prop where
  idle : x.busy i = none
  answers : answers log = [.ok (Drain.freed t xs).length]
  called : called log = Drain.calls t xs
  reported : reported log = [((Drain.freed t xs).length, xs.length - (Drain.freed t xs).length)]
  linked : x.entries.Linked (x.list l).head ((Drain.kept t xs).reverse ++ stacked log) none
  pending : (x.list l).pending = n + .ofNat (entered log) - .ofNat (Drain.freed t xs).length

namespace Books

section Frame

variable (b : x.Books K T E)

include b

/-- Nobody touches what is linked. -/
theorem linked_move (k : x.entries.Linked (x.list l).head ys none) (mv : Move) :
    (x.move mv).entries.Linked (x.list l).head ys none :=
  k.congr fun y hy => b.get?_move_of_live (by simp [b.stored.keeper_of_linked (s := l) k y hy])
    fun s j h => by simp [b.stored.keeper_of_linked (s := l) k y hy] at h

/-- What others do leaves the pass of thread `i` where it is. -/
theorem course_move (nodup : (xs.map Deposit.entry).Nodup) (hi : x.busy i = some (l, .drain p))
    {calls : List (Address × Deleter)} (c : Drain.Course t x.entries xs p calls)
    (other : mv.thread? ≠ some i) : Drain.Course t (x.move mv).entries xs p calls := by
  have mine {e : Nat} (he : K e = .due l i ∨ K e = .kept l i) :
      (x.move mv).entries.get? e = x.entries.get? e := by
    refine b.get?_move_of_live (fun h => by simp [h] at he) fun s j h => ?_
    obtain rfl : i = j := by
      obtain he | he := he <;> obtain h | h := h <;> rw [he] at h <;> cases h <;> rfl
    exact other
  exact Course.congr c nodup l (fun ys k y hy => mine (.inl (b.keeper_of_due hi k y hy)))
    fun ys k nodup y hy => mine (.inr (b.keeper_of_kept hi k nodup y hy))

end Frame

end Books

/-- What becomes of the list `l`, with the deposits `ys` on it, at a move that shows `log`. -/
structure Grows (x y : Crowd) (l : Nat) (ys : List Deposit) (log : List Sight) : Prop where
  linked : y.entries.Linked (y.list l).head (stacked log ++ ys) none
  pending : (y.list l).pending = (x.list l).pending + .ofNat (entered log)
  called : called log = []
  reported : reported log = []
  answers : answers log = []

namespace Books

section Others

variable (b : x.Books K T E) (k : x.entries.Linked (x.list l).head ys none)

include b k

theorem grows_of_same (mv : Move) (same : (x.move mv).list l = x.list l) : x.Grows (x.move mv) l ys [] := by
  refine ⟨?_, ?_, rfl, rfl, rfl⟩
  · rw [same]
    exact b.linked_move k mv
  · rw [same]
    exact (UInt64.add_zero _).symm

/-- A thread that is about to put something on the list counts it, and links it when it finds the head
that it expects. -/
theorem grows_step (single : x.Single) {j : Nat} (hj : j ≠ i) {r : Point} (hb : x.busy j = some (l, r))
    (push : ∀ q, r ≠ .drain q) (t : Table) :
    x.Grows (x.move (.step j t)) l ys (x.sights i l (.step j t)) := by
  have moved := b.linked_move k (.step j t)
  simp only [Crowd.sights, hb, if_neg hj, if_true]
  cases r with
  | park a d =>
    refine ⟨?_, ?_, rfl, rfl, rfl⟩
    · simpa [Crowd.move, hb, Point.step, Parking.park, Crowd.set, parking, Point.brings] using moved
    · simp [Crowd.move, hb, Point.step, Parking.park, Crowd.set, parking, Point.brings]
  | insert c p =>
    have hc : c.first = c.last := single j l c p hb
    obtain ⟨y, hy⟩ := b.stored.last_kept (i := j) (c := c) (by simp only [hb]; rfl)
    cases p with
    | load =>
      exact b.grows_of_same k _ (by simp [Crowd.move, hb, Point.step, Insert.step, Outcome.within, Next.within,
        Crowd.set, parking])
    | link seen =>
      by_cases hs : (x.list l).head = seen
      · have step : (Point.insert c (.link seen)).step t (x.parking l) =
            ⟨⟨x.entries.update c.last fun e => { e with next := seen }, { x.list l with head := some c.first }⟩,
              .done (.ok 0), [.action (.listCas true)]⟩ := by
          simp [Point.step, Insert.step, parking, hy, hs, Outcome.within, Next.within]
        have content : content? (x.parking l).entries c.first = some (y.address, y.deleter) := by
          simp [content?, hc, parking, hy]
        have here : (x.entries.update c.last fun e => { e with next := seen }).get? c.first =
            some ⟨y.address, y.deleter, seen⟩ := by
          simp [Heap.get?_update, hc, hy]
        simp only [Crowd.move, hb, step, Point.brings, content] at moved ⊢
        refine ⟨?_, ?_, rfl, rfl, rfl⟩
        · rw [hs] at moved
          simpa [Crowd.set] using
            Linked.cons (x := ⟨c.first, y.address, y.deleter⟩) here moved
        · simp [Crowd.set]
      · have step : (Point.insert c (.link seen)).step t (x.parking l) =
            ⟨⟨x.entries.update c.last fun e => { e with next := seen }, x.list l⟩,
              .goto (.insert c (.link (x.list l).head)), [.action (.listCas false)]⟩ := by
          simp [Point.step, Insert.step, parking, hy, hs, Outcome.within, Next.within]
        have quiet : (Point.insert c (.link seen)).brings (x.parking l)
            ((Point.insert c (.link seen)).step t (x.parking l)) = [] := by
          simp [Point.brings, step]
        rw [quiet]
        exact b.grows_of_same k _ (by simp [Crowd.move, hb, step, Crowd.set])
  | drain q => exact (push q rfl).elim

theorem grows_move (single : x.Single) (alone : ∀ j q, x.busy j = some (l, .drain q) → j = i)
    (other : mv.thread? ≠ some i) : x.Grows (x.move mv) l ys (x.sights i l mv) := by
  cases mv with
  | call j k c =>
    refine b.grows_of_same ‹_› _ ?_
    simp only [Crowd.move]
    split
    · exact list_set_parking x j k l _
    · rfl
  | step j t =>
    have hj : j ≠ i := fun h => other (congrArg some h)
    rcases hb : x.busy j with _ | ⟨k, r⟩
    · simp only [Crowd.sights, hb]
      exact b.grows_of_same ‹_› _ (by simp [Crowd.move, hb])
    by_cases hk : k = l
    · subst hk
      exact b.grows_step ‹_› single hj hb (fun q hq => hj (alone j q (hq ▸ hb))) t
    · simp only [Crowd.sights, hb, if_neg hj, if_neg hk]
      refine b.grows_of_same ‹_› _ ?_
      simp only [Crowd.move, hb]
      split <;> simp [Crowd.set, Ne.symm hk]
  | miss j =>
    refine b.grows_of_same ‹_› _ ?_
    rcases hb : x.busy j with _ | ⟨k, r⟩
    · simp [Crowd.move, hb]
    · simp only [Crowd.move, hb]
      cases hm : r.miss? (x.parking k) with
      | none => rfl
      | some out =>
        have same := Point.list_miss hm
        show (x.set j k out.1 _).list l = _
        by_cases hk : l = k
        · subst hk
          simp [Crowd.set, same, parking]
        · simp [Crowd.set, hk]
  | recycle k => exact b.grows_of_same ‹_› _ rfl

end Others

end Books

/-- Nobody comes to pass over the list `l` but by a call. -/
theorem alone_move (mv : Move) (alone : ∀ j q, x.busy j = some (l, .drain q) → j = i) (spares : mv.Spares i l t)
    (j : Nat) (q : Drain.Point) (hj : (x.move mv).busy j = some (l, .drain q)) : j = i := by
  by_cases mine : mv.thread? = some j
  · cases mv with
    | call k l' c =>
      obtain rfl : k = j := Option.some.inj mine
      cases hb : x.busy k with
      | none =>
        cases c with
        | push a d => simp [Crowd.move, hb, Crowd.set, Call.start] at hj
        | drain =>
          obtain ⟨rfl, -⟩ : l' = l ∧ _ := by simpa [Crowd.move, hb, Crowd.set, Call.start] using hj
          exact (spares rfl rfl).elim
      | some a =>
        simp only [Crowd.move, hb] at hj
        exact alone k q (hb.trans hj)
    | step k t' =>
      obtain rfl : k = j := Option.some.inj mine
      rcases hb : x.busy k with _ | ⟨l', r⟩
      · simp [Crowd.move, hb] at hj
      · simp only [Crowd.move, hb] at hj
        rcases ho : r.step t' (x.parking l') with ⟨m, r' | e | f, notes⟩ <;> simp only [ho] at hj
        · obtain ⟨rfl, rfl⟩ : l' = l ∧ r' = .drain q := by simpa [Crowd.set] using hj
          obtain ⟨q', rfl⟩ := Point.drain_of_step (p := r) (t := t') (m := x.parking l') (by rw [ho])
          exact alone k q' hb
        · simp [Crowd.set] at hj
        · exact alone k q (hb.trans (hb ▸ hj))
    | miss k =>
      obtain rfl : k = j := Option.some.inj mine
      rcases hb : x.busy k with _ | ⟨l', r⟩
      · simp [Crowd.move, hb] at hj
      · simp only [Crowd.move, hb] at hj
        cases hm : r.miss? (x.parking l') with
        | none => exact alone k q (hb.trans (by simpa [hm, hb] using hj))
        | some out =>
          obtain ⟨rfl, hq⟩ : l' = l ∧ out.2 = .drain q := by simpa [hm, Crowd.set] using hj
          obtain ⟨q', rfl⟩ := Point.drain_of_miss (hm.trans (by rw [← hq]))
          exact alone k q' hb
    | recycle k => cases mine
  · rw [busy_move mine] at hj
    exact alone j q hj

namespace Midway

variable (mid : x.Midway i l t xs n p log)

include mid

/-- The pass stays where it is while others move. -/
theorem others (spares : mv.Spares i l t) (other : mv.thread? ≠ some i) :
    (x.move mv).Midway i l t xs n p (log ++ x.sights i l mv) := by
  obtain ⟨K, T, E, b, single⟩ := mid.settled
  have grows := b.grows_move mid.linked single mid.alone other
  refine ⟨mid.settled.move mv, mid.nodup, (busy_move other).trans mid.busy, alone_move mv mid.alone spares,
    ?_, ?_, ?_, ?_, ?_⟩
  · rw [called_append, grows.called, List.append_nil]
    exact b.course_move mid.nodup mid.busy mid.course other
  · rw [stacked_append]
    exact grows.linked
  · have pending := mid.pending
    rw [grows.pending, entered_append, UInt64.ofNat_add, ← UInt64.add_assoc, ← pending]
    ac_rfl
  · rw [reported_append, mid.reported, grows.reported]
    rfl
  · rw [answers_append, mid.answers, grows.answers]
    rfl

theorem miss : ∃ q, (x.move (.miss i)).Midway i l t xs n q (log ++ x.sights i l (.miss i)) := by
  obtain ⟨K, T, E, b, single⟩ := mid.settled
  have settled := mid.settled.move (.miss i)
  have linked := b.linked_move mid.linked (.miss i)
  have alone := alone_move (t := t) (.miss i) mid.alone trivial
  have quiet : x.sights i l (.miss i) = [] := rfl
  rw [quiet, List.append_nil]
  cases hm : (Point.drain p).miss? (x.parking l) with
  | none =>
    have still : x.move (.miss i) = x := by simp only [Crowd.move, mid.busy, hm]
    exact ⟨p, still.symm ▸ mid⟩
  | some out =>
    obtain ⟨c, seen, deferred, reclaimed, rfl, rfl⟩ : ∃ c seen deferred reclaimed,
        p = .restore c (.link seen) deferred reclaimed ∧
          out = ((Insert.miss c (x.parking l) seen).1,
            .drain (.restore c (Insert.miss c (x.parking l) seen).2 deferred reclaimed)) := by
      obtain _ | _ | _ | _ | _ | ⟨c, _ | seen, deferred, reclaimed⟩ := p <;> cases hm
      exact ⟨c, seen, deferred, reclaimed, rfl, rfl⟩
    refine ⟨.restore c (.link (x.list l).head) deferred reclaimed, ?_⟩
    simp only [Crowd.move, mid.busy, hm] at settled linked alone ⊢
    refine ⟨settled, mid.nodup, by simp [Crowd.set, Insert.miss, parking], alone, mid.course.miss mid.nodup _,
      ?_, ?_, mid.reported, mid.answers⟩
    · simpa [Crowd.set, Insert.miss, parking] using linked
    · simpa [Crowd.set, Insert.miss, parking, Drain.Point.paid] using mid.pending

/-- The pass goes on by a step, or is over. -/
theorem step {t' : Table} (same : t'.shown = t.shown) :
    (∃ q, (x.move (.step i t')).Midway i l t xs n q (log ++ x.sights i l (.step i t')) ∧
      q.left t.capacity xs.length ((x.move (.step i t')).list l).head <
        p.left t.capacity xs.length (x.list l).head) ∨
    (x.move (.step i t')).Finished i l t xs n (log ++ x.sights i l (.step i t')) := by
  obtain ⟨K, T, E, b, single⟩ := mid.settled
  have settled := mid.settled.move (.step i t')
  have linked := b.linked_move mid.linked (.step i t')
  have alone := alone_move (t := t) (.step i t') mid.alone fun _ => same
  have apart : ∀ y ∈ stacked log, y.entry ∉ (Drain.kept t xs).map Deposit.entry := by
    intro y hy hmem
    obtain ⟨z, hz, he⟩ := List.mem_map.mp hmem
    have listed := b.stored.keeper_of_linked (s := l) mid.linked y hy
    obtain ⟨ys, k, hz⟩ | ⟨ys, k, nodup, hz⟩ := Course.mem_hand mid.course mid.nodup l hz
    · simp [← he, b.keeper_of_due mid.busy k z hz] at listed
    · simp [← he, b.keeper_of_kept mid.busy k nodup z hz] at listed
  have goes := mid.course.carries (α := Unit) (m := x.parking l) mid.nodup same mid.linked apart
  have hout : (Point.drain p).step t' (x.parking l) =
      (Drain.step (α := Unit) t' (x.parking l) p).within id .drain .done := rfl
  have sees : x.sights i l (.step i t') = Point.shows ((Point.drain p).step t' (x.parking l)) := by
    simp only [Crowd.sights, mid.busy, if_true]
  rw [sees]
  simp only [Crowd.move, mid.busy, hout] at settled linked alone ⊢
  rcases ho : Drain.step (α := Unit) t' (x.parking l) p with ⟨m, q | r | f, notes⟩ <;>
    simp only [Drain.Carries, ho] at goes
  · simp only [ho, Outcome.within, Next.within, id_eq] at settled linked alone ⊢
    have hlist (o : Option Point) : (x.set i l m o).list l = m.list := by simp [Crowd.set]
    refine .inl ⟨q, ⟨settled, mid.nodup, by simp [Crowd.set], alone, ?_, ?_, ?_, ?_, ?_⟩, ?_⟩
    · rw [called_append, called_shows]
      exact goes.course
    · rw [stacked_append, stacked_shows, hlist, goes.head]
      exact linked
    · rw [entered_append, entered_shows, hlist]
      exact goes.pending.trans mid.pending
    · rw [reported_append, reported_shows, mid.reported]
      exact goes.reports
    · rw [answers_append, mid.answers, answers_shows]
      rfl
    · rw [hlist]
      exact goes.left
  · simp only [Outcome.within, Next.within, id_eq]
    have hlist (o : Option Point) : (x.set i l m o).list l = m.list := by simp [Crowd.set]
    refine .inr ⟨by simp [Crowd.set], ?_, ?_, ?_, ?_, ?_⟩
    · rw [answers_append, mid.answers, answers_shows, goes.result]
      rfl
    · rw [called_append, called_shows]
      exact goes.called
    · rw [reported_append, reported_shows, mid.reported, ← Drain.length_kept t xs, Nat.add_sub_cancel]
      exact goes.reports
    · rw [stacked_append, stacked_shows, hlist]
      exact goes.list
    · rw [entered_append, entered_shows, hlist, Nat.add_zero, ← mid.pending]
      exact (UInt64.add_sub_cancel _ _).symm.trans (congrArg (· - _) goes.pending)

/-- Left to itself, the pass comes to its end. -/
theorem finishes : ∃ k ≤ p.left t.capacity xs.length (x.list l).head,
    (x.watch i l (List.replicate k (.step i t))).1.Finished i l t xs n
      (log ++ (x.watch i l (List.replicate k (.step i t))).2) := by
  induction hk : p.left t.capacity xs.length (x.list l).head using Nat.strong_induction_on
    generalizing x p log with
  | _ k ih =>
    have pos := p.left_pos t.capacity xs.length (x.list l).head
    obtain ⟨q, mid', less⟩ | finished := mid.step (rfl : t.shown = t.shown)
    · obtain ⟨j, hj, finished⟩ := ih _ (hk ▸ less) mid' rfl
      refine ⟨j + 1, by omega, ?_⟩
      rw [List.replicate_succ, watch_cons]
      rwa [List.append_assoc] at finished
    · refine ⟨1, by omega, ?_⟩
      rw [List.replicate_one, watch_cons]
      simpa using finished

/-- The pass goes on until it answers. -/
theorem watched (ms : List Move) (spares : ∀ mv ∈ ms, mv.Spares i l t)
    (waits : Parking.answers (log ++ (x.watch i l ms).2) = []) :
    ∃ q, (x.watch i l ms).1.Midway i l t xs n q (log ++ (x.watch i l ms).2) := by
  induction ms using List.reverseRecOn with
  | nil => exact ⟨p, by simpa using mid⟩
  | append_singleton ms mv ih =>
    rw [watch_snoc, ← List.append_assoc] at waits ⊢
    rw [answers_append, List.append_eq_nil_iff] at waits
    obtain ⟨q, mid'⟩ := ih (fun mv h => spares mv (by simp [h])) waits.1
    have fair := spares mv (by simp)
    by_cases other : mv.thread? = some i
    · cases mv with
      | call j k c =>
        obtain rfl : j = i := Option.some.inj other
        have still : (x.watch j l ms).1.move (.call j k c) = (x.watch j l ms).1 := by
          simp only [Crowd.move, mid'.busy]
        rw [still]
        exact ⟨q, by simpa [Crowd.sights] using mid'⟩
      | step j t' =>
        obtain rfl : j = i := Option.some.inj other
        obtain ⟨q', mid'', -⟩ | finished := mid'.step (fair rfl)
        · exact ⟨q', mid''⟩
        · have answered := finished.answers
          rw [answers_append, waits.1, waits.2] at answered
          cases answered
      | miss j =>
        obtain rfl : j = i := Option.some.inj other
        exact mid'.miss
      | recycle k => cases other
    · exact ⟨q, mid'.others fair other⟩

end Midway

/-- A thread that makes no move is idle. -/
theorem busy_run_of_absent {ms : List Move} {j : Nat} (absent : ∀ mv ∈ ms, mv.thread? ≠ some j) :
    (run ms).1.busy j = none := by
  induction ms using List.reverseRecOn with
  | nil => rfl
  | append_singleton ms mv ih =>
    rw [run, play_snoc]
    exact (busy_move (absent mv (by simp))).trans (ih fun mv h => absent mv (by simp [h]))

/-- A pass takes the whole list. -/
theorem midway_detach (s : x.Settled) (hi : x.busy i = some (l, .drain .detach))
    (alone : ∀ j q, x.busy j = some (l, .drain q) → j = i) (k : x.entries.Linked (x.list l).head xs none)
    (hne : xs ≠ []) (t t' : Table) :
    ∃ q, (x.move (.step i t')).Midway i l t xs (x.list l).pending q (x.sights i l (.step i t')) := by
  obtain ⟨y, rest, rfl⟩ := List.exists_cons_of_ne_nil hne
  have settled := s.move (.step i t')
  have hm : (x.list l).head = some y.entry := k.head.1
  have hout : (Point.drain .detach).step t' (x.parking l) =
      ⟨⟨x.entries, { x.list l with head := none }⟩, .goto (.drain (.snapshot y.entry {})),
        [.action (.listSwap true)]⟩ := by
    simp [Point.step, Drain.step, parking, hm, Outcome.within, Next.within]
  have sees : x.sights i l (.step i t') = Point.shows ((Point.drain .detach).step t' (x.parking l)) := by
    simp only [Crowd.sights, hi, if_true]
  have others (j : Nat) (q : Drain.Point) (hj : (x.move (.step i t')).busy j = some (l, .drain q)) : j = i := by
    by_contra hne
    rw [busy_move (by simpa [Move.thread?] using Ne.symm hne)] at hj
    exact hne (alone j q hj)
  rw [sees, hout]
  simp only [Crowd.move, hi, hout] at settled others ⊢
  have hlist (o : Option Point) (n : ParkedList) : (x.set i l ⟨x.entries, n⟩ o).list l = n := by simp [Crowd.set]
  refine ⟨.snapshot y.entry {}, settled, k.nodup, by simp [Crowd.set], others, ?_, ?_, ?_, rfl, rfl⟩
  · exact .scan (hm ▸ k) fun a => by simp
  · rw [hlist]
    exact .nil _ _
  · rw [hlist]
    rfl

end Crowd

section Pass

variable {α : Type} {t : Table} {m : Parking} {xs : List Deposit}

/-- A pass over a list of any deposits calls the deleters of those that no record publishes, in the order
of the list, and leaves the others on it in reversed order; it answers and reports how many it has
deleted, and the list's counter goes down by them. Another pass deletes nothing and turns the others
back, and a pass at a time when more is published deletes some of the same. It is no different for what
a pass has detached if other threads put entries on the list before it puts back what it keeps: these
stay below. -/
theorem pass_keeps_published (k : m.entries.Linked m.list.head xs none) (hne : xs ≠ []) :
    (∃ m' notes, Drain.run (α := α) t m = ⟨m', .done (.ok (Drain.freed t xs).length), notes⟩ ∧
      Drain.Passed t xs m m' notes ∧
      (∃ m'' more, Drain.run (α := α) t m' = ⟨m'', .done (.ok 0), more⟩ ∧ deletions more = [] ∧
        m''.entries.Linked m''.list.head (Drain.kept t xs) none ∧ m''.list.pending = m'.list.pending) ∧
      ∀ t', (∀ a, t.isProtected a → t'.isProtected a) →
        ∃ m'' r fewer, Drain.run (α := α) t' m = ⟨m'', .done (.ok r), fewer⟩ ∧
          (deletions fewer).Sublist (deletions notes)) ∧
    ∀ ms i l, (Crowd.run ms).1.parking l = m → (Crowd.run ms).1.busy i = some (l, .drain .detach) →
      (∀ j q, (Crowd.run ms).1.busy j = some (l, .drain q) → j = i) →
      ∀ t' ns x log, (∀ mv ∈ ns, mv.Spares i l t) →
        (Crowd.run ms).1.watch i l (.step i t' :: ns) = (x, log) → answers log = [] →
        (∀ t'', t''.shown = t.shown → answers (x.sights i l (.step i t'')) ≠ [] →
          (x.move (.step i t'')).Finished i l t xs m.list.pending (log ++ x.sights i l (.step i t''))) ∧
        ∃ n y more, x.watch i l (List.replicate n (.step i t)) = (y, more) ∧
          y.Finished i l t xs m.list.pending (log ++ more) := by
  refine ⟨?_, fun ms i l hm hi alone t' ns x log spares watched waits => ?_⟩
  · obtain ⟨m', notes, hrun, passed⟩ := Drain.run_passes (α := α) t k hne
    refine ⟨m', notes, hrun, passed, passed.again, fun t' more => ?_⟩
    obtain ⟨m'', fewer, hrun', passed'⟩ := Drain.run_passes (α := α) t' k hne
    refine ⟨m'', _, fewer, hrun', ?_⟩
    rw [passed.calls, passed'.calls]
    exact (Drain.freed_sublist more xs).map Deposit.call
  · subst hm
    obtain ⟨K, T, E, b, single, -⟩ := Crowd.settled_run ms
    obtain ⟨p, detached⟩ := Crowd.midway_detach ⟨K, T, E, b, single⟩ hi alone k hne t t'
    rw [Crowd.watch_cons] at watched
    obtain ⟨rfl, rfl⟩ := Prod.mk.inj watched
    obtain ⟨q, mid⟩ := detached.watched ns spares waits
    refine ⟨fun t'' same answered => ?_, ?_⟩
    · obtain ⟨q', mid', -⟩ | finished := mid.step same
      · have silent := mid'.answers
        rw [answers_append, List.append_eq_nil_iff] at silent
        exact (answered silent.2).elim
      · exact finished
    · obtain ⟨n, -, finished⟩ := mid.finishes
      exact ⟨n, _, _, rfl, finished⟩

/-- A registry with one record that publishes. -/
def lookout : Table := ⟨#[⟨1, .number 1⟩], 1⟩

/-- Thread 1 puts a number on the list `0`. -/
def putting (w : UInt64) : List Move :=
  [.call 1 0 (.push (.number w) .report), .step 1 lookout, .step 1 lookout, .step 1 lookout]

/-- Of two deposits the pass keeps the one that is published, whatever comes meanwhile. -/
theorem pass_keeps_one_of_two :
    let ms := putting 1 ++ putting 2 ++ [.call 2 0 .drain]
    let m := (Crowd.run ms).1.parking 0
    let xs : List Deposit := [⟨1, .number 2, .report⟩, ⟨0, .number 1, .report⟩]
    m.entries.Linked m.list.head xs none ∧
      (∃ m' notes, Drain.run (α := Unit) lookout m = ⟨m', .done (.ok 1), notes⟩ ∧
        m'.entries.Linked m'.list.head [⟨0, .number 1, .report⟩] none) ∧
      ∃ x log n y more, (Crowd.run ms).1.watch 2 0 (.step 2 lookout :: putting 3) = (x, log) ∧
        stacked log = [⟨2, .number 3, .report⟩] ∧
        x.watch 2 0 (List.replicate n (.step 2 lookout)) = (y, more) ∧
        y.Finished 2 0 lookout xs m.list.pending (log ++ more) := by
  intro ms m xs
  have linked : m.entries.Linked m.list.head xs none :=
    .cons (x := ⟨1, .number 2, .report⟩) (o := some 0) rfl
      (.cons (x := ⟨0, .number 1, .report⟩) (o := none) rfl (.nil _ _))
  obtain ⟨⟨m', notes, run, passed, -⟩, meanwhile⟩ :=
    pass_keeps_published (α := Unit) (t := lookout) linked (by decide)
  have freed : (Drain.freed lookout xs).length = 1 := by simp [Drain.freed, xs, lookout, Table.isProtected]
  have kept : Drain.kept lookout xs = [⟨0, .number 1, .report⟩] := by
    simp [Drain.kept, xs, lookout, Table.isProtected]
  have list := passed.list
  rw [freed] at run
  rw [kept] at list
  refine ⟨linked, ⟨m', notes, run, list⟩, ?_⟩
  have alone (j : Nat) (q : Drain.Point) (hj : (Crowd.run ms).1.busy j = some (0, .drain q)) : j = 2 := by
    by_contra hne
    by_cases h1 : j = 1
    · subst h1
      cases hj
    · rw [Crowd.busy_run_of_absent (by simp [ms, putting, Move.thread?, Ne.symm h1, Ne.symm hne])] at hj
      cases hj
  have spares : ∀ mv ∈ putting 3, mv.Spares 2 0 lookout := by
    simp [putting, Move.Spares]
  obtain ⟨-, n, y, more, watched, finished⟩ :=
    meanwhile ms 2 0 rfl rfl alone lookout (putting 3) _ _ spares rfl rfl
  exact ⟨_, _, n, y, more, rfl, rfl, watched, finished⟩

end Pass

end LockFreeStack.Parking
