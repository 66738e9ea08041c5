import LockFreeStack.Proofs.Parking.Books
import LockFreeStack.Proofs.Parking.Deeds
import LockFreeStack.Proofs.Parking.Lists

/-!
A pass on its way through the entries that it has detached. Nobody else touches these entries, so
what becomes of them is decided by the snapshot of the pass alone.
-/

namespace LockFreeStack.Parking

open Entries

/-- How far a pass has come: it is gathering its snapshot, or has it and sorts the entries, or has
taken an entry out and calls the deleter next. -/
inductive Phase where
  | scanning (c : Scan.Collected)
  | sorting (met : List Address)
  | calling (x : Address × Deleter) (met : List Address)

namespace Point

/-- The entry that a step may change or give back. -/
def touches? : Point → Option Nat
  | insert c (.link _) | drain (.restore c (.link _) _ _) => some c.last
  | drain (.walk w) => w.at?
  | _ => none

def phase? : Point → Option Phase
  | drain (.snapshot _ c) => some (.scanning c)
  | drain (.walk w) => some (.sorting w.met)
  | drain (.delete a d w) => some (.calling (a, d) w.met)
  | _ => none

variable {t : Table} {m m' : Parking} {p q : Point} {e l : Nat}

theorem get?_insert {c : Chain} {p : Insert.Point} {out : Outcome Parking Insert.Point Unit Unit}
    (h : Insert.step c m p = out) (other : touches? (insert c p) ≠ some e) :
    out.memory.entries.get? e = m.entries.get? e := by
  subst h
  cases p with
  | load => rfl
  | link seen =>
    have hne : e ≠ c.last := fun he => other (he ▸ rfl)
    simp only [Insert.step]
    repeat' split
    · rfl
    · simp [Heap.get?_update, hne]
    · simp [Heap.get?_update, hne]

/-- A step leaves all other live entries alone. -/
theorem get?_step (live : (m.entries.get? e).isSome) (other : p.touches? ≠ some e) :
    (p.step t m).memory.entries.get? e = m.entries.get? e := by
  cases p with
  | park a d =>
    have hne : e ≠ m.entries.next := by
      rintro rfl
      simp [m.entries.get?_next] at live
    exact (Heap.get?_alloc ..).trans (if_neg hne)
  | insert c p => exact get?_insert rfl other
  | drain p =>
    cases p with
    | detach =>
      simp only [step, Drain.step]
      split <;> rfl
    | snapshot f c =>
      cases hr : t.records[c.next]? <;> simp only [step, Drain.step, Scan.collect, hr] <;> rfl
    | walk w =>
      cases hat : w.at? with
      | none =>
        simp only [step, Drain.step, hat]
        rfl
      | some d =>
        have hne : e ≠ d := fun he => other (by rw [he]; exact hat)
        simp only [step, Drain.step, hat]
        repeat' split
        · rfl
        · rfl
        · exact (Heap.get?_update ..).trans (if_neg hne)
        · exact (Heap.get?_free ..).trans (if_neg hne)
    | delete a d w => rfl
    | settle w =>
      simp only [step, Drain.step]
      split <;> rfl
    | restore c p deferred reclaimed =>
      have same := get?_insert (m := m) (c := c) (p := p) rfl (e := e) (by cases p <;> exact other)
      rcases ho : (Insert.step c m p : Outcome Parking Insert.Point Unit Unit) with ⟨m', q | _ | f, notes⟩ <;>
        simp only [step, Drain.step, ho, Outcome.within, id_eq] <;> rw [ho] at same <;> exact same

theorem phase?_miss (h : p.miss? m = some (m', q)) : p.phase? = none ∧ q.phase? = none := by
  obtain _ | ⟨c, _ | seen⟩ | (_ | _ | _ | _ | _ | ⟨c, _ | seen, deferred, reclaimed⟩) := p <;> try cases h
  all_goals exact ⟨rfl, rfl⟩

/-- Only a pass that has detached a list takes entries out and calls deleters. -/
theorem elsewhere (i : Nat) (hp : p.phase? = none) (hd : p ≠ drain .detach) :
    (∀ q, (p.step t m).next = .goto q → q.phase? = none) ∧ ∀ d ∈ p.deeds i t m, d.thread? = none := by
  cases p with
  | park a d =>
    refine ⟨fun q h => ?_, by simp [deeds, step, Deed.thread?]⟩
    obtain rfl := Next.goto.inj h
    rfl
  | insert c p =>
    rcases ho : (Insert.step c m p : Outcome Parking Insert.Point Unit Unit) with ⟨m', q | _ | f, notes⟩ <;>
      have hn := (acts_insert (i := i) ho).2 <;>
      simp only [step, deeds, ho, Outcome.within, Next.within, hn, List.append_nil] <;>
      refine ⟨fun q h => ?_, by simp⟩ <;> cases h
    rfl
  | drain p =>
    cases p with
    | detach => exact (hd rfl).elim
    | snapshot f c => cases hp
    | walk w => cases hp
    | delete a d w => cases hp
    | settle w =>
      simp only [step, deeds, Drain.step]
      cases w.kept <;> refine ⟨fun q h => ?_, by simp [Outcome.within, Next.within, Deed.ofNote?]⟩ <;> cases h
      rfl
    | restore c p deferred reclaimed =>
      rcases ho : (Insert.step c m p : Outcome Parking Insert.Point Unit Unit) with ⟨m', q | _ | f, notes⟩ <;>
        have hn := (acts_insert (i := i) ho).2 <;>
        simp only [step, deeds, Drain.step, ho, Outcome.within, Next.within, hn, List.append_nil,
          List.filterMap_append] <;>
        refine ⟨fun q h => ?_, by simp [Deed.ofNote?]⟩ <;> cases h
      rfl

theorem get?_miss (h : p.miss? m = some (m', q)) (other : p.touches? ≠ some e) :
    m'.entries.get? e = m.entries.get? e := by
  obtain _ | ⟨c, _ | seen⟩ | (_ | _ | _ | _ | _ | ⟨c, _ | seen, deferred, reclaimed⟩) := p <;> try cases h
  all_goals
    have hne : e ≠ c.last := fun he => other (he ▸ rfl)
    exact (Heap.get?_update ..).trans (if_neg hne)

end Point

def phaseOf (o : Option (Nat × Point)) : Option Phase := o.bind fun b => b.2.phase?

/-- A thread that is not sorting has no entries to look at. -/
theorem due_of_phaseOf {b : Option (Nat × Point)} (h : phaseOf b = none) : (handOf b).due = none := by
  obtain _ | ⟨l, _ | _ | (_ | _ | _ | _ | _ | _)⟩ := b <;> first | rfl | cases h

/-- The thread that makes a move. -/
def Move.thread? : Move → Option Nat
  | call i _ _ | step i _ | miss i => some i
  | recycle _ => none

/-- What a step of thread `i` does to its pass, where `es` are the entries to look at: the phase and
the entries before and after it, and the deeds. `C` are the contents of the entries. -/
inductive Sorts (i : Nat) (t : Table) (C : Nat → Option (Address × Deleter)) :
    Option Phase → List Nat → Option Phase → List Nat → List Deed → Prop
  | elsewhere {ds : List Deed} (h : ∀ d ∈ ds, d.thread? = none) : Sorts i t C none [] none [] ds
  | detach (es : List Nat) : Sorts i t C none [] (some (.scanning {})) es []
  | load {c : Scan.Collected} {r : Record} (h : t.records[c.next]? = some r) (es : List Nat) :
    Sorts i t C (some (.scanning c)) es (some (.scanning ⟨c.next + 1,
      if r.published = .null then c.met else r.published.insert c.met⟩)) es []
  | gather {c : Scan.Collected} (h : t.capacity ≤ c.next) (es : List Nat) :
    Sorts i t C (some (.scanning c)) es (some (.sorting c.met)) es []
  | keep {e : Nat} {x : Address × Deleter} {met : List Address} (h : C e = some x) (hm : x.1 ∈ met)
    (es : List Nat) : Sorts i t C (some (.sorting met)) (e :: es) (some (.sorting met)) es []
  | unlink {e : Nat} {x : Address × Deleter} {met : List Address} (h : C e = some x) (hm : x.1 ∉ met)
    (es : List Nat) :
    Sorts i t C (some (.sorting met)) (e :: es) (some (.calling x met)) es [.unlinked e i x]
  | call (x : Address × Deleter) (met : List Address) (es : List Nat) :
    Sorts i t C (some (.calling x met)) es (some (.sorting met)) es [.called i x]
  | leave (met : List Address) : Sorts i t C (some (.sorting met)) [] none [] []

namespace Crowd

variable {x : Crowd} {K : Nat → Keeper} {T : Finset Nat} {E : Nat → Finset Nat} {i j l e s : Nat}
  {es es' : List Nat} {o o' : Option Phase} {mv : Move}

/-- The phase of a thread's pass, and the entries that it has yet to look at. -/
structure Passes (x : Crowd) (i : Nat) (o : Option Phase) (es : List Nat) : Prop where
  phase : phaseOf (x.busy i) = o
  due : Path x.entries.follow (handOf (x.busy i)).due (es.map some) none

theorem Passes.unique (p : x.Passes i o es) (p' : x.Passes i o' es') : o = o' ∧ es = es' := by
  refine ⟨p.phase.symm.trans p'.phase, ?_⟩
  have h := (p.due.unique rfl p'.due rfl).1
  exact (List.map_injective_iff.mpr (Option.some_injective Nat)) h

theorem busy_move (other : mv.thread? ≠ some j) : (x.move mv).busy j = x.busy j := by
  have hset (i l : Nat) (m : Parking) (o : Option Point) (h : some i ≠ some j) :
      (x.set i l m o).busy j = x.busy j := Function.update_of_ne (fun hj => h (congrArg some hj.symm)) _ _
  cases mv with
  | call i l c =>
    simp only [Crowd.move]
    split
    · exact hset _ _ _ _ other
    · rfl
  | step i t =>
    simp only [Crowd.move]
    repeat' split
    · rfl
    · exact hset _ _ _ _ other
    · exact hset _ _ _ _ other
    · rfl
  | miss i =>
    simp only [Crowd.move]
    repeat' split
    · rfl
    · exact hset _ _ _ _ other
    · rfl
  | recycle k => rfl

namespace Books

theorem exists_passes (b : x.Books K T E) (i : Nat) : ∃ o es, x.Passes i o es := by
  obtain ⟨es, path, -, -⟩ := (b.stored.due i).exists_list
  exact ⟨_, es, rfl, path⟩

/-- An entry that a pass has to look at belongs to that pass. -/
theorem keeper_of_mem (b : x.Books K T E) (p : x.Passes i o es) (he : e ∈ es) :
    K e = .due (handOf (x.busy i)).stack i := by
  obtain ⟨es', path, -, mem⟩ := (b.stored.due i).exists_list
  have p' : x.Passes i (phaseOf (x.busy i)) es' := ⟨rfl, path⟩
  obtain ⟨-, rfl⟩ := p.unique p'
  exact (mem e).mp he

theorem unique_passes (b : x.Books K T E) (p : x.Passes i o es) (p' : x.Passes j o' es') (he : e ∈ es)
    (he' : e ∈ es') : i = j := by
  have h := (b.keeper_of_mem p he).symm.trans (b.keeper_of_mem p' he')
  injection h

/-- What a thread touches is in its hands. -/
theorem keeper_of_touches (b : x.Books K T E) {p : Point} (hi : x.busy i = some (l, p))
    (h : p.touches? = some e) : K e = .due l i ∨ K e = .kept l i := by
  have due := b.stored.due i
  have kept := b.stored.kept i
  simp only [hi, handOf] at due kept
  obtain _ | ⟨c, _ | seen⟩ | (_ | _ | w | _ | _ | ⟨c, _ | seen, _, _⟩) := p <;> try cases h
  · exact .inr kept.last
  · have hw : w.at? = some e := h
    simp only [Point.hand, Drain.Point.hand, hw] at due
    obtain ⟨-, -, mine, -⟩ := due.head
    exact .inl mine
  · exact .inr kept.last

/-- A live entry is touched by nobody but the thread that has it in its hands. -/
theorem get?_move_of_live (b : x.Books K T E) (live : K e ≠ .nobody)
    (other : ∀ s j, K e = .due s j ∨ K e = .kept s j → mv.thread? ≠ some j) :
    (x.move mv).entries.get? e = x.entries.get? e := by
  replace live : (x.entries.get? e).isSome := (b.stored.live e).mpr live
  have untouched {i l : Nat} {p : Point} (hi : x.busy i = some (l, p)) (hmv : mv.thread? = some i) :
      p.touches? ≠ some e := fun h => other l i (b.keeper_of_touches hi h) hmv
  cases mv with
  | call i l c =>
    simp only [Crowd.move]
    split <;> rfl
  | step i t =>
    rcases hi : x.busy i with _ | ⟨l, p⟩
    · simp only [Crowd.move, hi]
    · have same := p.get?_step (t := t) (m := x.parking l) live (untouched hi rfl)
      simp only [Crowd.move, hi]
      rcases ho : p.step t (x.parking l) with ⟨m, q | r | f, notes⟩ <;> rw [ho] at same
      · exact same
      · exact same
  | miss i =>
    rcases hi : x.busy i with _ | ⟨l, p⟩
    · simp only [Crowd.move, hi]
    · simp only [Crowd.move, hi]
      cases hm : p.miss? (x.parking l) with
      | none => rfl
      | some out => exact Point.get?_miss hm (untouched hi rfl)
  | recycle k => rfl

/-- An entry in the hands of one thread is not touched by the moves of another. -/
theorem get?_move (b : x.Books K T E) (he : K e = .due s j) (other : mv.thread? ≠ some j) :
    (x.move mv).entries.get? e = x.entries.get? e := by
  refine b.get?_move_of_live (by simp [he]) fun s' j' h => ?_
  obtain ⟨-, rfl⟩ : s = s' ∧ j = j' := by simpa [he] using h
  exact other

theorem passes_set {m : Parking} {q : Option Point} (phase : phaseOf (q.map fun p => (l, p)) = o)
    (due : Path m.entries.follow (handOf (q.map fun p => (l, p))).due (es.map some) none) :
    (x.set i l m q).Passes i o es := by
  have hb : (x.set i l m q).busy i = q.map fun p => (l, p) := Function.update_self _ _ _
  exact ⟨by rw [hb, phase], by rw [hb]; exact due⟩

theorem passes_idle (h : phaseOf (x.busy i) = none) : x.Passes i none [] :=
  ⟨h, by rw [due_of_phaseOf h]; exact .nil none⟩

/-- Only a step of its own moves a pass on. -/
theorem passes_still (b : x.Books K T E) (p : x.Passes j o es) (still : ∀ t, mv ≠ .step j t) :
    (x.move mv).Passes j o es := by
  by_cases other : mv.thread? = some j
  · -- A thread that takes a call or fails to exchange a head has nothing to look at.
    have idle (h : phaseOf (x.busy j) = none) (h' : phaseOf ((x.move mv).busy j) = none) :
        (x.move mv).Passes j o es := by
      obtain ⟨rfl, rfl⟩ := p.unique (passes_idle h)
      exact passes_idle h'
    cases mv with
    | call i l c =>
      obtain rfl : i = j := Option.some.inj other
      cases hi : x.busy i with
      | none => cases c <;> exact idle (by rw [hi]; rfl) (by simp [Crowd.move, hi, Crowd.set]; rfl)
      | some a => simpa only [Crowd.move, hi] using p
    | step i t =>
      obtain rfl : i = j := Option.some.inj other
      exact (still t rfl).elim
    | miss i =>
      obtain rfl : i = j := Option.some.inj other
      rcases hi : x.busy i with _ | ⟨l, q⟩
      · simpa only [Crowd.move, hi] using p
      cases hm : q.miss? (x.parking l) with
      | none => simpa only [Crowd.move, hi, hm] using p
      | some out =>
        obtain ⟨before, after⟩ := Point.phase?_miss hm
        exact idle (by rw [hi]; exact before) (by simp [Crowd.move, hi, hm, Crowd.set]; exact after)
    | recycle k => cases other
  · have same := busy_move (x := x) other
    refine ⟨by rw [same, p.phase], ?_⟩
    rw [same]
    refine path_congr p.due fun e he => b.get?_move (b.keeper_of_mem p ?_) other
    simpa using he

section Sorts

variable (b : x.Books K T E) (t : Table)

include b

theorem sorts_elsewhere {p : Point} (hi : x.busy i = some (l, p)) (hp : p.phase? = none)
    (hd : p ≠ .drain .detach) :
    (x.move (.step i t)).Passes i none [] ∧ ∀ d ∈ x.deeds (.step i t), d.thread? = none := by
  obtain ⟨next, deeds⟩ := p.elsewhere (t := t) (m := x.parking l) i hp hd
  refine ⟨?_, by simpa only [Crowd.deeds, hi] using deeds⟩
  have safe := b.not_fails i t
  simp only [Crowd.move, hi]
  rcases ho : p.step t (x.parking l) with ⟨m, q | r | f, notes⟩ <;> rw [ho] at next
  · have phase : phaseOf (some (l, q)) = none := next q rfl
    refine passes_set phase ?_
    rw [Option.map_some, due_of_phaseOf phase]
    exact .nil none
  · exact passes_set rfl (.nil none)
  · exact (safe ⟨l, p, hi, .inl ⟨f, by rw [ho]⟩⟩).elim

omit b in
/-- A pass takes the whole list. -/
theorem sorts_detach (hi : x.busy i = some (l, .drain .detach))
    (path : Path x.entries.follow (x.list l).head (es.map some) none) :
    ((x.move (.step i t)).Passes i (some (.scanning {})) es ∨
      es = [] ∧ (x.move (.step i t)).Passes i none []) ∧ x.deeds (.step i t) = [] := by
  have hlist : (x.parking l).list.head = (x.list l).head := rfl
  simp only [Crowd.move, Crowd.deeds, hi, Point.step, Point.deeds, Drain.step, hlist]
  cases hh : (x.list l).head with
  | none =>
    rw [hh] at path
    exact ⟨.inr ⟨eq_nil_of_path path, passes_set rfl (.nil none)⟩, rfl⟩
  | some e =>
    rw [hh] at path
    exact ⟨.inl (passes_set rfl path), rfl⟩

/-- A pass puts an entry aside if it has met the address, and takes it out otherwise. -/
theorem sorts_walk {w : Drain.Walk} (hi : x.busy i = some (l, .drain (.walk w)))
    (due : Path x.entries.follow w.at? (es.map some) none) :
    ∃ o' es', (x.move (.step i t)).Passes i o' es' ∧
      Sorts i t (content? x.entries) (some (.sorting w.met)) es o' es' (x.deeds (.step i t)) := by
  simp only [Crowd.move, Crowd.deeds, hi, Point.step, Point.deeds, Drain.step]
  cases es with
  | nil =>
    have hat : w.at? = none := Path.nil_iff.mp due
    simp only [hat]
    exact ⟨_, _, passes_set rfl (.nil none), .leave w.met⟩
  | cons e es =>
    have nodup : (e :: es).Nodup := .of_map some (due.nodup rfl)
    obtain ⟨hat, next, hnext, rest⟩ := Path.cons_iff.mp due
    obtain ⟨y, hy, -, hself⟩ := b.stored.next_due (i := i) (e := e) (by simp only [hi]; exact hat.symm)
    have hy' : (x.parking l).entries.get? e = some y := hy
    obtain rfl : y.next = next := by simpa [← hat, Entries.follow, hy] using hnext
    have content : content? x.entries e = some (y.address, y.deleter) := by simp [content?, hy]
    have rest' {h' : Entries} (same : ∀ d, d ≠ e → h'.get? d = x.entries.get? d) :
        Path h'.follow y.next (es.map some) none :=
      path_congr rest fun d hd => same d fun h => (List.nodup_cons.mp nodup).1 (by simpa [h] using hd)
    simp only [← hat, hy', if_neg hself]
    by_cases hmet : w.met.contains y.address
    · simp only [if_pos hmet]
      exact ⟨_, _, passes_set rfl (rest' fun d hd => (Heap.get?_update ..).trans (if_neg hd)),
        .keep content (by simpa using hmet) es⟩
    · simp only [if_neg hmet, Outcome.within, Next.within, ← hat]
      exact ⟨_, _, passes_set rfl (rest' fun d hd => (Heap.get?_free ..).trans (if_neg hd)),
        .unlink content (by simpa using hmet) es⟩

end Sorts

/-- What a step of a thread does to its pass. -/
theorem sorts (b : x.Books K T E) (t : Table) (p : x.Passes i o es) :
    ∃ o' es', (x.move (.step i t)).Passes i o' es' ∧
      Sorts i t (content? x.entries) o es o' es' (x.deeds (.step i t)) := by
  rcases hi : x.busy i with _ | ⟨l, q⟩
  · obtain ⟨rfl, rfl⟩ := p.unique (passes_idle (by rw [hi]; rfl))
    refine ⟨none, [], by simpa only [Crowd.move, hi] using p, ?_⟩
    simp only [Crowd.deeds, hi]
    exact .elsewhere (by simp)
  obtain ⟨rfl, due⟩ := p
  rw [hi] at due ⊢
  by_cases hp : q.phase? = none
  · have hph : phaseOf (some (l, q)) = none := hp
    rw [due_of_phaseOf hph] at due
    obtain rfl := eq_nil_of_path due
    rw [hph]
    by_cases hd : q = .drain .detach
    · subst hd
      obtain ⟨es', path, -, -⟩ := (b.stored.listed l).exists_list
      obtain ⟨passes | ⟨-, passes⟩, deeds⟩ := sorts_detach t hi path <;> rw [deeds]
      · exact ⟨_, _, passes, .detach es'⟩
      · exact ⟨_, _, passes, .elsewhere (by simp)⟩
    · obtain ⟨passes, deeds⟩ := b.sorts_elsewhere t hi hp hd
      exact ⟨_, _, passes, .elsewhere deeds⟩
  obtain _ | _ | (_ | ⟨f, c⟩ | w | ⟨a, d, w⟩ | _ | _) := q <;> try exact (hp rfl).elim
  · -- The snapshot goes on by one record, or is complete.
    simp only [Crowd.move, Crowd.deeds, hi, Point.step, Point.deeds, Drain.step, Scan.collect]
    cases hr : t.records[c.next]? with
    | some r => exact ⟨_, _, passes_set rfl due, .load hr es⟩
    | none => exact ⟨_, _, passes_set rfl due, .gather (by simpa [Table.capacity] using hr) es⟩
  · exact b.sorts_walk t hi due
  · simp only [Crowd.move, Crowd.deeds, hi]
    exact ⟨_, _, passes_set rfl due, .call (a, d) w.met es⟩

end Books

end Crowd

end LockFreeStack.Parking
