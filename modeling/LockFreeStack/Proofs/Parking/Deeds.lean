import LockFreeStack.Proofs.Parking.Crowd

/-!
What the deeds of all threads tell about one entry and about one thread. An entry is unlinked at
most once after it has been parked, and whoever unlinks it calls its deleter next, and once.
-/

namespace LockFreeStack.Parking

/-- The story of the places that are given out as the entry `e`, up to one that is there with the
content `c` now. -/
inductive Life (e : Nat) : List Deed → Option (Address × Deleter) → Prop where
  | nil : Life e [] none
  | park {h : List Deed} (before : Life e h none) (x : Address × Deleter) :
    Life e (h ++ [.parked e x]) (some x)
  | unlink {h : List Deed} {x : Address × Deleter} (before : Life e h (some x)) (i : Nat) :
    Life e (h ++ [.unlinked e i x]) none

/-- The story of thread `i`, up to an entry that it has unlinked and whose deleter is yet to call. -/
inductive Work (i : Nat) : List Deed → Option (Address × Deleter) → Prop where
  | nil : Work i [] none
  | unlink {h : List Deed} (before : Work i h none) (e : Nat) (x : Address × Deleter) :
    Work i (h ++ [.unlinked e i x]) (some x)
  | call {h : List Deed} {x : Address × Deleter} (before : Work i h (some x)) :
    Work i (h ++ [.called i x]) none

/-- The address and the deleter of an entry. -/
def content? (h : Entries) (e : Nat) : Option (Address × Deleter) :=
  (h.get? e).map fun x => (x.address, x.deleter)

theorem content?_relink (h : Entries) (e : Nat) (next : Option Nat) (d : Nat) :
    content? (h.update e fun y => { y with next := next }) d = content? h d := by
  by_cases hd : d = e
  · simp only [content?, hd, Heap.get?_update, ↓reduceIte]
    cases h.get? e <;> rfl
  · simp [content?, hd, Heap.get?_update]

/-- The deleter that is called next. -/
def Point.due? : Point → Option (Address × Deleter)
  | drain (.delete a d _) => some (a, d)
  | _ => none

def dueOf (o : Option (Nat × Point)) : Option (Address × Deleter) := o.bind fun b => b.2.due?

/-- What thread `i` does in one step: the contents of the entries before and after it, the deeds, and
the deleter to call next before and after it. -/
inductive Acts (i : Nat) (C : Nat → Option (Address × Deleter)) :
    (Nat → Option (Address × Deleter)) → List Deed → Option (Address × Deleter) →
      Option (Address × Deleter) → Prop where
  | still : Acts i C C [] none none
  | park (e : Nat) (x : Address × Deleter) (h : C e = none) :
    Acts i C (Function.update C e (some x)) [.parked e x] none none
  | unlink (e : Nat) (x : Address × Deleter) (h : C e = some x) :
    Acts i C (Function.update C e none) [.unlinked e i x] none (some x)
  | call (x : Address × Deleter) : Acts i C C [.called i x] (some x) none

namespace Acts

variable {i e j : Nat} {C C' : Nat → Option (Address × Deleter)} {ds log : List Deed}
  {o o' : Option (Address × Deleter)}

theorem life (a : Acts i C C' ds o o') (h : Life e (log.filter (·.about? = some e)) (C e)) :
    Life e ((log ++ ds).filter (·.about? = some e)) (C' e) := by
  cases a with
  | still => simpa using h
  | call x => simpa [Deed.about?] using h
  | park d x hd =>
    by_cases he : e = d
    · subst he
      rw [hd] at h
      simpa [Deed.about?] using h.park x
    · simpa [Deed.about?, he, Ne.symm he] using h
  | unlink d x hd =>
    by_cases he : e = d
    · subst he
      rw [hd] at h
      simpa [Deed.about?] using h.unlink i
    · simpa [Deed.about?, he, Ne.symm he] using h

theorem work (a : Acts i C C' ds o o') (h : Work i (log.filter (·.thread? = some i)) o) :
    Work i ((log ++ ds).filter (·.thread? = some i)) o' := by
  cases a with
  | still => simpa using h
  | call x => simpa [Deed.thread?] using h.call
  | park d x => simpa [Deed.thread?] using h
  | unlink d x => simpa [Deed.thread?] using h.unlink d x

theorem others (a : Acts i C C' ds o o') (hj : j ≠ i) : ds.filter (·.thread? = some j) = [] := by
  cases a <;> simp [Deed.thread?, Ne.symm hj]

end Acts

namespace Point

variable {i l : Nat} {t : Table} {m m' : Parking} {p q : Point}

theorem acts_insert {c : Chain} {p : Insert.Point} {out : Outcome Parking Insert.Point Unit Unit}
    (h : Insert.step c m p = out) :
    content? out.memory.entries = content? m.entries ∧ out.notes.filterMap (Deed.ofNote? i) = [] := by
  subst h
  cases p with
  | load => exact ⟨rfl, rfl⟩
  | link seen =>
    simp only [Insert.step]
    repeat' split
    · exact ⟨rfl, rfl⟩
    · exact ⟨funext fun e => content?_relink _ _ _ e, rfl⟩
    · exact ⟨funext fun e => content?_relink _ _ _ e, rfl⟩

theorem acts_step (i : Nat) (t : Table) (m : Parking) (p : Point) :
    Acts i (content? m.entries) (content? (p.step t m).memory.entries) (p.deeds i t m) p.due?
      (match (p.step t m).next with
        | .goto q => q.due?
        | .done _ => none
        | .fault _ => p.due?) := by
  cases p with
  | park a d =>
    have hc : content? (m.entries.alloc ⟨a, d, none⟩) =
        Function.update (content? m.entries) m.entries.next (some (a, d)) := by
      funext e
      by_cases he : e = m.entries.next <;> simp [content?, Heap.get?_alloc, he]
    have acts := Acts.park (i := i) (C := content? m.entries) m.entries.next (a, d)
      (by simp [content?, Heap.get?_next])
    rw [← hc] at acts
    exact acts
  | insert c p =>
    rcases ho : (Insert.step c m p : Outcome Parking Insert.Point Unit Unit) with ⟨m', q | _ | f, notes⟩ <;>
      obtain ⟨hc, hn⟩ := acts_insert (i := i) ho <;>
      simp only [step, deeds, ho, Outcome.within, Next.within, id_eq, hc, hn, List.append_nil] <;>
      exact .still
  | drain p =>
    cases p with
    | detach =>
      simp only [step, deeds, Drain.step]
      split <;> exact .still
    | snapshot f met =>
      cases hr : t.records[met.next]? <;>
        simp only [step, deeds, Drain.step, Scan.collect, hr] <;> exact .still
    | walk w =>
      cases hat : w.at? with
      | none =>
        simp only [step, deeds, Drain.step, hat]
        exact .still
      | some e =>
        cases hx : m.entries.get? e with
        | none =>
          simp only [step, deeds, Drain.step, hat, hx]
          exact .still
        | some x =>
          by_cases hself : x.next = some e
          · simp only [step, deeds, Drain.step, hat, hx, if_pos hself]
            exact .still
          by_cases hmet : w.met.contains x.address
          · have hc : content? (Drain.keep m.entries w e x).1 = content? m.entries :=
              funext fun d => content?_relink _ _ _ d
            simp only [step, deeds, Drain.step, hat, hx, if_neg hself, if_pos hmet, Outcome.within,
              Next.within, id_eq, hc]
            exact .still
          · have hc : content? (m.entries.free e) = Function.update (content? m.entries) e none := by
              funext d
              by_cases hd : d = e <;> simp [content?, Heap.get?_free, hd]
            simp only [step, deeds, Drain.step, hat, hx, if_neg hself, if_neg hmet, Outcome.within,
              Next.within, id_eq, hc]
            exact .unlink e (x.address, x.deleter) (by simp [content?, hx])
    | delete a d w => exact .call (a, d)
    | settle w =>
      simp only [step, deeds, Drain.step]
      split <;> exact .still
    | restore c p deferred reclaimed =>
      rcases ho : (Insert.step c m p : Outcome Parking Insert.Point Unit Unit) with ⟨m', q | _ | f, notes⟩ <;>
        obtain ⟨hc, hn⟩ := acts_insert (i := i) ho <;>
        simp only [step, deeds, Drain.step, ho, Outcome.within, Next.within, id_eq, hc, hn, List.append_nil,
          List.filterMap_append] <;>
        exact .still

theorem content?_miss {m' : Parking} {q : Point} (h : p.miss? m = some (m', q)) :
    content? m'.entries = content? m.entries ∧ p.due? = none ∧ q.due? = none := by
  obtain _ | ⟨c, _ | seen⟩ | (_ | _ | _ | _ | _ | ⟨c, _ | seen, deferred, reclaimed⟩) := p <;> try cases h
  all_goals exact ⟨funext fun e => content?_relink _ _ _ e, rfl, rfl⟩

end Point

namespace Crowd

/-- The log tells of each entry what has become of it, and of each thread what it is to do next. -/
structure Told (x : Crowd) (log : List Deed) : Prop where
  lives : ∀ e, Life e (log.filter (·.about? = some e)) (content? x.entries e)
  works : ∀ i, Work i (log.filter (·.thread? = some i)) (dueOf (x.busy i))

variable {x : Crowd} {log : List Deed} {i l : Nat}

theorem Told.start : Crowd.start.Told [] where
  lives _ := .nil
  works _ := .nil

/-- A move without deeds. -/
theorem Told.quiet (t : x.Told log) {m : Parking} {o : Option Point}
    (content : content? m.entries = content? x.entries)
    (due : dueOf (o.map fun p => (l, p)) = dueOf (x.busy i)) : (x.set i l m o).Told log where
  lives e := by
    show Life e _ (content? m.entries e)
    rw [content]
    exact t.lives e
  works j := by
    by_cases hj : j = i
    · subst hj
      simpa [set, due] using t.works j
    · simpa [set, hj] using t.works j

theorem Told.acts (t : x.Told log) {m : Parking} {o : Option Point} {ds : List Deed}
    (a : Acts i (content? x.entries) (content? m.entries) ds (dueOf (x.busy i))
      (dueOf (o.map fun p => (l, p)))) : (x.set i l m o).Told (log ++ ds) where
  lives e := a.life (t.lives e)
  works j := by
    by_cases hj : j = i
    · subst hj
      simpa [set] using a.work (t.works j)
    · rw [List.filter_append, a.others hj, List.append_nil]
      simpa [set, hj] using t.works j

theorem Told.move (t : x.Told log) (safe : ∀ i t, ¬x.Fails i t) (mv : Move) :
    (x.move mv).Told (log ++ x.deeds mv) := by
  cases mv with
  | call i l c =>
    simp only [deeds, List.append_nil, Crowd.move]
    cases hi : x.busy i with
    | none => exact t.quiet rfl (by cases c <;> simp [hi, dueOf, Call.start, Point.due?, Drain.start])
    | some p => exact t
  | step i tab =>
    rcases hi : x.busy i with _ | ⟨l, p⟩
    · simpa [deeds, Crowd.move, hi] using t
    · have acts := p.acts_step i tab (x.parking l)
      rw [show p.due? = dueOf (x.busy i) by rw [hi]; rfl] at acts
      simp only [deeds, Crowd.move, hi]
      rcases ho : p.step tab (x.parking l) with ⟨m, q | r | f, notes⟩ <;> rw [ho] at acts
      · exact t.acts acts
      · exact t.acts acts
      · exact (safe i tab ⟨l, p, hi, .inl ⟨f, by rw [ho]⟩⟩).elim
  | miss i =>
    simp only [deeds, List.append_nil]
    rcases hi : x.busy i with _ | ⟨l, p⟩
    · simpa only [Crowd.move, hi] using t
    · simp only [Crowd.move, hi]
      cases hm : p.miss? (x.parking l) with
      | none => exact t
      | some out =>
        obtain ⟨content, before, after⟩ := Point.content?_miss hm
        have due : dueOf (some (l, out.2)) = dueOf (x.busy i) := by
          rw [hi]
          exact after.trans before.symm
        exact t.quiet content due
  | recycle k =>
    simp only [deeds, List.append_nil]
    exact ⟨t.lives, t.works⟩

end Crowd

end LockFreeStack.Parking
