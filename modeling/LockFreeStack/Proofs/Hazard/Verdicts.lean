import LockFreeStack.Proofs.Hazard.Exclusive
import LockFreeStack.Proofs.Hazard.Seeking

/-!
How the acquisitions of claims end. Whatever the other threads do, an acquisition ends within as many
steps as one that nobody disturbs is given.
-/

namespace LockFreeStack

variable {α : Type} {m : Memory α} {ts : Tables} {me : Thread} {p q : Point α} {t n : Nat} {tb : Table}

namespace Claiming

/-- The steps that a claim can still take on a table of `n` records. -/
def Point.left (n : Nat) : Point → Nat
  | check k => n - k + 2 * n + 2
  | probe k => 2 * (n - k) + 1
  | seize k => 2 * (n - (k + 1)) + 2

theorem left_step {a b : Point} {token : Nat} (h : (step (α := α) tb token a).next = .goto b) :
    b.left tb.capacity < a.left tb.capacity := by
  have lt {k : Nat} {r : Record} (hr : tb.records[k]? = some r) : k < tb.capacity :=
    (Array.getElem?_eq_some_iff.mp hr).1
  cases a with
  | check k =>
    simp only [step] at h
    repeat' split at h
    all_goals cases h
    · simp only [Point.left]
      omega
    · have := lt ‹_›
      simp only [Point.left]
      omega
  | probe k =>
    simp only [step] at h
    repeat' split at h
    all_goals cases h
    all_goals
      have := lt ‹_›
      simp only [Point.left]
      omega
  | seize k =>
    simp only [step] at h
    repeat' split at h
    all_goals cases h
    all_goals
      simp only [Point.left]
      omega

/-- A claim ends with a record that nobody owns, or behind the last one. -/
theorem done_cases {a : Point} {token : Nat} {v : Except Trouble Nat}
    (h : (step (α := α) tb token a).next = .done v) (fresh : ∀ r ∈ tb.records, r.owner ≠ token)
    (h0 : token ≠ 0) :
    (∃ k r, a = .seize k ∧ v = .ok k ∧ tb.records[k]? = some r ∧ r.owner = 0) ∨
      ∃ k, a = .probe k ∧ v = .error (.failure (.exhausted tb.capacity)) ∧ tb.capacity ≤ k := by
  cases a with
  | check k =>
    simp only [step] at h
    cases hr : tb.records[k]? with
    | none => simp [hr] at h
    | some r =>
      simp only [hr, fresh r (Array.mem_of_getElem? hr), ↓reduceIte] at h
      cases h
  | probe k =>
    simp only [step] at h
    cases hr : tb.records[k]? with
    | none =>
      simp only [hr] at h
      exact .inr ⟨k, rfl, (Next.done.inj h).symm, Array.getElem?_eq_none_iff.mp hr⟩
    | some r =>
      simp only [hr, h0, ↓reduceIte] at h
      split at h <;> cases h
  | seize k =>
    simp only [step] at h
    cases hr : tb.records[k]? with
    | none => simp [hr] at h
    | some r =>
      simp only [hr] at h
      split at h <;> cases h
      rename_i ho
      exact .inl ⟨k, r, rfl, rfl, hr, ho⟩

end Claiming

namespace Acquire

variable {pin : Bool} {a b : Point}

/-- The steps that an acquisition can still take on a table of `n` records. An entry of the cache is
good for three of them. -/
def Point.left (n : Nat) (me : Thread) : Point → Nat
  | lookup => 3 * me.cache.length + 3 * n + 4
  | prune i => 3 * (me.cache.length - i) + 3 * n + 3
  | releasing i _ .clear => 3 * (me.cache.length - i) + 3 * n + 2
  | releasing i _ .disown => 3 * (me.cache.length - i) + 3 * n + 1
  | claiming q => q.left n

theorem Point.left_pos (n : Nat) (me : Thread) (a : Point) : 0 < a.left n me := by
  cases a with
  | releasing i place q => cases q <;> exact Nat.succ_pos _
  | claiming q => cases q <;> exact Nat.succ_pos _
  | _ => exact Nat.succ_pos _

theorem left_lookup_le (ht : ts[t]? = some tb) :
    Point.lookup.left tb.capacity me ≤ patience ts me t := by
  simp only [Point.left, patience, ht, Option.map_some, Option.getD_some, Claiming.patience]
  omega

theorem left_forget {i : Nat} {e : Cached} (he : me.cache[i]? = some e) :
    (Point.prune i).left n (me.forget i) + 3 = (Point.prune i).left n me := by
  have hi := (List.getElem?_eq_some_iff.mp he).1
  simp only [Point.left, Thread.forget, List.length_eraseIdx_of_lt hi]
  omega

theorem left_prune (i : Nat) :
    (prune ts me i).2.left n (prune ts me i).1 < (Point.prune i).left n me := by
  unfold prune
  cases he : me.cache[i]? with
  | none =>
    simp only [Point.left, Claiming.start, Claiming.Point.left]
    omega
  | some e =>
    have hi := (List.getElem?_eq_some_iff.mp he).1
    have forgotten := left_forget (n := n) he
    have next (me' : Thread) (h : me'.cache.length = me.cache.length) :
        (Point.prune (i + 1)).left n me' < (Point.prune i).left n me := by
      simp only [Point.left, h]
      omega
    have unpinned : ((me.setPinned e.claim false).letGo e.claim).1.cache.length = me.cache.length :=
      List.length_map _
    simp only
    cases me.place? e.claim with
    | none =>
      simp only
      omega
    | some place =>
      simp only
      by_cases hp : e.pinned
      · rw [if_pos hp]
        by_cases hh : ts.hasHandles place.table
        · rw [if_pos hh]
          exact next me rfl
        · rw [if_neg hh]
          by_cases hlast : ((me.setPinned e.claim false).letGo e.claim).2
          · rw [if_pos hlast]
            simp only [Point.left, unpinned]
            omega
          · rw [if_neg hlast]
            exact next _ unpinned
      · rw [if_neg hp]
        by_cases hl : me.isLive e.claim
        · rw [if_pos hl]
          exact next me rfl
        · rw [if_neg hl]
          simp only
          omega

theorem left_step (fitting : a.Fitting t me) (ht : ts[t]? = some tb)
    (h : (step (α := α) t pin (ts, me) a).next = .goto b) :
    b.left tb.capacity (step (α := α) t pin (ts, me) a).memory.2 < a.left tb.capacity me := by
  cases a with
  | lookup =>
    simp only [step] at h ⊢
    split at h <;> cases h
    simp only [Point.left]
    omega
  | prune i =>
    obtain rfl : (prune ts me i).2 = b := Next.goto.inj h
    exact left_prune i
  | releasing i place q =>
    obtain ⟨-, e, he, -⟩ := fitting
    have hi := (List.getElem?_eq_some_iff.mp he).1
    cases q with
    | clear =>
      cases h
      simp only [step, Release.step, Point.left]
      omega
    | disown =>
      cases h
      have forgotten := left_forget (n := tb.capacity) he
      simp only [step, Release.step, Point.left] at forgotten ⊢
      omega
  | claiming q =>
    simp only [step, ht] at h ⊢
    rcases hq : Claiming.step (α := α) tb me.token q with ⟨tb', q' | (e | k) | f, notes⟩ <;>
      rw [hq] at h <;> cases h
    exact Claiming.left_step (α := α) (by rw [hq])

end Acquire

/-- How the next step ends the acquisition of a claim on the table: with the index of its record, or in
trouble, which the call answers then. -/
def Point.verdict? (t : Nat) (m : Memory α) (me : Thread) : Point α → Option (Except Trouble Nat)
  | acquire u purpose a =>
    if u = t then
      match Acquire.step (α := α) u purpose.pins (m.tables, me) a with
      | ⟨(_, me'), .done (.ok c), _⟩ => (me'.place? c).map fun place => .ok place.index
      | ⟨_, .done (.error e), _⟩ => some (.error e)
      | _ => none
    else none
  | _ => none

theorem Operation.next_of_verdict? {e : Trouble} (h : p.verdict? t m me = some (.error e)) :
    (step (m, me) p).next = .done (.trouble e) := by
  cases p with
  | acquire u purpose a =>
    simp only [Point.verdict?, Option.ite_none_right_eq_some] at h
    obtain ⟨-, h⟩ := h
    obtain ⟨ts, me', b, notes, ha, -⟩ | ⟨ts, me', e, notes, ha, hs⟩ | ⟨ts, me', c, notes, ha, -⟩ :=
      acquire_cases m me u purpose a <;> rw [ha] at h
    · cases h
    · cases h
      rw [hs]
    · obtain ⟨place, -, h⟩ := Option.map_eq_some_iff.mp h
      cases h
  | _ => cases h

namespace Seated

variable {purpose : Purpose} {v : Except Trouble Nat}

theorem sound {a : Acquire.Point} (s : Seated ts me (some (.acquire t purpose a : Point α))) :
    Acquire.Sound t ts me a := ⟨s.counts, s.owns, s.fitting _ rfl⟩

/-- A thread without a claim on the table comes by one only where it seizes a record that nobody owns,
and is refused only behind the last record. -/
theorem verdict?_cases (s : Seated m.tables me (some p)) (h0 : me.token ≠ 0) (lacks : me.Lacks t)
    (ht : t < m.tables.size) (h : p.verdict? t m me = some v) :
    (∃ k r, v = .ok k ∧ p.claiming? = some (t, .seize k) ∧ m.tables.record? ⟨t, k⟩ = some r ∧ r.owner = 0) ∨
      ∃ k, v = .error (.failure (.exhausted (m.table t).capacity)) ∧ p.claiming? = some (t, .probe k) ∧
        (m.table t).capacity ≤ k := by
  cases p with
  | acquire u purpose a =>
    simp only [Point.verdict?, Option.ite_none_right_eq_some] at h
    obtain ⟨rfl, h⟩ := h
    cases a with
    | lookup =>
      cases hc : me.claimOn? u with
      | none => simp [Acquire.step, hc] at h
      | some c =>
        obtain ⟨live, place, hp, hu⟩ := Thread.claimOn?_eq_some hc
        exact absurd hu (lacks c place live hp)
    | prune i => simp [Acquire.step] at h
    | releasing i place q => cases q <;> simp [Acquire.step, Release.step] at h
    | claiming q =>
      obtain ⟨tb, hu⟩ : ∃ tb, m.tables[u]? = some tb := ⟨_, Array.getElem?_eq_getElem ht⟩
      have table : m.table u = tb := by rw [Memory.table, hu]; rfl
      have record (k : Nat) : m.tables.record? ⟨u, k⟩ = tb.records[k]? := by simp only [Tables.record?, hu]
      have fresh : ∀ r ∈ tb.records, r.owner ≠ me.token := fun r hr ho => by
        obtain ⟨k, hk⟩ := Array.mem_iff_getElem?.mp hr
        exact s.lacks_records ((record k).trans hk) ho rfl
      rcases hq : Claiming.step (α := α) tb me.token q with ⟨tb', q' | w | f, notes⟩
      · simp [Acquire.step, hu, hq] at h
      · obtain ⟨k, r, rfl, rfl, hr, ho⟩ | ⟨k, rfl, rfl, hk⟩ := Claiming.done_cases (α := α) (by rw [hq]) fresh h0
        · refine .inl ⟨k, r, ?_, rfl, (record k).trans hr, ho⟩
          have entered : (me.enter ⟨u, k⟩).place? me.claims.size = some ⟨u, k⟩ := by
            rw [Thread.place?_enter, if_pos rfl]
          simp only [Acquire.step, hu, hq] at h
          cases hpin : purpose.pins <;>
            simpa only [hpin, ↓reduceIte, Bool.false_eq_true, Thread.place?_pin, entered, Option.map_some,
              Option.some.injEq, eq_comm] using h
        · refine .inr ⟨k, ?_, rfl, table ▸ hk⟩
          simpa only [Acquire.step, hu, hq, Option.some.injEq, eq_comm, table] using h
      · simp [Acquire.step, hu, hq] at h
  | _ => cases h

/-- Whoever seizes a record that nobody owns has its claim. -/
theorem verdict?_seize {k : Nat} {r : Record} (h : p.claiming? = some (t, .seize k))
    (hr : m.tables.record? ⟨t, k⟩ = some r) (ho : r.owner = 0) : p.verdict? t m me = some (.ok k) := by
  obtain ⟨purpose, rfl⟩ := Point.exists_acquire h
  obtain ⟨tb, ht, hk⟩ : ∃ tb, m.tables[t]? = some tb ∧ tb.records[k]? = some r := by
    cases ht : m.tables[t]? with
    | none => simp [Tables.record?, ht] at hr
    | some tb => exact ⟨tb, rfl, by simpa [Tables.record?, ht] using hr⟩
  have entered : (me.enter ⟨t, k⟩).place? me.claims.size = some ⟨t, k⟩ := by
    rw [Thread.place?_enter, if_pos rfl]
  simp only [Point.verdict?, ↓reduceIte, Acquire.step, ht, Claiming.step, hk, ho]
  cases purpose.pins <;> simp [entered]

/-- An acquisition comes closer to its end with each step. -/
theorem verdict?_or_goto {a : Acquire.Point} (s : Seated m.tables me (some (.acquire t purpose a : Point α)))
    (h0 : me.token ≠ 0) (ht : m.tables[t]? = some tb) :
    (∃ v, (Point.acquire t purpose a : Point α).verdict? t m me = some v) ∨
      ∃ b, (Operation.step (m, me) (.acquire t purpose a)).next = .goto (.acquire t purpose b) ∧
        b.left tb.capacity (Operation.step (m, me) (.acquire t purpose a)).memory.2 < a.left tb.capacity me := by
  have keeps : Acquire.Keeps t m.tables me.token
      (Acquire.step (α := α) t purpose.pins (m.tables, me) a) := s.sound.step h0
  obtain ⟨ts, me', b, notes, ha, h⟩ | ⟨ts, me', e, notes, ha, h⟩ | ⟨ts, me', c, notes, ha, h, -⟩ :=
    Operation.acquire_cases m me t purpose a
  · have closer : b.left tb.capacity (Acquire.step (α := α) t purpose.pins (m.tables, me) a).memory.2 <
        a.left tb.capacity me := Acquire.left_step (s.fitting _ rfl) ht (by rw [ha])
    rw [ha] at closer
    exact .inr ⟨b, by rw [h], by rw [h]; exact closer⟩
  · exact .inl ⟨.error e, by simp only [Point.verdict?, ↓reduceIte, ha]⟩
  · rw [ha] at keeps
    obtain ⟨place, hp, -⟩ := keeps.next.place
    exact .inl ⟨.ok place.index, by simp only [Point.verdict?, ↓reduceIte, ha, hp, Option.map_some]⟩

end Seated

theorem Hazard.Call.Seeks.start? {c : Hazard.Call α} (h : c.Seeks m t) (ht : t < m.tables.size)
    (me : Thread) : ∃ purpose, c.start? m me = some (.acquire t purpose .lookup) := by
  cases c with
  | register u name =>
    obtain rfl : u = t := h
    exact ⟨.register name, if_pos ht⟩
  | lend u =>
    obtain rfl : u = t := h
    exact ⟨.lend, if_pos ht⟩
  | pop s =>
    obtain ⟨hs, rfl⟩ := h
    exact ⟨.pop s, if_pos hs⟩
  | _ => exact h.elim

end LockFreeStack
