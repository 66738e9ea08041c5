import LockFreeStack.Parking.Drain
import LockFreeStack.Proofs.Parking.Deposits

/-!
What a pass makes of the deposits that it has detached. It goes through them in the order of the list,
calls the deleters of those that no record publishes, and turns the others over on its way, so that
they go back in reversed order. Nothing of this depends on what happens to the list meanwhile.
-/

namespace LockFreeStack

open Parking

variable {α : Type}

/-- The deleters called, in order. -/
def deletions (notes : List (Note α)) : List (Address × Deleter) :=
  notes.filterMap fun | .deleted a d => some (a, d) | _ => none

/-- The numbers of entries deleted and put back that passes have reported. -/
def reports (notes : List (Note α)) : List (Nat × Nat) :=
  notes.filterMap fun | .log (.pass reclaimed deferred) => some (reclaimed, deferred) | _ => none

@[simp] theorem deletions_nil : deletions ([] : List (Note α)) = [] := rfl

@[simp] theorem deletions_append (notes more : List (Note α)) :
    deletions (notes ++ more) = deletions notes ++ deletions more := List.filterMap_append

@[simp] theorem reports_nil : reports ([] : List (Note α)) = [] := rfl

@[simp] theorem reports_append (notes more : List (Note α)) :
    reports (notes ++ more) = reports notes ++ reports more := List.filterMap_append

namespace Table

/-- What the records publish, one after the other. -/
def shown (t : Table) : List Address := t.records.toList.map Record.published

variable {t t' : Table} {a : Address} {k : Nat}

theorem isProtected_iff : t.isProtected a ↔ a ≠ .null ∧ a ∈ t.shown := by
  simp [isProtected, shown, ← Array.any_toList]

theorem isProtected_congr (same : t'.shown = t.shown) : t'.isProtected a = t.isProtected a :=
  Bool.eq_iff_iff.mpr (by rw [isProtected_iff, isProtected_iff, same])

theorem shown_get? (t : Table) (k : Nat) : t.shown[k]? = (t.records[k]?).map Record.published := by
  simp [shown]

end Table

/-- The addresses met are those published in the records before the next one. -/
def Scan.Collected.Holds (t : Table) (c : Collected) : Prop :=
  ∀ a, a ∈ c.met ↔ a ≠ .null ∧ a ∈ t.shown.take c.next

namespace Drain

/-- The deposits that a pass puts back, and those that it deletes, in the order of the list. -/
def kept (t : Table) (xs : List Deposit) : List Deposit := xs.filter fun x => t.isProtected x.address

def freed (t : Table) (xs : List Deposit) : List Deposit := xs.filter fun x => !t.isProtected x.address

/-- The deleters that a pass calls. -/
def calls (t : Table) (xs : List Deposit) : List (Address × Deleter) := (freed t xs).map Deposit.call

variable {t t' : Table} {xs ys done due : List Deposit} {h h' : Entries} {o : Option Nat} {x : Deposit}
  {m m' : Parking}

theorem length_kept (t : Table) (xs : List Deposit) : (kept t xs).length + (freed t xs).length = xs.length := by
  have := List.length_eq_length_filter_add (l := xs) fun x => t.isProtected x.address
  unfold kept freed
  omega

theorem kept_sublist (t : Table) (xs : List Deposit) : (kept t xs).Sublist xs := List.filter_sublist

theorem kept_kept (t : Table) (xs : List Deposit) : kept t (kept t xs) = kept t xs := by
  simp [kept]

theorem kept_reverse (t : Table) (xs : List Deposit) : kept t xs.reverse = (kept t xs).reverse :=
  List.filter_reverse

theorem freed_of_kept (t : Table) (xs : List Deposit) : freed t (kept t xs).reverse = [] := by
  simp [freed, kept]

/-- What is deleted while more is published is deleted while less is. -/
theorem freed_sublist (more : ∀ a, t.isProtected a → t'.isProtected a) (xs : List Deposit) :
    (freed t' xs).Sublist (freed t xs) := by
  refine List.monotone_filter_right xs fun x hx => ?_
  cases ht : t.isProtected x.address with
  | false => rfl
  | true => simp [more _ ht] at hx

theorem kept_nodup (nodup : (xs.map Deposit.entry).Nodup) (t : Table) :
    ((kept t xs).reverse.map Deposit.entry).Nodup := by
  rw [List.map_reverse, List.nodup_reverse]
  exact nodup.sublist ((kept_sublist t xs).map Deposit.entry)

/-- A pass has gone through `done` and has `due` yet to look at. -/
structure Sorted (t : Table) (h : Entries) (w : Walk) (done due : List Deposit) : Prop where
  due : h.Linked w.at? due none
  kept : h.Hung w.kept (Drain.kept t done).reverse
  deferred : w.deferred = (Drain.kept t done).length
  reclaimed : w.reclaimed = (freed t done).length
  met : ∀ a, a ∈ w.met ↔ t.isProtected a

/-- Where a pass over the deposits `xs` stands, with the deleters that it has called. -/
inductive Course (t : Table) (h : Entries) (xs : List Deposit) : Point → List (Address × Deleter) → Prop where
  | scan {first : Nat} {c : Scan.Collected} (due : h.Linked (some first) xs none) (met : c.Holds t) :
    Course t h xs (.snapshot first c) []
  | walk {w : Walk} {done due : List Deposit} (split : done ++ due = xs) (s : Sorted t h w done due) :
    Course t h xs (.walk w) (calls t done)
  | delete {w : Walk} {done due : List Deposit} {x : Deposit} (split : done ++ x :: due = xs)
    (gone : ¬t.isProtected x.address) (s : Sorted t h w (done ++ [x]) due) :
    Course t h xs (.delete x.address x.deleter w) (calls t done)
  | settle {w : Walk} (s : Sorted t h w xs []) : Course t h xs (.settle w) (calls t xs)
  | restore {c : Chain} (p : Insert.Point) (kept : h.Hung (some c) (Drain.kept t xs).reverse) :
    Course t h xs (.restore c p (Drain.kept t xs).length (freed t xs).length) (calls t xs)

/-- The steps that a pass over `n` entries has yet to take if nobody changes the list's head. -/
def Point.left (cap n : Nat) (head : Option Nat) : Point → Nat
  | detach => cap + 2 * n + 7
  | snapshot _ c => cap - c.next + 2 * n + 6
  | walk w => 2 * (n - w.deferred - w.reclaimed) + 5
  | delete _ _ w => 2 * (n - w.deferred - w.reclaimed) + 6
  | settle _ => 4
  | restore _ .load _ _ => 3
  | restore _ (.link seen) _ _ => if head = seen then 1 else 2

/-- What a pass has subtracted from the counter of its list. -/
def Point.paid : Point → Nat
  | restore _ _ _ reclaimed => reclaimed
  | _ => 0

/-- A pass goes on. -/
structure Onward (t : Table) (xs : List Deposit) (p : Point) (called : List (Address × Deleter))
    (m m' : Parking) (q : Point) (notes : List (Note α)) : Prop where
  course : Course t m'.entries xs q (called ++ deletions notes)
  reports : reports notes = []
  head : m'.list.head = m.list.head
  pending : m'.list.pending + .ofNat q.paid = m.list.pending + .ofNat p.paid
  left : q.left t.capacity xs.length m'.list.head < p.left t.capacity xs.length m.list.head

/-- A pass is over: those kept are in front of the deposits `ys`, which are on the list by then. -/
structure Over (t : Table) (xs ys : List Deposit) (p : Point) (called : List (Address × Deleter))
    (m m' : Parking) (r : Except Trouble Nat) (notes : List (Note α)) : Prop where
  result : r = .ok (freed t xs).length
  called : called ++ deletions notes = calls t xs
  reports : reports notes = [((freed t xs).length, (kept t xs).length)]
  list : m'.entries.Linked m'.list.head ((kept t xs).reverse ++ ys) none
  pending : m'.list.pending + .ofNat (freed t xs).length = m.list.pending + .ofNat p.paid

/-- What the outcome of a step means for the pass, with the deposits `ys` on the list. -/
def Carries (t : Table) (xs ys : List Deposit) (p : Point) (called : List (Address × Deleter)) (m : Parking)
    (out : Outcome Parking Point (Except Trouble Nat) α) : Prop :=
  match out.next with
  | .goto q => Onward t xs p called m out.memory q out.notes
  | .done r => Over t xs ys p called m out.memory r out.notes
  | .fault _ => False

namespace Sorted

variable {w : Walk}

theorem congr (s : Sorted t h w done due) (same : ∀ x ∈ due, h'.get? x.entry = h.get? x.entry)
    (same' : ∀ x ∈ (Drain.kept t done).reverse, h'.get? x.entry = h.get? x.entry) :
    Sorted t h' w done due :=
  ⟨s.due.congr same, s.kept.congr same', s.deferred, s.reclaimed, s.met⟩

theorem left_eq (s : Sorted t h w done due) :
    (done ++ due).length - w.deferred - w.reclaimed = due.length := by
  have := length_kept t done
  rw [s.deferred, s.reclaimed, List.length_append]
  omega

/-- The deposit to look at next is none of the others. -/
theorem apart (nodup : ((done ++ x :: due).map Deposit.entry).Nodup) :
    ∀ y ∈ done ++ due, y.entry ≠ x.entry := by
  rw [List.map_append, List.map_cons, List.nodup_middle, List.nodup_cons, ← List.map_append] at nodup
  exact fun y hy he => nodup.1 (he ▸ List.mem_map_of_mem hy)

variable (s : Sorted t h w done (x :: due)) (nodup : ((done ++ x :: due).map Deposit.entry).Nodup)
  {n : Option Nat}
  (live : h.get? x.entry = some ⟨x.address, x.deleter, n⟩) (rest : h.Linked n due none)

include s nodup live rest

/-- A published deposit goes in front of those kept. -/
theorem keep (published : t.isProtected x.address) :
    Sorted t (keep h w x.entry ⟨x.address, x.deleter, n⟩).1 (Drain.keep h w x.entry ⟨x.address, x.deleter, n⟩).2
      (done ++ [x]) due := by
  have apart := apart nodup
  have hk : Drain.kept t (done ++ [x]) = Drain.kept t done ++ [x] := by simp [Drain.kept, published]
  have hf : freed t (done ++ [x]) = freed t done := by simp [freed, published]
  have here : (h.update x.entry fun y => { y with next := w.kept.map Chain.first }).get? x.entry =
      some ⟨x.address, x.deleter, w.kept.map Chain.first⟩ := by
    simp [Heap.get?_update, live]
  have there {y : Deposit} (hy : y ∈ done ++ due) : (h.update x.entry
      fun y => { y with next := w.kept.map Chain.first }).get? y.entry = h.get? y.entry :=
    (Heap.get?_update ..).trans (if_neg (apart y hy))
  refine ⟨rest.congr fun y hy => there (List.mem_append_right _ hy), ?_, ?_, ?_, s.met⟩
  · rw [hk, List.reverse_append]
    refine (s.kept.congr fun y hy => there (List.mem_append_left _ ?_)).cons here
    exact (kept_sublist t done).subset (List.mem_reverse.mp hy)
  · simp [Drain.keep, hk, s.deferred]
  · rw [hf, ← s.reclaimed]
    rfl

omit live in
/-- A deposit that is not published is taken out. -/
theorem take (unpublished : ¬t.isProtected x.address) :
    Sorted t (h.free x.entry) { w with at? := n, reclaimed := w.reclaimed + 1 } (done ++ [x]) due := by
  have apart := apart nodup
  have hk : Drain.kept t (done ++ [x]) = Drain.kept t done := by simp [Drain.kept, unpublished]
  have hf : freed t (done ++ [x]) = freed t done ++ [x] := by simp [freed, unpublished]
  have there {y : Deposit} (hy : y ∈ done ++ due) : (h.free x.entry).get? y.entry = h.get? y.entry :=
    (Heap.get?_free ..).trans (if_neg (apart y hy))
  refine ⟨rest.congr fun y hy => there (List.mem_append_right _ hy), ?_, ?_, ?_, s.met⟩
  · rw [hk]
    refine s.kept.congr fun y hy => there (List.mem_append_left _ ?_)
    exact (kept_sublist t done).subset (List.mem_reverse.mp hy)
  · rw [hk]
    exact s.deferred
  · simp [hf, s.reclaimed]

end Sorted

section Step

variable {p : Point} {called : List (Address × Deleter)}

/-- The snapshot goes on by one record, or is complete. -/
theorem carries_scan (same : t'.shown = t.shown) {first : Nat} {c : Scan.Collected}
    (due : m.entries.Linked (some first) xs none)
    (met : c.Holds t) : Carries t xs ys (.snapshot first c) [] m (step (α := α) t' m (.snapshot first c)) := by
  have next : t.shown[c.next]? = (t'.records[c.next]?).map Record.published := by
    rw [← same, Table.shown_get?]
  simp only [Carries, step, Scan.collect]
  cases hr : t'.records[c.next]? with
  | some r =>
    rw [hr] at next
    obtain ⟨hlt, hget⟩ := List.getElem?_eq_some_iff.mp next
    refine ⟨.scan due fun a => ?_, rfl, rfl, rfl, ?_⟩
    · have hmem : a ∈ t.shown.take (c.next + 1) ↔ a ∈ t.shown.take c.next ∨ a = r.published := by
        rw [List.take_add_one, next]
        simp
      show a ∈ (if r.published = .null then c.met else r.published.insert c.met) ↔ _
      rw [hmem, and_or_left, ← met a]
      split
      · simp_all
      · simp only [Address.mem_insert]
        constructor
        · rintro (rfl | h)
          · exact .inr ⟨‹_›, rfl⟩
          · exact .inl h
        · rintro (h | ⟨-, rfl⟩)
          · exact .inr h
          · exact .inl rfl
    · have hlen : c.next < t.capacity := by simpa [Table.shown, Table.capacity] using hlt
      simp only [Point.left]
      omega
  | none =>
    rw [hr] at next
    have hlen : t.shown.length ≤ c.next := by simpa using next
    refine ⟨.walk (List.nil_append xs) ⟨due, rfl, rfl, rfl, fun a => ?_⟩, rfl, rfl, rfl, ?_⟩
    · rw [met a, List.take_of_length_le hlen, Table.isProtected_iff]
    · simp only [Point.left]
      omega

/-- The next deposit is put in front of those kept, or taken out to be deleted. -/
theorem carries_walk (nodup : (xs.map Deposit.entry).Nodup) {w : Walk} (split : done ++ due = xs)
    (s : Sorted t m.entries w done due) :
    Carries t xs ys (.walk w) (calls t done) m (step (α := α) t' m (.walk w)) := by
  have left := s.left_eq
  rw [split] at left
  cases due with
  | nil =>
    have hat : w.at? = none := Path.nil_iff.mp s.due.path
    obtain rfl : done = xs := by simpa using split
    simp only [Carries, step, hat]
    refine ⟨by simpa using .settle s, rfl, rfl, rfl, ?_⟩
    simp only [Point.left]
    omega
  | cons x due =>
    have split' : (done ++ [x]) ++ due = xs := by simpa using split
    rw [← split] at nodup
    obtain ⟨hat, n, hx, rest⟩ := s.due.head
    have hself : n ≠ some x.entry := by
      rintro rfl
      cases due with
      | nil => cases Path.nil_iff.mp rest.path
      | cons y due => exact Sorted.apart nodup y (by simp) (Option.some.inj rest.head.1).symm
    simp only [Carries, step, hat, hx, if_neg hself]
    cases hp : t.isProtected x.address with
    | true =>
      have sorted := s.keep nodup hx rest hp
      rw [if_pos (by simpa [s.met] using hp)]
      refine ⟨?_, rfl, rfl, rfl, ?_⟩
      · have called : calls t (done ++ [x]) = calls t done := by simp [calls, freed, hp]
        rw [deletions_nil, List.append_nil, ← called]
        exact .walk split' sorted
      · simp only [Point.left, keep, List.length_cons] at left ⊢
        omega
    | false =>
      have sorted := s.take nodup rest (by simp [hp])
      rw [if_neg (by simp [s.met, hp])]
      refine ⟨?_, rfl, rfl, rfl, ?_⟩
      · rw [deletions_nil, List.append_nil]
        exact .delete split (by simp [hp]) sorted
      · simp only [Point.left, List.length_cons] at left ⊢
        omega

/-- The deleter of the deposit taken out is called. -/
theorem carries_delete {w : Walk} (split : done ++ x :: due = xs) (gone : ¬t.isProtected x.address)
    (s : Sorted t m.entries w (done ++ [x]) due) :
    Carries t xs ys (.delete x.address x.deleter w) (calls t done) m
      (step (α := α) t' m (.delete x.address x.deleter w)) := by
  have split' : (done ++ [x]) ++ due = xs := by simpa using split
  have called : calls t (done ++ [x]) = calls t done ++ [x.call] := by simp [calls, freed, gone]
  refine ⟨called ▸ .walk split' s, rfl, rfl, rfl, ?_⟩
  simp only [Point.left]
  omega

/-- The deposits deleted are subtracted, and the pass is over if there are no others. -/
theorem carries_settle (there : m.entries.Linked m.list.head ys none) {w : Walk}
    (s : Sorted t m.entries w xs []) :
    Carries t xs ys (.settle w) (calls t xs) m (step (α := α) t' m (.settle w)) := by
  have pending : m.list.pending - .ofNat w.reclaimed + .ofNat (freed t xs).length = m.list.pending := by
    rw [s.reclaimed, UInt64.sub_add_cancel]
  have kept := s.kept
  simp only [Carries, step]
  cases hk : w.kept with
  | none =>
    have none : (Drain.kept t xs).reverse = [] := by rwa [hk] at kept
    refine ⟨by rw [s.reclaimed], by simp [deletions], ?_, ?_, ?_⟩
    · simp [LockFreeStack.reports, s.reclaimed, s.deferred]
    · rwa [none]
    · simpa [Point.paid] using pending
  | some c =>
    rw [hk] at kept
    refine ⟨?_, rfl, rfl, ?_, by simp [Point.left]⟩
    · rw [deletions_nil, List.append_nil, s.deferred, s.reclaimed]
      exact .restore _ kept
    · simp [Point.paid, s.reclaimed]

/-- The chain of those kept is linked to the head last seen, and becomes the front part of the list if
that is the head still. -/
theorem carries_restore (there : m.entries.Linked m.list.head ys none)
    (apart : ∀ y ∈ ys, y.entry ∉ (kept t xs).map Deposit.entry) (nodup : (xs.map Deposit.entry).Nodup)
    {c : Chain} (q : Insert.Point)
    (k : m.entries.Hung (some c) (kept t xs).reverse) :
    Carries t xs ys (.restore c q (kept t xs).length (freed t xs).length) (calls t xs) m
      (step (α := α) t' m (.restore c q (kept t xs).length (freed t xs).length)) := by
  cases q with
  | load =>
    simp only [Carries, step, Insert.step]
    refine ⟨?_, rfl, rfl, rfl, by simp [Point.left]⟩
    rw [deletions_nil, List.append_nil]
    exact .restore _ k
  | link seen =>
    obtain ⟨y, hy⟩ := k.live_last
    have linked := k.relink (kept_nodup nodup t) seen
    have mem : c.last ∈ (kept t xs).map Deposit.entry := by
      simpa only [List.map_reverse, List.mem_reverse] using k.last_mem
    have there' : Entries.Linked (m.entries.update c.last fun y => { y with next := seen }) m.list.head ys none :=
      there.congr fun y hy => (Heap.get?_update ..).trans (if_neg fun he => apart y hy (by rwa [he]))
    simp only [Carries, step, Insert.step, hy]
    by_cases hs : m.list.head = seen
    · simp only [if_pos hs]
      exact ⟨rfl, by simp [deletions], by simp [LockFreeStack.reports], linked.append (hs ▸ there'), rfl⟩
    · simp only [if_neg hs]
      refine ⟨?_, by simp [LockFreeStack.reports], rfl, rfl, by simp [Point.left, hs]⟩
      rw [show deletions [.action (.listCas false)] = ([] : List (Address × Deleter)) from rfl, List.append_nil]
      exact .restore _ ⟨⟨seen, linked⟩, k.2⟩

/-- What a step makes of a pass, whatever is on the list meanwhile. -/
theorem Course.carries (c : Course t m.entries xs p called) (nodup : (xs.map Deposit.entry).Nodup)
    (same : t'.shown = t.shown) (there : m.entries.Linked m.list.head ys none)
    (apart : ∀ y ∈ ys, y.entry ∉ (kept t xs).map Deposit.entry) :
    Carries t xs ys p called m (step (α := α) t' m p) := by
  cases c with
  | scan due met => exact carries_scan same due met
  | walk split s => exact carries_walk nodup split s
  | delete split gone s => exact carries_delete split gone s
  | settle s => exact carries_settle there s
  | restore q k => exact carries_restore there apart nodup q k

theorem Course.exists_delete {a : Address} {d : Deleter} {w : Walk}
    (c : Course t h xs (.delete a d w) called) : ∃ x ∈ xs, x.address = a ∧ x.deleter = d := by
  obtain _ | _ | @⟨_, done, due, x, split, gone, s⟩ := c
  exact ⟨x, by simp [← split], rfl, rfl⟩

/-- Deleters are called at one point only. -/
theorem deletions_step (t : Table) (m : Parking) (hp : ∀ a d w, p ≠ .delete a d w) :
    deletions (step (α := α) t m p).notes = [] := by
  cases p with
  | delete a d w => exact (hp a d w rfl).elim
  | restore c q deferred reclaimed =>
    cases q with
    | load => rfl
    | link seen =>
      simp only [step, Insert.step]
      cases m.entries.get? c.last with
      | none => rfl
      | some y => by_cases hs : m.list.head = seen <;> simp [hs, deletions]
  | _ =>
    simp only [step]
    repeat' split
    all_goals rfl

/-- An exchange that fails although it finds what it expects. -/
theorem Course.miss {c : Chain} {seen : Option Nat} {deferred reclaimed : Nat}
    (k : Course t m.entries xs (.restore c (.link seen) deferred reclaimed) called)
    (nodup : (xs.map Deposit.entry).Nodup) (q : Insert.Point) :
    Course t (m.entries.update c.last fun e => { e with next := seen }) xs
      (.restore c q deferred reclaimed) called := by
  obtain _ | _ | _ | _ | ⟨_, kept⟩ := k
  exact .restore q ⟨⟨seen, kept.relink (kept_nodup nodup t) seen⟩, kept.2⟩

theorem Point.left_pos (cap n : Nat) (head : Option Nat) (p : Point) : 0 < p.left cap n head := by
  unfold left
  split
  all_goals first | omega | (split <;> omega)

/-- What comes after a step belongs to the same pass. -/
theorem Over.cons {q : Point} {m'' : Parking} {r : Except Trouble Nat} {notes more : List (Note α)}
    (o : Onward t xs p called m m' q notes) (rest : Over t xs ys q (called ++ deletions notes) m' m'' r more) :
    Over t xs ys p called m m'' r (notes ++ more) where
  result := rest.result
  called := by rw [deletions_append, ← List.append_assoc, rest.called]
  reports := by rw [reports_append, o.reports, rest.reports, List.nil_append]
  list := rest.list
  pending := rest.pending.trans o.pending

/-- A pass that nobody disturbs comes to its end. -/
theorem Course.runs (c : Course t m.entries xs p called) (nodup : (xs.map Deposit.entry).Nodup)
    (detached : m.list.head = none) {fuel : Nat} (enough : p.left t.capacity xs.length m.list.head ≤ fuel) :
    ∃ m' r notes, runSteps (step (α := α) t) action fuel none m p = ⟨m', .done r, notes⟩ ∧
      Over t xs [] p called m m' r notes := by
  have free (q : Point) : spend (action q) none = some none := by
    cases action q <;> rfl
  induction fuel generalizing m p called with
  | zero => exact absurd enough (Nat.not_le.mpr (p.left_pos ..))
  | succ fuel ih =>
    have empty : m.entries.Linked m.list.head [] none := detached ▸ .nil _ _
    have goes := c.carries (α := α) nodup (rfl : t.shown = t.shown) empty (by simp)
    simp only [runSteps, free]
    rcases ho : step (α := α) t m p with ⟨m', q | r | f, notes⟩ <;> simp only [Carries, ho] at goes
    · have less := goes.left
      obtain ⟨m'', r, more, run, ended⟩ := ih goes.course (goes.head.trans detached) (by omega)
      exact ⟨m'', r, notes ++ more, by simp only [run], .cons goes ended⟩
    · exact ⟨m', r, notes, rfl, goes⟩

end Step

/-- A pass from its start to its end. -/
def run (t : Table) (m : Parking) : Outcome Parking Point (Except Trouble Nat) α :=
  runSteps (step t) action (patience m.entries t) none m start

/-- A pass has taken the parking `m`, with the deposits `xs` on the list, to `m'`. -/
structure Passed (t : Table) (xs : List Deposit) (m m' : Parking) (notes : List (Note α)) : Prop where
  calls : deletions notes = calls t xs
  reports : reports notes = [((freed t xs).length, xs.length - (freed t xs).length)]
  list : m'.entries.Linked m'.list.head (kept t xs).reverse none
  pending : m'.list.pending = m.list.pending - .ofNat (freed t xs).length

/-- The step that takes the whole list. -/
theorem detach_eq {first : Nat} (t : Table) (hm : m.list.head = some first) :
    step (α := α) t m .detach =
      ⟨⟨m.entries, { m.list with head := none }⟩, .goto (.snapshot first {}), [.action (.listSwap true)]⟩ := by
  simp only [step, hm]

theorem run_passes (t : Table) (k : m.entries.Linked m.list.head xs none) (hne : xs ≠ []) :
    ∃ m' notes, run (α := α) t m = ⟨m', .done (.ok (freed t xs).length), notes⟩ ∧
      Passed t xs m m' notes := by
  obtain ⟨x, rest, hxs⟩ := List.exists_cons_of_ne_nil hne
  have hm : m.list.head = some x.entry := (hxs ▸ k).head.1
  have len : xs.length ≤ m.entries.size := k.length_le_size
  have scan : Course t (Parking.mk m.entries { m.list with head := none }).entries xs (.snapshot x.entry {}) [] :=
    .scan (hm ▸ k) fun a => by simp
  have enough : (Point.snapshot x.entry {}).left t.capacity xs.length none ≤
      t.capacity + 2 * m.entries.size + 7 := by
    simp only [Point.left]
    omega
  obtain ⟨m', r, notes, hrun, ended⟩ := scan.runs (α := α) k.nodup rfl enough
  refine ⟨m', .action (.listSwap true) :: notes, ?_, ⟨ended.called, ?_, ?_, ?_⟩⟩
  · rw [run, patience, start, runSteps]
    simp only [action, spend, detach_eq t hm]
    rw [hrun, ended.result]
    rfl
  · rw [← length_kept t xs, Nat.add_sub_cancel]
    exact ended.reports
  · simpa using ended.list
  · have pending : m'.list.pending + .ofNat (freed t xs).length = m.list.pending + 0 := ended.pending
    rw [UInt64.add_zero] at pending
    rw [← pending, UInt64.add_sub_cancel]

/-- A pass over an empty list. -/
theorem run_nil (t : Table) (hm : m.list.head = none) :
    run (α := α) t m = ⟨m, .done (.ok 0), [.action (.listSwap false)]⟩ := by
  simp only [run, patience, runSteps, start, action, spend, step, hm]

/-- Another pass deletes nothing as long as the same addresses are published, and turns the deposits back. -/
theorem Passed.again {notes : List (Note α)} (pass : Passed t xs m m' notes) :
    ∃ m'' more, run (α := α) t m' = ⟨m'', .done (.ok 0), more⟩ ∧ deletions more = [] ∧
      m''.entries.Linked m''.list.head (kept t xs) none ∧ m''.list.pending = m'.list.pending := by
  have none : freed t (kept t xs).reverse = [] := freed_of_kept t xs
  by_cases hk : (kept t xs).reverse = []
  · have list := pass.list
    rw [hk] at list
    refine ⟨m', _, run_nil t (Path.nil_iff.mp list.path), rfl, ?_, rfl⟩
    rwa [List.reverse_eq_nil_iff.mp hk]
  · obtain ⟨m'', more, hrun, again⟩ := run_passes (α := α) t pass.list hk
    have list := again.list
    have pending := again.pending
    rw [kept_reverse, kept_kept, List.reverse_reverse] at list
    rw [none] at hrun pending
    exact ⟨m'', more, hrun, by simp [again.calls, Drain.calls, none], list, by simpa using pending⟩

end Drain

end LockFreeStack
