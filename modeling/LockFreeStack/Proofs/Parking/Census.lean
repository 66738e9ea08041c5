import LockFreeStack.Proofs.Parking.Books
import LockFreeStack.Proofs.Parking.Deeds
import LockFreeStack.Proofs.Parking.Lists
import Mathlib.Algebra.Order.BigOperators.Group.Finset

/-!
Where all entries are: on a list, or in the hands of one thread. A list's counter is the number of
those that belong to it, so it is exact whenever nothing is in flight, and emptying a list then
calls the deleters of all entries that are left.
-/

namespace LockFreeStack

namespace Parking

open Entries

/-- Emptying a list from its first entry on calls the deleters in the order of the entries. -/
theorem takeFrom_eq {fuel : Nat} {h : Entries} {o : Option Nat} {es : List Nat}
    (p : Path h.follow o (es.map some) none) (nodup : es.Nodup) (len : es.length ≤ fuel) :
    (takeFrom fuel h o).2.map some = es.map (content? h) ∧
      ∀ d, (takeFrom fuel h o).1.get? d = if d ∈ es then none else h.get? d := by
  induction es generalizing fuel h o with
  | nil =>
    obtain rfl := Path.nil_iff.mp p
    cases fuel <;> simp [takeFrom]
  | cons e es ih =>
    obtain _ | @⟨-, b, -, -, hb, rest⟩ := p
    obtain ⟨x, hx, rfl⟩ := Option.map_eq_some_iff.mp hb
    obtain ⟨hne, nodup⟩ := List.nodup_cons.mp nodup
    obtain _ | fuel := fuel
    · simp at len
    have same {d : Nat} (hd : d ≠ e) : Heap.get? (h.free e) d = h.get? d := by
      rw [Heap.get?_free, if_neg hd]
    have rest' : Path (Entries.follow (h.free e)) x.next (es.map some) none :=
      path_congr rest fun d hd => same fun he => hne (by simpa [he] using hd)
    obtain ⟨calls, gone⟩ := ih rest' nodup (by simpa using len)
    simp only [takeFrom, hx]
    refine ⟨?_, fun d => ?_⟩
    · rw [List.map_cons, List.map_cons, calls]
      congr 1
      · simp [content?, hx]
      · refine List.map_congr_left fun d hd => ?_
        simp only [content?]
        rw [same fun he => hne (he ▸ hd)]
    · rw [gone]
      by_cases hd : d = e
      · simp [hd, Heap.get?_free, hne]
      · simp [hd, Heap.get?_free]

/-- The number of places ever given out is fuel enough. -/
theorem takeAll_calls {m : Parking} {es : List Nat}
    (p : Path m.entries.follow m.list.head (es.map some) none) (nodup : es.Nodup) :
    m.takeAll.2.map some = es.map (content? m.entries) ∧
      ∀ d, m.takeAll.1.entries.get? d = if d ∈ es then none else m.entries.get? d := by
  exact takeFrom_eq p nodup (length_le_size p)

theorem takeAll_eq {m : Parking} {es : List Nat} (p : Path m.entries.follow m.list.head (es.map some) none)
    (nodup : es.Nodup) (counted : m.list.pending = .ofNat es.length) :
    m.takeAll.1.list = ⟨none, 0⟩ ∧ m.takeAll.2.map some = es.map (content? m.entries) ∧
      ∀ d, m.takeAll.1.entries.get? d = if d ∈ es then none else m.entries.get? d := by
  obtain ⟨calls, gone⟩ := takeAll_calls p nodup
  refine ⟨?_, calls, gone⟩
  have hlen : (takeFrom m.entries.size m.entries m.list.head).2.length = es.length := by
    have hlen := congrArg List.length calls
    rwa [List.length_map, List.length_map] at hlen
  simp [takeAll, hlen, counted]

namespace Point

theorem stack_hand (l : Nat) (p : Point) : (p.hand l).stack = l := by
  obtain _ | _ | (_ | _ | _ | _ | _ | _) := p <;> rfl

variable {t : Table} {m m' : Parking} {p : Point} {c : Chain} {q : Insert.Point}

theorem insert_of_step (h : (p.step t m).next = .goto (.insert c q)) :
    c.first = c.last ∨ ∃ p', p = .insert c p' := by
  cases p with
  | park a d =>
    simp only [step, Next.goto.injEq, Point.insert.injEq] at h
    exact .inl (by rw [← h.1])
  | insert c' p' =>
    rcases ho : (Insert.step c' m p' : Outcome Parking Insert.Point Unit Unit) with ⟨m', q' | _ | f, notes⟩ <;>
      simp [step, ho, Outcome.within, Next.within] at h
    obtain ⟨rfl, -⟩ := h
    exact .inr ⟨p', rfl⟩
  | drain p =>
    rcases ho : (Drain.step t m p : Outcome Parking Drain.Point (Except Trouble Nat) Unit) with
      ⟨m', q' | _ | f, notes⟩ <;> simp [step, ho, Outcome.within, Next.within] at h

theorem insert_of_miss (h : p.miss? m = some (m', .insert c q)) : ∃ p', p = .insert c p' := by
  obtain _ | ⟨c, _ | seen⟩ | (_ | _ | _ | _ | _ | ⟨c, _ | seen, deferred, reclaimed⟩) := p <;>
    simp [miss?] at h
  obtain ⟨-, rfl, -⟩ := h
  exact ⟨_, rfl⟩

end Point

/-- What a thread with `n` entries in its hands adds to the counter of the list `l`: those entries, and
the ones that it has unlinked and not subtracted yet. -/
def owedOn (l n : Nat) : Option (Nat × Point) → Nat
  | none => 0
  | some (k, p) => if k = l then n + p.freed else 0

namespace Crowd

/-- The entries linked on each list and those in the hands of each thread. Threads out of `T` are
idle. -/
structure Census (x : Crowd) (linked held : Nat → List Nat) (T : Finset Nat) : Prop where
  lists : ∀ l, Path x.entries.follow (x.list l).head ((linked l).map some) none
  hands : ∀ i, x.entries.Fills (handOf (x.busy i)) (held i)
  pushes : ∀ i l c p, x.busy i = some (l, .insert c p) → held i = [c.first]
  nodup : ∀ p, (Sum.elim linked held p).Nodup
  place : ∀ e, (x.entries.get? e).isSome → ∃! p, e ∈ Sum.elim linked held p
  idle : ∀ i ∉ T, x.busy i = none
  counter : ∀ l, (x.list l).pending =
    .ofNat ((linked l).length + ∑ i ∈ T, owedOn l (held i).length (x.busy i))

section Census

variable {x : Crowd} {K : Nat → Keeper} {T : Finset Nat} {E : Nat → Finset Nat} {i l : Nat}
  {linked due kept : Nat → List Nat}

/-- A push has one entry to insert. -/
def Single (x : Crowd) : Prop := ∀ i l c p, x.busy i = some (l, .insert c p) → c.first = c.last

theorem Single.set (s : x.Single) {m : Parking} {o : Option Point}
    (ho : ∀ c p, o = some (.insert c p) → c.first = c.last) : (x.set i l m o).Single := by
  intro j k c p hj
  by_cases hji : j = i
  · subst hji
    cases o with
    | none => simp [Crowd.set] at hj
    | some q =>
      obtain ⟨-, rfl⟩ : l = k ∧ q = .insert c p := by simpa [Crowd.set] using hj
      exact ho c p rfl
  · exact s j k c p (by simpa [Crowd.set, hji] using hj)

theorem Single.move (s : x.Single) (mv : Move) : (x.move mv).Single := by
  cases mv with
  | call i l c =>
    simp only [Crowd.move]
    split
    · exact s.set fun c' p h => by cases c <;> cases h
    · exact s
  | step i t =>
    rcases hi : x.busy i with _ | ⟨l, p⟩
    · simpa only [Crowd.move, hi] using s
    · simp only [Crowd.move, hi]
      rcases ho : p.step t (x.parking l) with ⟨m, q | r | f, notes⟩
      · refine s.set fun c q' h => ?_
        obtain h | ⟨p', rfl⟩ := Point.insert_of_step (p := p) (t := t) (m := x.parking l)
          (by rw [ho, Option.some.inj h])
        · exact h
        · exact s i l c p' hi
      · exact s.set fun c q' h => by cases h
      · exact s
  | miss i =>
    rcases hi : x.busy i with _ | ⟨l, p⟩
    · simpa only [Crowd.move, hi] using s
    · simp only [Crowd.move, hi]
      cases hm : p.miss? (x.parking l) with
      | none => exact s
      | some out =>
        refine s.set fun c q h => ?_
        obtain ⟨p', rfl⟩ := Point.insert_of_miss (hm.trans (by rw [← Option.some.inj h]))
        exact s i l c p' hi
  | recycle k => exact s

/-- Nobody has anything of a list on which nothing is in flight. -/
theorem owed_eq_zero {held : Nat → List Nat} (rest : ∀ i p, x.busy i ≠ some (l, p)) :
    ∑ i ∈ T, owedOn l (held i).length (x.busy i) = 0 := by
  refine Finset.sum_eq_zero fun i _ => ?_
  rcases hi : x.busy i with _ | ⟨k, p⟩
  · rfl
  · have hk : k ≠ l := by
      rintro rfl
      exact rest i p hi
    simp [owedOn, hk]

namespace Books

theorem mem_hand (b : x.Books K T E) {e s : Nat} (h : K e = .due s i ∨ K e = .kept s i) :
    ∃ p, x.busy i = some (s, p) ∧ i ∈ T := by
  have hs := b.stored.stack e s i h
  rcases hi : x.busy i with _ | ⟨k, p⟩
  · have none := b.stored.keeper_ne (i := i) (by simp [hi, handOf]) (by simp [hi, handOf]) e s
    exact (h.elim none.1 none.2).elim
  · have hk : s = k := by
      rw [hs, hi]
      exact p.stack_hand k
    refine ⟨p, by rw [hk], ?_⟩
    by_contra hT
    simp [b.idle i hT] at hi

/-- The entries of the list `l` in the hands of a thread. -/
def share (x : Crowd) (held : Nat → List Nat) (l i : Nat) : Finset Nat :=
  if (handOf (x.busy i)).stack = l then (held i).toFinset else ∅

section Share

variable {linked held : Nat → List Nat} (b : x.Books K T E)
  (ls : Stored.Lists x.entries (fun l => (x.list l).head) (fun i => handOf (x.busy i)) K linked held)

include b ls

theorem mem_share {e : Nat} : e ∈ share x held l i ↔ K e = .due l i ∨ K e = .kept l i := by
  unfold share
  constructor
  · intro h
    split at h
    · rename_i hs
      obtain ⟨s, he⟩ := ls.mem_held.mp (List.mem_toFinset.mp h)
      obtain rfl := (b.stored.stack e s i he).trans hs
      exact he
    · simp at h
  · intro h
    rw [if_pos (b.stored.stack e l i h).symm, List.mem_toFinset]
    exact ls.mem_held.mpr ⟨l, h⟩

/-- The entries that belong to a list are those linked, and those in the hands of threads that are at
work on the list. -/
theorem entries_eq (l : Nat) : E l = (linked l).toFinset ∪ T.biUnion (share x held l) := by
  ext e
  rw [b.members, Finset.mem_union, List.mem_toFinset, ls.mem_linked, Finset.mem_biUnion]
  constructor
  · intro h
    cases hk : K e with
    | nobody => simp [hk, Keeper.stack?] at h
    | listed k => exact .inl (by simpa [hk, Keeper.stack?] using h)
    | due k i | kept k i =>
      obtain rfl : k = l := by simpa [hk, Keeper.stack?] using h
      obtain ⟨-, -, hi⟩ := b.mem_hand (i := i) (s := k) (e := e) (by simp [hk])
      exact .inr ⟨i, hi, (b.mem_share ls).mpr (by simp [hk])⟩
  · rintro (h | ⟨i, -, h⟩)
    · simp [h, Keeper.stack?]
    · obtain h | h := (b.mem_share ls).mp h <;> simp [h, Keeper.stack?]

theorem card_eq (l : Nat) :
    (E l).card + ∑ i ∈ T, freedOn l (x.busy i) =
      (linked l).length + ∑ i ∈ T, owedOn l (held i).length (x.busy i) := by
  have mem {l i e : Nat} := b.mem_share (l := l) (i := i) (e := e) ls
  have apart : Disjoint (linked l).toFinset (T.biUnion (share x held l)) := by
    rw [Finset.disjoint_left]
    intro e he hb
    rw [List.mem_toFinset, ls.mem_linked] at he
    obtain ⟨i, -, hi⟩ := Finset.mem_biUnion.mp hb
    obtain h | h := mem.mp hi <;> simp [he] at h
  have each : ∀ i ∈ T, ∀ j ∈ T, i ≠ j → Disjoint (share x held l i) (share x held l j) := by
    intro i _ j _ hij
    rw [Finset.disjoint_left]
    intro e hi hj
    obtain h | h := mem.mp hi <;> obtain h' | h' := mem.mp hj <;> rw [h] at h' <;> cases h' <;>
      exact hij rfl
  have owed (i : Nat) : owedOn l (held i).length (x.busy i) =
      (share x held l i).card + freedOn l (x.busy i) := by
    unfold share
    rcases hi : x.busy i with _ | ⟨k, p⟩
    · have empty : held i = [] := List.eq_nil_iff_forall_not_mem.mpr fun e he => by
        obtain ⟨s, h⟩ := ls.mem_held.mp he
        obtain ⟨p, hp, -⟩ := b.mem_hand h
        simp [hi] at hp
      simp [owedOn, freedOn, empty]
    · simp only [handOf, p.stack_hand, owedOn, freedOn]
      by_cases hk : k = l
      · simp only [if_pos hk, List.toFinset_card_of_nodup (ls.held_nodup i)]
      · simp only [if_neg hk, Finset.card_empty]
  rw [b.entries_eq ls l, Finset.card_union_of_disjoint apart, Finset.card_biUnion each,
    List.toFinset_card_of_nodup (ls.linked_nodup l), Finset.sum_congr rfl fun i _ => owed i,
    Finset.sum_add_distrib]
  omega

theorem pending_of_rest (rest : ∀ i p, x.busy i ≠ some (l, p)) :
    (x.list l).pending = .ofNat (linked l).length := by
  rw [b.pending, b.card_eq ls, owed_eq_zero rest, Nat.add_zero]

end Share

theorem census (b : x.Books K T E) (single : x.Single) : ∃ linked held, x.Census linked held T := by
  obtain ⟨linked, held, ls⟩ := b.stored.exists_lists
  refine ⟨linked, held, ⟨ls.path, ls.fills, fun i l c p hi => ?_, ?_, fun e he => ?_, b.idle, fun l => ?_⟩⟩
  · have fills := ls.fills i
    rw [hi] at fills
    exact fills.eq_singleton (ls.held_nodup i) (single i l c p hi)
  · rintro (l | i)
    · exact ls.linked_nodup l
    · exact ls.held_nodup i
  · have hne := (b.stored.live e).mp he
    cases hk : K e with
    | nobody => exact (hne hk).elim
    | listed l =>
      refine ⟨.inl l, by simp [ls.mem_linked, hk], ?_⟩
      rintro (k | i) <;> simp [ls.mem_linked, ls.mem_held, hk, eq_comm]
    | due s i | kept s i =>
      refine ⟨.inr i, by simp [ls.mem_held, hk], ?_⟩
      rintro (k | j) <;> simp [ls.mem_linked, ls.mem_held, hk, eq_comm]
  · rw [b.pending, b.card_eq ls]

end Books

/-- The list `l`, on which nothing is in flight, has the entries `es`. -/
structure AtRest (x : Crowd) (l : Nat) (es : List Nat) : Prop where
  length : es.length < 2 ^ 64 → (x.list l).length = es.length
  isEmpty : (x.list l).isEmpty ↔ es = []
  emptied : (x.parking l).takeAll.1.list = ⟨none, 0⟩
  called : (x.parking l).takeAll.2.map some = es.map (content? x.entries)
  freed : ∀ e, (x.parking l).takeAll.1.entries.get? e = if e ∈ es then none else x.entries.get? e

theorem Census.atRest {linked held : Nat → List Nat} (c : x.Census linked held T)
    (rest : ∀ i p, x.busy i ≠ some (l, p)) : x.AtRest l (linked l) := by
  have counted : (x.list l).pending = .ofNat (linked l).length := by
    rw [c.counter, owed_eq_zero rest, Nat.add_zero]
  obtain ⟨emptied, called, freed⟩ := takeAll_eq (m := x.parking l) (c.lists l) (c.nodup (.inl l)) counted
  refine ⟨fun hlt => ?_, ?_, emptied, called, freed⟩
  · rw [ParkedList.length, counted, UInt64.toNat_ofNat']
    exact Nat.mod_eq_of_lt hlt
  · have path := c.lists l
    rw [ParkedList.isEmpty, Option.isNone_iff_eq_none]
    constructor
    · intro hnone
      rw [hnone] at path
      exact eq_nil_of_path path
    · intro hnil
      rw [hnil] at path
      exact Path.nil_iff.mp path

/-- What passes are yet to subtract from a counter is counted in it. -/
theorem Census.no_underflow {linked held : Nat → List Nat} (c : x.Census linked held T)
    (hlt : (linked l).length + ∑ i ∈ T, owedOn l (held i).length (x.busy i) < 2 ^ 64) {w : Drain.Walk}
    (hi : x.busy i = some (l, .drain (.settle w))) : w.reclaimed ≤ (x.list l).pending.toNat := by
  have hT : i ∈ T := by
    by_contra hT
    simp [c.idle i hT] at hi
  have hle := Finset.single_le_sum (f := fun i => owedOn l (held i).length (x.busy i))
    (fun _ _ => Nat.zero_le _) hT
  have howed : w.reclaimed ≤ owedOn l (held i).length (x.busy i) := by
    rw [hi]
    simp [owedOn, Point.freed, Drain.Point.freed]
  rw [c.counter, UInt64.toNat_ofNat', Nat.mod_eq_of_lt hlt]
  omega

end Census

/-- Nobody has used the list `l`. -/
def Unused (x : Crowd) (l : Nat) : Prop := x.list l = .empty ∧ ∀ i p, x.busy i ≠ some (l, p)

section Unused

variable {x : Crowd} {i k l : Nat}

theorem Unused.set (u : x.Unused l) (h : k ≠ l) (i : Nat) (m : Parking) (o : Option Point) :
    (x.set i k m o).Unused l := by
  refine ⟨by simpa [Crowd.set, h.symm] using u.1, fun j p hj => ?_⟩
  by_cases hji : j = i
  · cases o <;> simp [Crowd.set, hji, h] at hj
  · exact u.2 j p (by simpa [Crowd.set, hji] using hj)

theorem Unused.move (u : x.Unused l) {mv : Move} (h : ∀ i c, mv ≠ .call i l c) :
    (x.move mv).Unused l := by
  cases mv with
  | call i k c =>
    simp only [Crowd.move]
    split
    · exact u.set (fun hk => h i c (hk ▸ rfl)) i _ _
    · exact u
  | step i t =>
    rcases hi : x.busy i with _ | ⟨k, p⟩
    · simpa only [Crowd.move, hi] using u
    · have hk : k ≠ l := fun hk => u.2 i p (hk ▸ hi)
      simp only [Crowd.move, hi]
      split
      · exact u.set hk i _ _
      · exact u.set hk i _ _
      · exact u
  | miss i =>
    rcases hi : x.busy i with _ | ⟨k, p⟩
    · simpa only [Crowd.move, hi] using u
    · have hk : k ≠ l := fun hk => u.2 i p (hk ▸ hi)
      simp only [Crowd.move, hi]
      split
      · exact u.set hk i _ _
      · exact u
  | recycle k => exact u

theorem unused_run {ms : List Move} (h : ∀ i c, Move.call i l c ∉ ms) : (run ms).1.Unused l := by
  induction ms using List.reverseRecOn with
  | nil => exact ⟨rfl, nofun⟩
  | append_singleton ms mv ih =>
    rw [run, play_snoc]
    exact (ih fun i c hmem => h i c (List.mem_append_left _ hmem)).move
      fun i c hmv => h i c (by simp [hmv])

end Unused

/-- Where all threads rest and just one list is in use, all entries are on it. -/
theorem Census.mem_linked {x : Crowd} {linked held : Nat → List Nat} {T : Finset Nat} {l e : Nat}
    (c : x.Census linked held T) (rest : ∀ i, x.busy i = none) (unused : ∀ k ≠ l, x.Unused k)
    (he : (x.entries.get? e).isSome) : e ∈ linked l := by
  obtain ⟨p, hp, -⟩ := c.place e he
  cases p with
  | inl k =>
    by_cases hk : k = l
    · exact hk ▸ hp
    · have path := c.lists k
      rw [(unused k hk).1] at path
      simp [eq_nil_of_path path] at hp
  | inr i =>
    have fills := c.hands i
    rw [rest i] at fills
    simp [fills.eq_nil] at hp

theorem settled_run (ms : List Move) :
    ∃ K T E, (run ms).1.Books K T E ∧ (run ms).1.Single ∧ (run ms).1.Told (run ms).2 := by
  refine play_induction (fun (x : Crowd) log => ∃ K T E, x.Books K T E ∧ x.Single ∧ x.Told log)
    ⟨_, _, _, .start, nofun, .start⟩ (fun x log mv ⟨K, T, E, b, s, t⟩ => ?_) ms
  obtain ⟨K', T', E', b'⟩ := b.move mv
  exact ⟨K', T', E', b', s.move mv, t.move b.not_fails mv⟩

/-- Whatever the threads do, no step of theirs fails, every entry is unlinked at most once and its
deleter is called once by then, and all other entries are in one place each and counted there. A list
on which nothing is in flight is emptied with one call for each of its entries, which leaves no entry
at all if no other list has been used and all threads rest. -/
theorem every_entry_accounted (ms : List Move) :
    (∀ i t, ¬(run ms).1.Fails i t) ∧ (run ms).1.Told (run ms).2 ∧
      ∃ linked held T, (run ms).1.Census linked held T ∧
        (∀ l i w, (linked l).length + ∑ j ∈ T, owedOn l (held j).length ((run ms).1.busy j) < 2 ^ 64 →
          (run ms).1.busy i = some (l, .drain (.settle w)) →
          w.reclaimed ≤ ((run ms).1.list l).pending.toNat) ∧
        (∀ l, (∀ i p, (run ms).1.busy i ≠ some (l, p)) → (run ms).1.AtRest l (linked l)) ∧
        ∀ l, (∀ i k c, Move.call i k c ∈ ms → k = l) → (∀ i, (run ms).1.busy i = none) →
          ∀ e, ((run ms).1.parking l).takeAll.1.entries.get? e = none := by
  obtain ⟨K, T, E, b, single, told⟩ := settled_run ms
  obtain ⟨linked, held, c⟩ := b.census single
  have atRest (l : Nat) (rest : ∀ i p, (run ms).1.busy i ≠ some (l, p)) := c.atRest rest
  refine ⟨b.not_fails, told, linked, held, T, c, fun _ _ _ hlt hi => c.no_underflow hlt hi, atRest,
    fun l only rest e => ?_⟩
  rw [(atRest l fun i p => by simp [rest i]).freed]
  split
  · rfl
  · rename_i he
    have unused (k : Nat) (hk : k ≠ l) := unused_run fun i c hmem => hk (only i k c hmem)
    by_contra hne
    exact he (c.mem_linked rest unused (Option.isSome_iff_ne_none.mpr hne))

end Crowd

end Parking

end LockFreeStack
