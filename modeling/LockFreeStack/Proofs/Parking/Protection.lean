import LockFreeStack.Proofs.Parking.Passes

/-!
Parked lists and the one table that all passes over them look through. An address that stays
published keeps its entries from being deleted; an entry whose address a pass meets nowhere is
deleted by that pass.
-/

namespace LockFreeStack

theorem Table.isProtected_of_record {t : Table} {k : Nat} {r : Record} {a : Address}
    (hr : t.records[k]? = some r) (ha : r.published = a) (hne : a ≠ .null) : t.isProtected a := by
  obtain ⟨hk, rfl⟩ := Array.getElem?_eq_some_iff.mp hr
  simp only [isProtected, Bool.and_eq_true, Array.any_eq_true, decide_eq_true_eq]
  exact ⟨hne, k, hk, ha⟩

namespace Parking

open Entries

/-- An action on a record. A release is a reset of the record, which is disowned next. -/
inductive Write where
  | protect (k : Nat) (a : Address)
  | reset (k : Nat)
  | claim (k token : Nat)
  | disown (k : Nat)

namespace Write

def on (t : Table) : Write → Table
  | protect k a => t.publish k a
  | reset k => t.publish k .null
  | claim k token => if (t.records[k]?).map Record.owner = some 0 then t.setOwner k token else t
  | disown k => t.setOwner k 0

@[simp] theorem capacity_on (t : Table) (w : Write) : (w.on t).capacity = t.capacity := by
  cases w with
  | protect k a => exact t.capacity_update _ _
  | reset k => exact t.capacity_update _ _
  | claim k token =>
    simp only [on]
    split
    · exact t.capacity_update _ _
    · rfl
  | disown k => exact t.capacity_update _ _

end Write

/-- Threads at work on parked lists, and the table at that time. -/
structure Scene where
  crowd : Crowd
  table : Table

inductive Turn where
  | call (i l : Nat) (c : Call)
  | step (i : Nat)
  | miss (i : Nat)
  | recycle (k : Nat)
  | write (w : Write)

namespace Turn

/-- The move of a thread, at a time when the table is `t`. -/
def move? (t : Table) : Turn → Option Move
  | call i l c => some (.call i l c)
  | step i => some (.step i t)
  | miss i => some (.miss i)
  | recycle k => some (.recycle k)
  | write _ => none

def isStepOf (i : Nat) : Turn → Bool
  | step j => j = i
  | _ => false

end Turn

def Phase.isScanning : Phase → Bool
  | scanning _ => true
  | sorting _ | calling .. => false

namespace Scene

def start (t : Table) : Scene := ⟨.start, t⟩

def turn (s : Scene) (u : Turn) : Scene where
  crowd :=
    match u.move? s.table with
    | some mv => s.crowd.move mv
    | none => s.crowd
  table :=
    match u with
    | .write w => w.on s.table
    | _ => s.table

def deeds (s : Scene) (u : Turn) : List Deed :=
  match u.move? s.table with
  | some mv => s.crowd.deeds mv
  | none => []

/-- The scene after some turns from another one, and the deeds of these turns. -/
def go (s : Scene) (us : List Turn) : Scene × List Deed := play turn deeds s us

/-- The record at the index `k` publishes `p`. -/
def Publishes (s : Scene) (k : Nat) (p : Address) : Prop :=
  (s.table.records[k]?).map Record.published = some p

/-- Thread `i` is in the middle of the scan of a pass. -/
def Scans (s : Scene) (i : Nat) : Prop := (phaseOf (s.crowd.busy i)).any Phase.isScanning

end Scene

/-- Thread `i` takes the entry `e` with the content `v` out, and what it does next is to call the
deleter. -/
def Deletes (i e : Nat) (v : Address × Deleter) (log : List Deed) : Prop :=
  ∃ before mid after, log = before ++ .unlinked e i v :: (mid ++ .called i v :: after) ∧
    ∀ d ∈ mid, d.thread? ≠ some i

section Content

variable {i e : Nat} {C C' : Nat → Option (Address × Deleter)} {ds : List Deed}
  {o o' : Option (Address × Deleter)} {v : Address × Deleter} {x : Crowd} {mv : Move}

theorem Acts.keeps (a : Acts i C C' ds o o') (he : C e = some v) (h : ∀ j w, .unlinked e j w ∉ ds) :
    C' e = some v ∧ ∀ d ∈ ds, d.about? ≠ some e := by
  cases a with
  | still => exact ⟨he, by simp⟩
  | park d x hd =>
    have hne : e ≠ d := by
      rintro rfl
      simp [he] at hd
    exact ⟨by rw [Function.update_of_ne hne, he], by simp [Deed.about?, hne.symm]⟩
  | unlink d x hd =>
    have hne : e ≠ d := by
      rintro rfl
      exact h i x (by simp)
    exact ⟨by rw [Function.update_of_ne hne, he], by simp [Deed.about?, hne.symm]⟩
  | call x => exact ⟨he, by simp [Deed.about?]⟩

/-- An entry keeps its content until it is taken out. -/
theorem Crowd.content_move (he : content? x.entries e = some v)
    (h : ∀ j w, .unlinked e j w ∉ x.deeds mv) :
    content? (x.move mv).entries e = some v ∧ ∀ d ∈ x.deeds mv, d.about? ≠ some e := by
  cases mv with
  | call i l c =>
    refine ⟨?_, by simp [deeds]⟩
    simp only [move]
    split <;> exact he
  | step i t =>
    rcases hi : x.busy i with _ | ⟨l, p⟩
    · simp only [deeds, move, hi]
      exact ⟨he, by simp⟩
    · have acts := p.acts_step i t (x.parking l)
      simp only [deeds, hi] at h
      obtain ⟨kept, about⟩ := acts.keeps he h
      simp only [deeds, move, hi]
      refine ⟨?_, about⟩
      rcases ho : p.step t (x.parking l) with ⟨m, q | r | f, notes⟩ <;> rw [ho] at kept
      · exact kept
      · exact kept
      · exact he
  | miss i =>
    refine ⟨?_, by simp [deeds]⟩
    rcases hi : x.busy i with _ | ⟨l, p⟩
    · simpa only [move, hi] using he
    · simp only [move, hi]
      cases hm : p.miss? (x.parking l) with
      | none => exact he
      | some out => exact (congrFun (Point.content?_miss hm).1 e).trans he
  | recycle k => exact ⟨he, by simp [deeds]⟩

end Content

/-- A pass that comes to an entry for `p` has met `p`, once it has loaded the record `k`. -/
def Phase.Meets (k : Nat) (p : Address) : Phase → Prop
  | scanning c => k < c.next → p ∈ c.met
  | sorting met | calling _ met => p ∈ met

/-- A pass has not met `p` up to now. -/
def Phase.Misses (p : Address) : Phase → Prop
  | scanning c => p ∉ c.met
  | sorting met | calling _ met => p ∉ met

/-- The steps that a pass takes at most until it has sorted the entries `es`, where the table has `n`
records. -/
def Phase.left (n : Nat) (es : List Nat) : Phase → Nat
  | scanning c => n - c.next + 1 + 2 * es.length
  | sorting _ => 2 * es.length
  | calling .. => 2 * es.length + 1

namespace Sorts

variable {i k e n : Nat} {t : Table} {C : Nat → Option (Address × Deleter)} {o o' : Option Phase}
  {ph : Phase} {es es' : List Nat} {ds : List Deed} {v : Address × Deleter}

theorem thread_of_mem (s : Sorts i t C o es o' es' ds) {d : Deed} (hd : d ∈ ds) :
    d.thread? = none ∨ d.thread? = some i := by
  cases s with
  | elsewhere h => exact .inl (h d hd)
  | unlink _ _ _ | call _ _ _ =>
    obtain rfl := List.mem_singleton.mp hd
    exact .inr rfl
  | _ => cases hd

theorem mem_of_unlinked (s : Sorts i t C o es o' es' ds) {j : Nat} (hd : .unlinked e j v ∈ ds) : e ∈ es := by
  cases s with
  | elsewhere h => cases h _ hd
  | unlink _ _ _ =>
    cases List.mem_singleton.mp hd
    exact List.mem_cons_self
  | call _ _ _ => cases List.mem_singleton.mp hd
  | _ => cases hd

/-- While the record `k` publishes the address of an entry, no pass takes the entry out. -/
theorem meets (s : Sorts i t C o es o' es' ds)
    (published : (t.records[k]?).map Record.published = some v.1) (hne : v.1 ≠ .null)
    (he : C e = some v) (h : ∀ ph, o = some ph → e ∈ es → ph.Meets k v.1) :
    (∀ ph, o' = some ph → e ∈ es' → ph.Meets k v.1) ∧ ∀ j w, .unlinked e j w ∉ ds := by
  obtain ⟨r, hr, hp⟩ := Option.map_eq_some_iff.mp published
  have hk : k < t.capacity := (Array.getElem?_eq_some_iff.mp hr).1
  cases s with
  | elsewhere h => exact ⟨nofun, fun j w hd => by cases h _ hd⟩
  | detach es' =>
    refine ⟨fun ph hph _ => ?_, nofun⟩
    cases hph
    exact fun hlt => (Nat.not_lt_zero k hlt).elim
  | @load c r' hr' es =>
    refine ⟨fun ph hph hmem => ?_, nofun⟩
    cases hph
    intro hlt
    obtain hlt | rfl := Nat.lt_succ_iff_lt_or_eq.mp hlt
    · have hmet : v.1 ∈ c.met := h _ rfl hmem hlt
      dsimp only
      split
      · exact hmet
      · exact (Address.mem_insert _ _ _).mpr (.inr hmet)
    · -- This is the load of the record that publishes the address.
      obtain rfl := Option.some.inj (hr.symm.trans hr')
      dsimp only
      rw [hp, if_neg hne]
      exact (Address.mem_insert _ _ _).mpr (.inl rfl)
  | gather hc es =>
    refine ⟨fun ph hph hmem => ?_, nofun⟩
    cases hph
    exact h _ rfl hmem (Nat.lt_of_lt_of_le hk hc)
  | keep _ _ es =>
    refine ⟨fun ph hph hmem => ?_, nofun⟩
    cases hph
    exact h _ rfl (List.mem_cons_of_mem _ hmem)
  | @unlink d x met hx hm es =>
    have hmem : e ∈ d :: es' → v.1 ∈ met := h _ rfl
    refine ⟨fun ph hph hmem' => ?_, fun j w hd => ?_⟩
    · cases hph
      exact hmem (List.mem_cons_of_mem _ hmem')
    · cases List.mem_singleton.mp hd
      obtain rfl := Option.some.inj (he.symm.trans hx)
      exact hm (hmem List.mem_cons_self)
  | call x met es =>
    refine ⟨fun ph hph hmem => ?_, fun j w hd => by cases List.mem_singleton.mp hd⟩
    cases hph
    exact h (.calling x met) rfl hmem
  | leave met => exact ⟨nofun, nofun⟩

/-- A pass comes nearer to an entry that it has not met, until it takes the entry out. -/
theorem misses (s : Sorts i t C (some ph) es o' es' ds)
    (unseen : (∃ c, ph = .scanning c) → ¬t.isProtected v.1) (nodup : es.Nodup) (he : C e = some v)
    (hmem : e ∈ es) (h : ph.Misses v.1) :
    ∃ ph', o' = some ph' ∧ ph'.left t.capacity es' + 1 ≤ ph.left t.capacity es ∧
      (e ∈ es' ∧ ph'.Misses v.1 ∧ (∀ j w, .unlinked e j w ∉ ds) ∨
        (∃ met, ph' = .calling v met) ∧ ds = [.unlinked e i v]) := by
  cases s with
  | @load c r hr es =>
    have hlt : c.next < t.capacity := (Array.getElem?_eq_some_iff.mp hr).1
    refine ⟨_, rfl, ?_, .inl ⟨hmem, ?_, nofun⟩⟩
    · simp only [Phase.left]
      omega
    · have hnot := unseen ⟨c, rfl⟩
      simp only [Phase.Misses]
      split
      · exact h
      · rename_i hnull
        rw [Address.mem_insert]
        rintro (hp | hp)
        · exact hnot (t.isProtected_of_record hr hp.symm (hp ▸ hnull))
        · exact h hp
  | gather hc es =>
    refine ⟨_, rfl, ?_, .inl ⟨hmem, h, nofun⟩⟩
    simp only [Phase.left]
    omega
  | @keep d x met hx hm es =>
    have hne : e ≠ d := by
      rintro rfl
      obtain rfl := Option.some.inj (he.symm.trans hx)
      exact h hm
    refine ⟨_, rfl, ?_, .inl ⟨(List.mem_cons.mp hmem).resolve_left hne, h, nofun⟩⟩
    simp only [Phase.left, List.length_cons]
    omega
  | @unlink d x met hx hm es =>
    have hleft : (Phase.calling x met).left t.capacity es' + 1 ≤
        (Phase.sorting met).left t.capacity (d :: es') := by
      simp only [Phase.left, List.length_cons]
      omega
    refine ⟨_, rfl, hleft, ?_⟩
    obtain rfl | hmem := List.mem_cons.mp hmem
    · obtain rfl := Option.some.inj (he.symm.trans hx)
      exact .inr ⟨⟨met, rfl⟩, rfl⟩
    · refine .inl ⟨hmem, h, fun j w hd => ?_⟩
      obtain ⟨hde, -⟩ := Deed.unlinked.inj (List.mem_singleton.mp hd)
      exact (List.nodup_cons.mp nodup).1 (hde ▸ hmem)
  | call x met es =>
    refine ⟨_, rfl, ?_, .inl ⟨hmem, h, fun j w hd => by cases List.mem_singleton.mp hd⟩⟩
    simp only [Phase.left]
    omega
  | leave met => cases hmem

end Sorts

namespace Crowd

variable {x : Crowd} {K : Nat → Keeper} {T : Finset Nat} {E : Nat → Finset Nat} {i j k e : Nat}
  {es : List Nat} {o : Option Phase} {v : Address × Deleter} {mv : Move}

/-- The entry `e` is there, and every pass that has yet to look at it will meet its address. -/
structure Shielded (x : Crowd) (k e : Nat) (v : Address × Deleter) : Prop where
  content : content? x.entries e = some v
  passes : ∀ i ph es, x.Passes i (some ph) es → e ∈ es → ph.Meets k v.1

theorem Passes.nodup (p : x.Passes i o es) : es.Nodup := .of_map some (p.due.nodup rfl)

namespace Books

theorem passes_move (b : x.Books K T E) {o' : Option Phase} {es' : List Nat}
    (p : (x.move mv).Passes j o' es') :
    (∃ t o es, mv = .step j t ∧ x.Passes j o es ∧ Sorts j t (content? x.entries) o es o' es' (x.deeds mv)) ∨
      (∀ t, mv ≠ .step j t) ∧ x.Passes j o' es' := by
  obtain ⟨o, es, passes⟩ := b.exists_passes j
  by_cases h : ∃ t, mv = .step j t
  · obtain ⟨t, rfl⟩ := h
    obtain ⟨o'', es'', p', sorts⟩ := b.sorts t passes
    obtain ⟨rfl, rfl⟩ := p.unique p'
    exact .inl ⟨t, o, es, rfl, passes, sorts⟩
  · have still (t : Table) : mv ≠ .step j t := fun ht => h ⟨t, ht⟩
    obtain ⟨rfl, rfl⟩ := p.unique (b.passes_still passes still)
    exact .inr ⟨still, passes⟩

/-- All deeds are done in steps. -/
theorem sorts_of_mem (b : x.Books K T E) {d : Deed} (hd : d ∈ x.deeds mv) :
    ∃ i t o es o' es', mv = .step i t ∧ x.Passes i o es ∧
      Sorts i t (content? x.entries) o es o' es' (x.deeds mv) := by
  cases mv with
  | step i t =>
    obtain ⟨o, es, passes⟩ := b.exists_passes i
    obtain ⟨o', es', -, sorts⟩ := b.sorts t passes
    exact ⟨i, t, o, es, o', es', rfl, passes, sorts⟩
  | _ => cases hd

theorem shielded_move (b : x.Books K T E) (sh : x.Shielded k e v) (hne : v.1 ≠ .null)
    (published : ∀ i t, mv = .step i t → (t.records[k]?).map Record.published = some v.1) :
    (x.move mv).Shielded k e v ∧ ∀ d ∈ x.deeds mv, d.about? ≠ some e := by
  have linked (j : Nat) (w : Address × Deleter) : .unlinked e j w ∉ x.deeds mv := fun hd => by
    obtain ⟨i, t, o, es, o', es', rfl, passes, sorts⟩ := b.sorts_of_mem hd
    exact (sorts.meets (published i t rfl) hne sh.content
      fun ph ho hmem => sh.passes i ph es (ho ▸ passes) hmem).2 j w hd
  obtain ⟨content, about⟩ := content_move sh.content linked
  refine ⟨⟨content, fun j ph es p hmem => ?_⟩, about⟩
  obtain ⟨t, o, es', rfl, passes, sorts⟩ | ⟨-, passes⟩ := b.passes_move p
  · exact (sorts.meets (published j t rfl) hne sh.content
      fun ph ho hmem => sh.passes j ph es' (ho ▸ passes) hmem).1 ph rfl hmem
  · exact sh.passes j ph es passes hmem

end Books

/-- Thread `i` is about to take the entry `e` out, or to call its deleter, in fewer than `n` steps. -/
inductive Doomed (x : Crowd) (i e : Nat) (v : Address × Deleter) (cap : Nat) (log : List Deed) :
    Nat → Prop
  | waits {ph : Phase} {es : List Nat} (passes : x.Passes i (some ph) es) (mem : e ∈ es)
    (misses : ph.Misses v.1) (content : content? x.entries e = some v) :
    Doomed x i e v cap log (ph.left cap es)
  | due {met : List Address} {es : List Nat} (passes : x.Passes i (some (.calling v met)) es)
    {before mid : List Deed} (split : log = before ++ .unlinked e i v :: mid)
    (quiet : ∀ d ∈ mid, d.thread? ≠ some i) : Doomed x i e v cap log ((Phase.calling v met).left cap es)

namespace Doomed

variable {cap n : Nat} {log : List Deed}

theorem pos (d : x.Doomed i e v cap log n) : 0 < n := by
  cases d with
  | @waits ph es passes mem misses content =>
    have hlen : 0 < es.length := List.length_pos_of_mem mem
    cases ph <;> simp only [Phase.left] <;> omega
  | due => simp only [Phase.left]; omega

theorem phase (d : x.Doomed i e v cap log n) : phaseOf (x.busy i) ≠ none := by
  cases d with
  | waits passes | due passes => simp [passes.phase]

end Doomed

namespace Books

variable {cap n : Nat} {log : List Deed}

theorem doomed_still (b : x.Books K T E) (d : x.Doomed i e v cap log n) (still : ∀ t, mv ≠ .step i t) :
    (x.move mv).Doomed i e v cap (log ++ x.deeds mv) n := by
  cases d with
  | waits passes mem misses content =>
    refine .waits (b.passes_still passes still) mem misses (content_move content fun j w hd => ?_).1
    obtain ⟨j, t, o, es', _, _, rfl, passes', sorts⟩ := b.sorts_of_mem hd
    exact still t (b.unique_passes passes passes' mem (sorts.mem_of_unlinked hd) ▸ rfl)
  | due passes split quiet =>
    refine .due (b.passes_still passes still) (by rw [split, List.append_assoc, List.cons_append])
      fun d hd => ?_
    obtain hd | hd := List.mem_append.mp hd
    · exact quiet d hd
    · obtain ⟨j, t, _, _, _, _, rfl, -, sorts⟩ := b.sorts_of_mem hd
      obtain h | h := sorts.thread_of_mem hd <;> rw [h]
      · nofun
      · exact fun hj => still t (Option.some.inj hj ▸ rfl)

theorem doomed_step (b : x.Books K T E) (d : x.Doomed i e v cap log n) {t : Table} (size : t.capacity = cap)
    (unseen : (∃ c, phaseOf (x.busy i) = some (.scanning c)) → ¬t.isProtected v.1) :
    Deletes i e v (log ++ x.deeds (.step i t)) ∨
      ∃ n', (x.move (.step i t)).Doomed i e v cap (log ++ x.deeds (.step i t)) n' ∧ n' + 1 ≤ n := by
  subst size
  cases d with
  | @waits ph es passes mem misses content =>
    obtain ⟨o', es', passes', sorts⟩ := b.sorts t passes
    obtain ⟨ph', rfl, left, ⟨mem', misses', linked⟩ | ⟨⟨met, rfl⟩, hd⟩⟩ :=
      sorts.misses (fun ⟨c, hc⟩ => unseen ⟨c, by rw [passes.phase, hc]⟩) passes.nodup content mem misses
    · exact .inr ⟨_, .waits passes' mem' misses' (content_move content linked).1, left⟩
    · exact .inr ⟨_, .due passes' (by rw [hd]) (by simp), left⟩
  | @due met es passes before mid split quiet =>
    obtain ⟨o', es', -, sorts⟩ := b.sorts t passes
    generalize x.deeds (.step i t) = ds at sorts
    cases sorts with
    | call => exact .inl ⟨before, mid, [], by rw [split]; simp, quiet⟩

end Books

end Crowd

theorem Deletes.append {i e : Nat} {v : Address × Deleter} {log : List Deed} (h : Deletes i e v log)
    (ds : List Deed) : Deletes i e v (log ++ ds) := by
  obtain ⟨before, mid, after, rfl, quiet⟩ := h
  exact ⟨before, mid, after ++ ds, by simp, quiet⟩

theorem Turn.eq_of_move? {t t' : Table} {u : Turn} {i : Nat} (h : u.move? t = some (.step i t')) :
    u = .step i ∧ t' = t := by
  cases u <;> cases h
  exact ⟨rfl, rfl⟩

theorem Turn.eq_of_isStepOf {u : Turn} {i : Nat} (h : u.isStepOf i) : u = .step i := by
  cases u <;> simp_all [isStepOf]

namespace Scene

variable {s : Scene} {u : Turn} {us rest : List Turn} {i j k l e : Nat} {p : Address} {d : Deleter}
  {v : Address × Deleter}

theorem turn_of_move? {mv : Move} (h : u.move? s.table = some mv) :
    (s.turn u).crowd = s.crowd.move mv ∧ s.deeds u = s.crowd.deeds mv := by
  simp only [turn, deeds, h, and_self]

theorem turn_of_write (h : u.move? s.table = none) : (s.turn u).crowd = s.crowd ∧ s.deeds u = [] := by
  simp only [turn, deeds, h, and_self]

@[simp] theorem capacity_turn (s : Scene) (u : Turn) : (s.turn u).table.capacity = s.table.capacity := by
  cases u <;> simp [turn]

theorem go_snoc (s : Scene) (us : List Turn) (u : Turn) :
    s.go (us ++ [u]) = ((s.go us).1.turn u, (s.go us).2 ++ (s.go us).1.deeds u) := play_snoc us u

def Booked (s : Scene) : Prop := ∃ K T E, s.crowd.Books K T E

theorem Booked.turn (b : s.Booked) (u : Turn) : (s.turn u).Booked := by
  obtain ⟨K, T, E, b⟩ := b
  cases h : u.move? s.table with
  | some mv =>
    unfold Booked
    rw [(turn_of_move? h).1]
    exact b.move mv
  | none =>
    unfold Booked
    rw [(turn_of_write h).1]
    exact ⟨K, T, E, b⟩

theorem Booked.go (b : s.Booked) (us : List Turn) : (s.go us).1.Booked :=
  play_induction (fun (s : Scene) _ => s.Booked) b (fun _ _ u b => b.turn u) us

theorem capacity_go (s : Scene) (us : List Turn) : (s.go us).1.table.capacity = s.table.capacity :=
  play_induction (fun (s' : Scene) _ => s'.table.capacity = s.table.capacity) rfl
    (fun s' _ u h => (s'.capacity_turn u).trans h) us

theorem booked_start (t : Table) : (start t).Booked := ⟨_, _, _, .start⟩

theorem shielded_go (b : s.Booked) (sh : s.crowd.Shielded k e v) (hne : v.1 ≠ .null)
    (published : ∀ r, r <+: rest → (s.go r).1.Publishes k v.1) :
    (s.go rest).1.crowd.Shielded k e v ∧ ∀ d ∈ (s.go rest).2, d.about? ≠ some e := by
  refine (play_induction_of (fun s : Scene => s.Publishes k v.1)
    (fun s log => s.Booked ∧ s.crowd.Shielded k e v ∧ ∀ d ∈ log, d.about? ≠ some e)
    (fun _ => ⟨b, sh, by simp⟩) (fun s log u hp _ ⟨b, sh, quiet⟩ => ⟨b.turn u, ?_⟩) rest published).2
  obtain ⟨K, T, E, b⟩ := b
  cases hu : u.move? s.table with
  | some mv =>
    obtain ⟨hcrowd, hdeeds⟩ := turn_of_move? hu
    obtain ⟨sh', about⟩ := b.shielded_move sh hne fun i t hmv => by
      obtain ⟨-, rfl⟩ := Turn.eq_of_move? (hu.trans (congrArg some hmv))
      exact hp
    rw [hcrowd, hdeeds]
    exact ⟨sh', fun d hd => (List.mem_append.mp hd).elim (quiet d) (about d)⟩
  | none =>
    obtain ⟨hcrowd, hdeeds⟩ := turn_of_write hu
    rw [hcrowd, hdeeds, List.append_nil]
    exact ⟨sh, quiet⟩

/-- An entry that is not on the list yet is in no pass. -/
theorem shielded_of_insert {q : Insert.Point} (b : s.Booked)
    (hi : s.crowd.busy i = some (l, .insert ⟨e, e⟩ q)) (he : content? s.crowd.entries e = some v) (k : Nat) :
    s.crowd.Shielded k e v := by
  obtain ⟨K, T, E, b⟩ := b
  refine ⟨he, fun j ph es passes hmem => ?_⟩
  have kept := b.stored.kept i
  simp only [hi, handOf] at kept
  have mine : K e = .kept l i := kept.last
  have due := b.keeper_of_mem passes hmem
  rw [mine] at due
  cases due

theorem doomed_turn (b : s.Booked) {cap n : Nat} {log : List Deed} (h : s.crowd.Doomed i e v cap log n)
    (size : s.table.capacity = cap) (unseen : u = .step i → s.Scans i → ¬s.table.isProtected v.1) :
    Deletes i e v (log ++ s.deeds u) ∨ ∃ n', (s.turn u).crowd.Doomed i e v cap (log ++ s.deeds u) n' ∧
      n' + (if u.isStepOf i then 1 else 0) ≤ n := by
  obtain ⟨K, T, E, b⟩ := b
  cases hu : u.move? s.table with
  | some mv =>
    obtain ⟨hcrowd, hdeeds⟩ := turn_of_move? hu
    rw [hcrowd, hdeeds]
    by_cases hstep : u = .step i
    · subst hstep
      obtain rfl := Option.some.inj hu
      have scans (h : ∃ c, phaseOf (s.crowd.busy i) = some (.scanning c)) : s.Scans i := by
        obtain ⟨c, hc⟩ := h
        simp [Scans, hc, Phase.isScanning]
      obtain done | ⟨n', doomed, hle⟩ := b.doomed_step h size fun hs => unseen rfl (scans hs)
      · exact .inl done
      · exact .inr ⟨n', doomed, by simpa [Turn.isStepOf] using hle⟩
    · have still (t : Table) : mv ≠ .step i t := fun hmv =>
        hstep (Turn.eq_of_move? (hu.trans (congrArg some hmv))).1
      refine .inr ⟨n, b.doomed_still h still, ?_⟩
      rw [if_neg fun h' => hstep (Turn.eq_of_isStepOf h')]
      rfl
  | none =>
    obtain ⟨hcrowd, hdeeds⟩ := turn_of_write hu
    rw [hcrowd, hdeeds, List.append_nil]
    refine .inr ⟨n, h, ?_⟩
    rw [if_neg fun h' => by rw [Turn.eq_of_isStepOf h'] at hu; cases hu]
    rfl

theorem doomed_go (b : s.Booked) {es : List Nat} (hi : s.crowd.busy i = some (l, .drain .detach))
    (path : Path s.crowd.entries.follow (s.crowd.list l).head (es.map some) none) (hmem : e ∈ es)
    (he : content? s.crowd.entries e = some v)
    (unseen : ∀ r, r ++ [.step i] <+: rest →
      (s.go (.step i :: r)).1.Scans i → ¬(s.go (.step i :: r)).1.table.isProtected v.1) :
    Deletes i e v (s.go (.step i :: rest)).2 ∨
      ∃ n, (s.go (.step i :: rest)).1.crowd.Doomed i e v s.table.capacity (s.go (.step i :: rest)).2 n ∧
        n + rest.countP (·.isStepOf i) ≤ s.table.capacity + 1 + 2 * es.length := by
  induction rest using List.reverseRecOn with
  | nil =>
    obtain ⟨K, T, E, b⟩ := b
    obtain ⟨passes, hd⟩ := Crowd.Books.sorts_detach s.table hi path
    have hpasses := passes.resolve_right fun h => by simp [h.1] at hmem
    have hc : content? (s.crowd.move (.step i s.table)).entries e = some v :=
      (Crowd.content_move he (by simp [hd])).1
    refine .inr ⟨_, .waits hpasses hmem (by simp [Phase.Misses]) hc, ?_⟩
    simp [Phase.left]
  | append_singleton rest u ih =>
    rw [← List.cons_append, go_snoc, List.countP_append, List.countP_singleton]
    obtain done | ⟨n, doomed, hle⟩ := ih fun r hr => unseen r (hr.trans (List.prefix_append rest [u]))
    · exact .inl (done.append _)
    · have last : u = .step i → (s.go (.step i :: rest)).1.Scans i →
          ¬(s.go (.step i :: rest)).1.table.isProtected v.1 := by
        rintro rfl
        exact unseen rest (List.prefix_refl _)
      obtain done | ⟨n', doomed', hle'⟩ :=
        doomed_turn (b.go (.step i :: rest)) doomed (s.capacity_go _) last
      · exact .inl done
      · exact .inr ⟨n', doomed', by omega⟩

/-- While one record publishes an address without a break, no pass deletes an entry for it that came to
a list later, whatever else happens. And where a pass has detached an entry and no record publishes
the address at any load of the scan, the pass deletes that entry by the time it has sorted what it
detached. -/
theorem protection_defers_deletion (t : Table) (us rest : List Turn) (reached : ((start t).go us).1 = s) :
    (∀ i l q e p d k, s.crowd.busy i = some (l, .insert ⟨e, e⟩ q) →
      content? s.crowd.entries e = some (p, d) → p ≠ .null →
      (∀ r, r <+: rest → (s.go r).1.Publishes k p) →
      content? (s.go rest).1.crowd.entries e = some (p, d) ∧ ∀ j v, ¬Deletes j e v (s.go rest).2) ∧
    (∀ i l (es : List Nat) e p d, s.crowd.busy i = some (l, .drain .detach) →
      Path s.crowd.entries.follow (s.crowd.list l).head (es.map some) none → e ∈ es →
      content? s.crowd.entries e = some (p, d) →
      (∀ r, r ++ [.step i] <+: rest → (s.go (.step i :: r)).1.Scans i →
        ¬(s.go (.step i :: r)).1.table.isProtected p) →
      t.capacity + 1 + 2 * es.length ≤ rest.countP (·.isStepOf i) ∨
        phaseOf ((s.go (.step i :: rest)).1.crowd.busy i) = none →
      Deletes i e (p, d) (s.go (.step i :: rest)).2) := by
  have b : s.Booked := reached ▸ (booked_start t).go us
  have size : s.table.capacity = t.capacity := reached ▸ (start t).capacity_go us
  constructor
  · intro i l q e p d k hi he hne published
    obtain ⟨sh, quiet⟩ := shielded_go b (shielded_of_insert b hi he k) hne published
    refine ⟨sh.content, fun j v ⟨before, mid, after, hlog, _⟩ => ?_⟩
    exact quiet (.unlinked e j v) (by rw [hlog]; simp) rfl
  · intro i l es e p d hi path hmem he unseen ended
    obtain done | ⟨n, doomed, hle⟩ := doomed_go b hi path hmem he unseen
    · exact done
    · have busy := doomed.phase
      have pos := doomed.pos
      obtain ended | ended := ended
      · omega
      · simp [ended] at busy

/-- A push while the address is published, up to the new entry. -/
def shielded : List Turn :=
  [.write (.claim 0 1), .write (.protect 0 (.node 7)), .call 0 0 (.push (.node 7) .node), .step 0]

/-- The entry comes to the list, and a pass takes it from there and puts it back. -/
def deferral : List Turn := [.step 0, .step 0, .call 1 0 .drain] ++ List.replicate 9 (.step 1)

/-- Nobody publishes the address any more, and the next pass begins. -/
def exposed : List Turn := shielded ++ deferral ++ [.write (.reset 0), .call 1 0 .drain]

/-- The address is published again, but only after the scan. -/
def deletion : List Turn :=
  List.replicate 3 (.step 1) ++ .write (.protect 1 (.node 7)) :: List.replicate 2 (.step 1)

theorem protection_defers_deletion_until_reset :
    content? (((start ⟨#[{}, {}], 1⟩).go shielded).1.go deferral).1.crowd.entries 0 = some (.node 7, .node) ∧
      Deletes 1 0 (.node 7, .node)
        (((start ⟨#[{}, {}], 1⟩).go exposed).1.go (.step 1 :: deletion)).2 := by
  have published : ∀ r ∈ deferral.inits,
      ((((start ⟨#[{}, {}], 1⟩).go shielded).1.go r).1.table.records[0]?).map Record.published =
        some (.node 7) := by decide +kernel
  have unseen : ∀ r ∈ deletion.inits,
      (phaseOf ((((start ⟨#[{}, {}], 1⟩).go exposed).1.go (.step 1 :: r)).1.crowd.busy 1)).any
          Phase.isScanning →
        ¬(((start ⟨#[{}, {}], 1⟩).go exposed).1.go (.step 1 :: r)).1.table.isProtected (.node 7) := by
    decide +kernel
  constructor
  · exact ((protection_defers_deletion _ shielded deferral rfl).1 0 0 .load 0 (.node 7) .node 0 (by rfl)
      (by decide +kernel) (by decide) fun r hr => published r ((List.mem_inits _ _).mpr hr)).1
  · refine (protection_defers_deletion _ exposed deletion rfl).2 1 0 [0] 0 (.node 7) .node (by rfl)
      ?_ (by simp) (by decide +kernel) (fun r hr => unseen r ?_) (.inl (by decide))
    · exact .cons (b := none) (by decide +kernel) (.nil none)
    · exact (List.mem_inits _ _).mpr ((List.prefix_append r [.step 1]).trans hr)

end Scene

end Parking

end LockFreeStack
