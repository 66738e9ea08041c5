import LockFreeStack.Proofs.Undertaking
import LockFreeStack.Slot.Protect

/-!
Protecting what a source holds while others change the source, any number of times and back again. An
address that is handed out has been read from the source at an instant when it was published already, and
it has been published since.
-/

namespace LockFreeStack

namespace Tables

variable {ts : Tables} {p q : Place}

theorem published_publish (there : (ts.record? p).isSome) (a : Address) : (ts.publish p a).published p = a := by
  obtain ⟨r, hr⟩ := Option.isSome_iff_exists.mp there
  simp [published, record?_publish, hr]

theorem published_update_of_ne (hq : q ≠ p) (f : Record → Record) :
    (ts.update q f).published p = ts.published p := by
  simp [published, record?_update, hq.symm]

end Tables

namespace Protect

/-- The source and all tables. -/
structure Scene where
  source : Address
  tables : Tables

/-- What others do meanwhile: they change the source, or write to records other than the one at `place`,
which belongs to the thread of the call. -/
inductive Change (place : Place) where
  | source (a : Address)
  | record (q : Place) (other : q ≠ place) (f : Record → Record)

variable {place : Place}

def Change.on (s : Scene) : Change place → Scene
  | source a => { s with source := a }
  | record q _ f => { s with tables := s.tables.update q f }

abbrev Turn (place : Place) := Undertaking.Turn (Change place)

abbrev Moment := Instant Scene Empty

/-- A step of the call. -/
def advance (place : Place) (s : Scene) (p : Point) : Outcome Scene Point Address Empty :=
  (step s.source place s.tables p).within (⟨s.source, ·⟩) id .done

/-- A call that publishes in the record at `place` what it finds in the source, amid the changes of
others. -/
def follow (place : Place) (s : Scene) (us : List (Turn place)) :
    Undertaking Scene Point Address × List Moment :=
  Undertaking.go (advance place) Change.on ⟨s, .goto .load⟩ us

/-- The call reads `a` from the source. -/
def Reads (z : Moment) (a : Address) : Prop :=
  z.memory.source = a ∧ .action (.headLoad (.link a)) ∈ z.notes

/-- The call publishes `a`. -/
def Stores (z : Moment) (a : Address) : Prop := .action (.hazardStore a) ∈ z.notes

/-- The call has published `a`, and its record has shown `a` since then, up to now. -/
def Standing (place : Place) (h : List Moment) (now : Scene) (a : Address) : Prop :=
  ∃ earlier x since, h = earlier ++ x :: since ∧ Stores x a ∧
    (∀ z ∈ since, z.memory.tables.published place = a) ∧ now.tables.published place = a

/-- Every address that the call has published it had read from the source before. -/
def Sourced (h : List Moment) : Prop :=
  ∀ earlier z a, earlier ++ [z] <+: h → Stores z a → ∃ w ∈ earlier, Reads w a

/-- Two scenes whose sources are the same, and whose records differ at most in what the one at `place`
publishes. -/
structure Alike (place : Place) (s s' : Scene) : Prop where
  source : s.source = s'.source
  elsewhere : ∀ q ≠ place, s.tables.record? q = s'.tables.record? q
  owner : (s.tables.record? place).map Record.owner = (s'.tables.record? place).map Record.owner

/-- Where a call stands. -/
inductive Course (place : Place) (h : List Moment) (now : Scene) : Next Point Address → Prop
  | load : Course place h now (.goto .load)
  | publish {a : Address} {w : Moment} (mem : w ∈ h) (read : Reads w a) :
    Course place h now (.goto (.publish a))
  | validate {a : Address} (standing : Standing place h now a) : Course place h now (.goto (.validate a))
  | ended {a : Address} {earlier : List Moment} {y : Moment} (last : h = earlier ++ [y])
    (standing : Standing place earlier y.memory a) (read : Reads y a)
    (still : now.tables.published place = a) : Course place h now (.done a)

section Steps

variable {h : List Moment} {now now' : Scene} {a : Address} {p : Point} {n : Next Point Address}

theorem Standing.here (s : Standing place h now a) : now.tables.published place = a := by
  obtain ⟨earlier, x, since, -, -, -, here⟩ := s
  exact here

/-- Others leave the record alone. -/
theorem Standing.later (s : Standing place h now a)
    (same : now'.tables.published place = now.tables.published place) :
    Standing place (h ++ [⟨now, []⟩]) now' a := by
  obtain ⟨earlier, x, since, rfl, store, published, here⟩ := s
  refine ⟨earlier, x, since ++ [⟨now, []⟩], by simp, store, fun z hz => ?_, same.trans here⟩
  obtain hz | hz := List.mem_append.mp hz
  · exact published z hz
  · exact List.mem_singleton.mp hz ▸ here

theorem Sourced.snoc (s : Sourced h) {z : Moment} (new : ∀ a, Stores z a → ∃ w ∈ h, Reads w a) :
    Sourced (h ++ [z]) := by
  intro earlier w a start store
  obtain whole | start := List.prefix_concat_iff.mp start
  · obtain ⟨rfl, last⟩ := List.append_inj' whole rfl
    obtain rfl := List.singleton_inj.mp last
    exact new a store
  · exact s earlier w a start store

theorem published_on (s : Scene) (d : Change place) :
    (d.on s).tables.published place = s.tables.published place := by
  cases d with
  | source a => rfl
  | record q other f => exact Tables.published_update_of_ne other f

theorem isSome_record?_on {s : Scene} (there : (s.tables.record? place).isSome) (d : Change place) :
    ((d.on s).tables.record? place).isSome := by
  cases d with
  | source a => exact there
  | record q other f => simpa [Change.on, Tables.record?_update, other.symm] using there

theorem isSome_record?_advance {s : Scene} (there : (s.tables.record? place).isSome) (p : Point) :
    ((advance place s p).memory.tables.record? place).isSome := by
  cases p with
  | publish a => simpa [advance, step, Outcome.within, Tables.record?_publish] using there
  | load | validate a => exact there

/-- What others do leaves a call where it is. -/
theorem Course.later (c : Course place h now (.goto p)) (d : Change place) :
    Course place (h ++ [⟨now, []⟩]) (d.on now) (.goto p) := by
  cases c with
  | load => exact .load
  | publish mem read => exact .publish (List.mem_append_left _ mem) read
  | validate standing => exact .validate (standing.later (published_on now d))

theorem Course.afterwards (c : Course place h now n) (d : Change place) (ended : ∀ p, n ≠ .goto p) :
    Course place h (d.on now) n := by
  cases c with
  | ended last standing read still => exact .ended last standing read ((published_on now d).trans still)
  | _ => exact (ended _ rfl).elim

/-- What the source holds has been read, and is published next. -/
theorem Course.read (s : Scene) {notes : List (Note Empty)}
    (read : .action (.headLoad (.link now.source)) ∈ notes) :
    Course place (h ++ [⟨now, notes⟩]) s (.goto (.publish now.source)) :=
  .publish (List.mem_append_right _ (List.mem_singleton_self _)) ⟨rfl, read⟩

theorem Course.step (c : Course place h now (.goto p)) (there : (now.tables.record? place).isSome) :
    Course place (h ++ [⟨now, (advance place now p).notes⟩]) (advance place now p).memory
      (advance place now p).next := by
  cases c with
  | load => exact .read now (List.mem_singleton_self _)
  | @publish a w mem read =>
    exact .validate ⟨h, _, [], rfl, List.mem_singleton_self _, nofun, Tables.published_publish there a⟩
  | @validate a standing =>
    by_cases ha : a = now.source
    · have next : (advance place now (.validate a)).next = .done a := by
        simp [advance, Protect.step, Outcome.within, Next.within, ha]
      rw [next]
      -- The source holds what the record shows already, and the call ends with this instant.
      exact .ended rfl standing ⟨ha.symm, ha ▸ List.mem_singleton_self _⟩ standing.here
    · have next : (advance place now (.validate a)).next = .goto (.publish now.source) := by
        simp [advance, Protect.step, Outcome.within, Next.within, ha]
      rw [next]
      exact .read now (List.mem_singleton_self _)

/-- Only what has been read is published. -/
theorem Course.sourced (c : Course place h now (.goto p)) (s : Sourced h) :
    Sourced (h ++ [⟨now, (advance place now p).notes⟩]) := by
  refine s.snoc fun a store => ?_
  cases c with
  | @publish b w mem read =>
    obtain rfl : a = b := by simpa [Stores, advance, Protect.step, Outcome.within] using store
    exact ⟨w, mem, read⟩
  | load | validate => simp [Stores, advance, Protect.step, Outcome.within] at store

end Steps

namespace Alike

variable {s s' : Scene}

theorem refl (place : Place) (s : Scene) : Alike place s s := ⟨rfl, fun _ _ => rfl, rfl⟩

/-- Others cannot tell the scenes apart. -/
theorem on (k : Alike place s s') (d : Change place) : Alike place (d.on s) (d.on s') := by
  cases d with
  | source a => exact ⟨rfl, k.elsewhere, k.owner⟩
  | record q other f =>
    refine ⟨k.source, fun p hp => ?_, ?_⟩
    · simp only [Change.on, Tables.record?_update, k.elsewhere p hp]
    · simpa only [Change.on, Tables.record?_update, if_neg other.symm] using k.owner

/-- The call writes to its own record, and there to what is published. -/
theorem advance (k : Alike place s s') (p : Point) : Alike place (Protect.advance place s p).memory s' := by
  cases p with
  | publish a =>
    refine ⟨k.source, fun q hq => ?_, ?_⟩
    · simpa only [Protect.advance, step, Outcome.within, Tables.record?_publish, if_neg hq]
        using k.elsewhere q hq
    · rw [← k.owner]
      simp only [Protect.advance, step, Outcome.within, Tables.record?_publish, if_true, Option.map_map]
      rfl
  | load | validate a => exact ⟨k.source, k.elsewhere, k.owner⟩

end Alike

/-- The steps that a call takes at most from a point on if the source holds `a` from then on. -/
def Point.left (a : Address) : Point → Nat
  | .load => 3
  | .publish b => if b = a then 2 else 4
  | .validate b => if b = a then 1 else 3

theorem Point.left_pos (a : Address) (p : Point) : 0 < p.left a := by
  cases p with
  | load => exact Nat.succ_pos 2
  | publish b | validate b =>
    simp only [left]
    split <;> exact Nat.succ_pos _

theorem left_advance {s : Scene} {p q : Point} (next : (advance place s p).next = .goto q) :
    q.left s.source < p.left s.source := by
  cases p with
  | load =>
    obtain rfl := Next.goto.inj next
    simp [Point.left]
  | publish b =>
    obtain rfl := Next.goto.inj next
    by_cases hb : b = s.source <;> simp [Point.left, hb]
  | validate b =>
    by_cases hb : b = s.source
    · simp [advance, step, Outcome.within, Next.within, hb] at next
    · obtain rfl : Point.publish s.source = q := by
        simpa [advance, step, Outcome.within, Next.within, hb] using next
      simp [Point.left, hb]

section Call

variable {s : Scene}

theorem course_follow (there : (s.tables.record? place).isSome) (us : List (Turn place)) :
    Sourced (follow place s us).2 ∧
      Course place (follow place s us).2 (follow place s us).1.memory (follow place s us).1.next := by
  refine (Undertaking.go_induction (fun x h => (x.memory.tables.record? place).isSome ∧ Sourced h ∧
    Course place h x.memory x.next) ⟨there, ?_, .load⟩ ?_ ?_ ?_ us).2
  · intro earlier z a start
    simp at start
  · rintro m p h ⟨there, sourced, course⟩
    exact ⟨isSome_record?_advance there p, course.sourced sourced, course.step there⟩
  · rintro m p h d ⟨there, sourced, course⟩
    exact ⟨isSome_record?_on there d, sourced.snoc nofun, course.later d⟩
  · rintro m n h d ended ⟨there, sourced, course⟩
    exact ⟨isSome_record?_on there d, sourced, course.afterwards d ended⟩

/-- A call whose source stands still is over after three steps. -/
theorem steps_lt_of_still {a : Address} {p : Point} {us : List (Turn place)}
    (still : ∀ z ∈ (follow place s us).2, z.memory.source = a) (now : (follow place s us).1.next = .goto p) :
    us.countP Undertaking.Turn.isStep < 3 := by
  have less (m : Scene) (q r : Point) (source : m.source = a) (next : (advance place m q).next = .goto r) :
      r.left a < q.left a := source ▸ left_advance next
  have le : p.left a + us.countP Undertaking.Turn.isStep ≤ Point.load.left a :=
    Undertaking.left_add_steps_le (Point.left a) (fun m => m.source = a) less rfl us still now
  exact Nat.lt_of_lt_of_le (Nat.lt_add_of_pos_left (p.left_pos a)) le

/-- If a call hands out an address, its last instant is one at which the source held this address, and the
record had published it without a break since the call had stored it there; and the record goes on publishing
it, whatever others do afterwards. Every address that the call has published it had read from the source
before. To all others it is as if there had been no call, but for what its own record publishes. A call
whose source stands still needs three steps. -/
theorem held_while_published (place : Place) (s : Scene) (us : List (Turn place))
    (there : (s.tables.record? place).isSome) :
    let x := (follow place s us).1
    let h := (follow place s us).2
    (∀ a, x.next = .done a → ∃ earlier y, h = earlier ++ [y] ∧ Standing place earlier y.memory a ∧
      Reads y a ∧ x.memory.tables.published place = a) ∧
    Sourced h ∧
    Alike place x.memory ((us.filterMap Undertaking.Turn.change?).foldl Change.on s) ∧
    (∀ a, (∀ z ∈ h, z.memory.source = a) → 3 ≤ us.countP Undertaking.Turn.isStep → x.next = .done a) := by
  intro x h
  obtain ⟨sourced, course⟩ : Sourced h ∧ Course place h x.memory x.next := course_follow there us
  have held {a : Address} (done : x.next = .done a) : ∃ earlier y, h = earlier ++ [y] ∧
      Standing place earlier y.memory a ∧ Reads y a ∧ x.memory.tables.published place = a := by
    rw [done] at course
    cases course with
    | ended last standing read still => exact ⟨_, _, last, standing, read, still⟩
  refine ⟨fun a => held, sourced, ?_, fun a still enough => ?_⟩
  · exact Undertaking.go_alike (Alike place) (fun m m' p k => k.advance p) (fun m m' d k => k.on d)
      (.refl place s) us
  · rcases hn : x.next with p | b | f
    · have few := steps_lt_of_still still hn
      omega
    · obtain ⟨earlier, y, last, -, ⟨source, -⟩, -⟩ := held hn
      rw [← source, still y (last ▸ List.mem_append_right _ (List.mem_singleton_self y))]
    · rw [hn] at course
      cases course

/-- The source changes before the address read is published, and changes and comes back before the next one
is read again. -/
def unsteady : List (Turn ⟨0, 0⟩) :=
  [.step, .change (.source (.node 2)), .step, .step,
    .change (.record ⟨0, 1⟩ (by decide) fun _ => ⟨5, .node 1⟩), .step,
    .change (.source (.node 1)), .change (.source (.node 2)), .step, .change (.source .null)]

theorem held_while_published_unsteady :
    let s : Scene := ⟨.node 1, #[⟨#[⟨3, .null⟩, {}], 1⟩]⟩
    (s.tables.record? ⟨0, 0⟩).isSome ∧ ∃ earlier y, (follow ⟨0, 0⟩ s unsteady).2 = earlier ++ [y] ∧
      Standing ⟨0, 0⟩ earlier y.memory (.node 2) ∧ Reads y (.node 2) ∧
      (follow ⟨0, 0⟩ s unsteady).1.memory.tables.published ⟨0, 0⟩ = .node 2 := by
  intro s
  have there : (s.tables.record? ⟨0, 0⟩).isSome := by decide
  exact ⟨there, (held_while_published ⟨0, 0⟩ s unsteady there).1 (.node 2) (by rfl)⟩

end Call

end Protect

end LockFreeStack
