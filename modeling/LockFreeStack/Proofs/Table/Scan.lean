import LockFreeStack.Proofs.Parking.Course
import LockFreeStack.Proofs.Undertaking

/-!
Looking through a table while others write to its records. A scan goes by what it has loaded, one address
from each record at an instant of its own. So it reports what one record publishes all the time, and only
what some record has published meanwhile, though all together need never have been published at once.
-/

namespace LockFreeStack

namespace Address

variable {a b c : Address} {as : List Address}

theorem before_trans (h : a.before b) (h' : b.before c) : a.before c := by
  cases a <;> cases b <;> cases c <;>
    simp_all only [before, Bool.false_eq_true, decide_eq_true_eq, UInt64.lt_iff_toNat_lt,
      UInt64.le_iff_toNat_le] <;> omega

theorem not_before_self (a : Address) : ¬a.before a := by
  cases a <;> simp [before]

theorem before_of_ne (hne : a ≠ b) (h : ¬a.before b) : b.before a := by
  cases a <;> cases b <;>
    simp_all only [before, ne_eq, reduceCtorEq, not_false_eq_true, not_true_eq_false, Bool.false_eq_true,
      decide_eq_true_eq, Address.number.injEq, Address.node.injEq, UInt64.lt_iff_toNat_lt,
      UInt64.le_iff_toNat_le, ← UInt64.toNat_inj] <;> omega

def Ascending (as : List Address) : Prop := as.Pairwise fun a b => a.before b

theorem Ascending.nodup (h : Ascending as) : as.Nodup := by
  refine List.Pairwise.imp (fun {a b} hab => ?_) h
  rintro rfl
  exact not_before_self a hab

theorem Ascending.insert (h : Ascending as) (a : Address) : Ascending (a.insert as) := by
  induction as with
  | nil => exact List.pairwise_singleton _ _
  | cons b as ih =>
    obtain ⟨first, rest⟩ := List.pairwise_cons.mp h
    unfold Address.insert
    split
    · exact h
    · rename_i hne
      split
      · rename_i hab
        refine List.pairwise_cons.mpr ⟨fun c hc => ?_, h⟩
        obtain rfl | hc := List.mem_cons.mp hc
        · exact hab
        · exact before_trans hab (first c hc)
      · rename_i hab
        refine List.pairwise_cons.mpr ⟨fun c hc => ?_, ih rest⟩
        obtain rfl | hc := (mem_insert a c as).mp hc
        · exact before_of_ne hne hab
        · exact first c hc

theorem length_insert_le (a : Address) (as : List Address) : (a.insert as).length ≤ as.length + 1 := by
  induction as with
  | nil => exact Nat.le_refl _
  | cons b as ih =>
    unfold Address.insert
    split
    · exact Nat.le_succ _
    · split
      · exact Nat.le_refl _
      · exact Nat.succ_le_succ ih

/-- What there is to report of the addresses loaded: those other than null, in ascending order and each
once. -/
def reported (loads : List Address) : List Address :=
  loads.foldl (fun met a => if a = .null then met else a.insert met) []

variable (loads : List Address)

@[simp] theorem reported_nil : reported [] = [] := rfl

theorem reported_snoc (a : Address) :
    reported (loads ++ [a]) = if a = .null then reported loads else a.insert (reported loads) := by
  simp only [reported, List.foldl_append, List.foldl_cons, List.foldl_nil]

theorem mem_reported (a : Address) : a ∈ reported loads ↔ a ≠ .null ∧ a ∈ loads := by
  induction loads using List.reverseRecOn with
  | nil => simp
  | append_singleton loads b ih =>
    rw [reported_snoc, List.mem_append, List.mem_singleton, and_or_left, ← ih]
    split
    · rename_i hb
      constructor
      · exact .inl
      · rintro (h | ⟨hne, rfl⟩)
        · exact h
        · exact (hne hb).elim
    · rename_i hb
      rw [mem_insert, or_comm]
      constructor
      · rintro (h | rfl)
        · exact .inl h
        · exact .inr ⟨hb, rfl⟩
      · rintro (h | ⟨-, rfl⟩)
        · exact .inl h
        · exact .inr rfl

theorem ascending_reported : Ascending (reported loads) := by
  induction loads using List.reverseRecOn with
  | nil => exact .nil
  | append_singleton loads b ih =>
    rw [reported_snoc]
    split
    · exact ih
    · exact ih.insert b

theorem length_reported_le : (reported loads).length ≤ loads.length := by
  induction loads using List.reverseRecOn with
  | nil => exact Nat.le_refl _
  | append_singleton loads b ih =>
    rw [reported_snoc, List.length_append, List.length_singleton]
    split
    · exact Nat.le_succ_of_le ih
    · exact (length_insert_le b _).trans (Nat.succ_le_succ ih)

end Address

namespace Table

variable {t : Table}

theorem length_shown (t : Table) : t.shown.length = t.capacity := by
  simp [shown, capacity]

/-- At rest a table publishes what there is to report of its records. -/
theorem publications_eq (t : Table) : t.publications = Address.reported t.shown := by
  rw [publications, Address.reported, shown, List.foldl_map, Array.foldl_toList]

theorem isProtected_iff_mem_publications {a : Address} : t.isProtected a ↔ a ∈ t.publications := by
  rw [publications_eq, Address.mem_reported, isProtected_iff]

end Table

namespace Scan

/-- A write of another thread to a record, whatever it puts there. -/
structure Write where
  index : Nat
  value : Record → Record

def Write.on (t : Table) (w : Write) : Table := t.update w.index w.value

@[simp] theorem Write.capacity_on (t : Table) (w : Write) : (Write.on t w).capacity = t.capacity :=
  t.capacity_update _ _

abbrev Turn := Undertaking.Turn Write

/-- The instants of a scan. A scan shows nothing but its answer. -/
abbrev Instants := List (Instant Table Empty)

variable {κ ρ : Type}

/-- A scan of the table, one load to a step, amid writes of others. -/
def amid (scan : Table → κ → Next κ ρ) (t : Table) (k : κ) (us : List Turn) :
    Undertaking Table κ ρ × Instants :=
  Undertaking.go (fun t k => ⟨t, scan t k, []⟩) Write.on ⟨t, .goto k⟩ us

/-- A search for the address `a`. -/
def search (a : Address) (t : Table) (us : List Turn) : Undertaking Table Nat Bool × Instants :=
  amid (fun t i => find t a i) t 0 us

/-- A snapshot of the addresses published. -/
def snapshot (t : Table) (us : List Turn) : Undertaking Table Collected (List Address) × Instants :=
  amid collect t {} us

section Amid

variable {scan : Table → κ → Next κ ρ} {t : Table} {k k' : κ}

/-- What holds at the start of a scan, and is kept by every load and by the mere passing of an instant, holds
after all turns. -/
theorem amid_induction (P : Instants → Next κ ρ → Prop) (start : P [] (.goto k))
    (load : ∀ t' q h, t'.capacity = t.capacity → P h (.goto q) → P (h ++ [⟨t', []⟩]) (scan t' q))
    (later : ∀ q h t', t'.capacity = t.capacity → P h (.goto q) → P (h ++ [⟨t', []⟩]) (.goto q))
    (us : List Turn) : P (amid scan t k us).2 (amid scan t k us).1.next := by
  refine (Undertaking.go_induction (fun x h => x.memory.capacity = t.capacity ∧ P h x.next) ⟨rfl, start⟩
    ?_ ?_ ?_ us).2
  · rintro m q h ⟨size, p⟩
    exact ⟨size, load m q h size p⟩
  · rintro m q h w ⟨size, p⟩
    exact ⟨(w.capacity_on m).trans size, later q h m size p⟩
  · rintro m n h w - ⟨size, p⟩
    exact ⟨(w.capacity_on m).trans size, p⟩

theorem capacity_amid (us : List Turn) : ∀ z ∈ (amid scan t k us).2, z.memory.capacity = t.capacity := by
  have snoc (h : Instants) (t' : Table) (size : t'.capacity = t.capacity)
      (sizes : ∀ z ∈ h, z.memory.capacity = t.capacity) :
      ∀ z ∈ h ++ [⟨t', []⟩], z.memory.capacity = t.capacity := by
    rintro z hz
    obtain hz | hz := List.mem_append.mp hz
    · exact sizes z hz
    · exact List.mem_singleton.mp hz ▸ size
  exact amid_induction (fun h _ => ∀ z ∈ h, z.memory.capacity = t.capacity) nofun
    (fun t' _ h => snoc h t') (fun _ h t' => snoc h t') us

/-- A scan that goes on has taken no more steps than there are records. -/
theorem steps_le_capacity (position : κ → Nat) (begins : position k = 0)
    (advances : ∀ t q q', scan t q = .goto q' → position q < t.capacity ∧ position q' = position q + 1)
    {us : List Turn} (now : (amid scan t k us).1.next = .goto k') :
    us.countP Undertaking.Turn.isStep ≤ t.capacity := by
  have bound : ∀ q, (amid scan t k us).1.next = .goto q → position q ≤ t.capacity := by
    refine amid_induction (fun _ n => ∀ q, n = .goto q → position q ≤ t.capacity) ?_ ?_ ?_ us
    · rintro q hq
      obtain rfl := Next.goto.inj hq
      omega
    · intro t' q h size _ q' hq
      obtain ⟨lt, next⟩ := advances t' q q' hq
      omega
    · intro q h t' _ le
      exact le
  have less (m : Table) (q q' : κ) (size : m.capacity = t.capacity) (hq : scan m q = .goto q') :
      t.capacity + 1 - position q' < t.capacity + 1 - position q := by
    obtain ⟨lt, next⟩ := advances m q q' hq
    omega
  have left := Undertaking.left_add_steps_le (fun q => t.capacity + 1 - position q)
    (fun m => m.capacity = t.capacity) less rfl us (capacity_amid us) now
  have le := bound k' now
  omega

/-- A scan answers when it has taken as many steps as there are records, and one more. -/
theorem exists_answer (position : κ → Nat) (begins : position k = 0)
    (advances : ∀ t q q', scan t q = .goto q' → position q < t.capacity ∧ position q' = position q + 1)
    {us : List Turn} (enough : t.capacity < us.countP Undertaking.Turn.isStep)
    (safe : ∀ f, (amid scan t k us).1.next ≠ .fault f) : ∃ r, (amid scan t k us).1.next = .done r := by
  rcases hn : (amid scan t k us).1.next with q | r | f
  · have le := steps_le_capacity position begins advances hn
    omega
  · exact ⟨r, rfl⟩
  · exact (safe f hn).elim

end Amid

/-- What a scan of `n` records has loaded by now, each address from the record of its own index at one of
the instants `h`. -/
structure Loaded (n : Nat) (h : Instants) (loads : List Address) : Prop where
  length_le : loads.length ≤ n
  exists_instant : ∀ (k : Nat) (a : Address), loads[k]? = some a → ∃ z ∈ h, z.memory.shown[k]? = some a

namespace Loaded

variable {n : Nat} {h : Instants} {loads : List Address} {t : Table} {a : Address}

theorem nil (n : Nat) (h : Instants) : Loaded n h [] := ⟨Nat.zero_le n, nofun⟩

theorem later (l : Loaded n h loads) (z : Instant Table Empty) : Loaded n (h ++ [z]) loads where
  length_le := l.length_le
  exists_instant k a hk := by
    obtain ⟨w, hw, hs⟩ := l.exists_instant k a hk
    exact ⟨w, List.mem_append_left _ hw, hs⟩

/-- The next record is loaded. -/
theorem load (l : Loaded t.capacity h loads) {r : Record} (hr : t.records[loads.length]? = some r) :
    Loaded t.capacity (h ++ [⟨t, []⟩]) (loads ++ [r.published]) where
  length_le := by
    rw [List.length_append, List.length_singleton]
    exact (Array.getElem?_eq_some_iff.mp hr).1
  exists_instant k a hk := by
    rw [List.getElem?_append] at hk
    split at hk
    · exact (l.later _).exists_instant k a hk
    · obtain ⟨hk0, rfl⟩ : k - loads.length = 0 ∧ r.published = a := by
        simpa [List.getElem?_singleton] using hk
      obtain rfl : k = loads.length := by omega
      exact ⟨⟨t, []⟩, by simp, by rw [Table.shown_get?, hr]; rfl⟩

theorem full (l : Loaded t.capacity h loads) (none : t.records[loads.length]? = none) :
    loads.length = t.capacity :=
  Nat.le_antisymm l.length_le (Array.getElem?_eq_none_iff.mp none)

theorem mem_of_steady (l : Loaded n h loads) {k : Nat} (hk : k < loads.length)
    (steady : ∀ z ∈ h, z.memory.shown[k]? = some a) : a ∈ loads := by
  obtain ⟨z, hz, hs⟩ := l.exists_instant k _ (List.getElem?_eq_getElem hk)
  obtain rfl := Option.some.inj (hs.symm.trans (steady z hz))
  exact List.getElem_mem hk

theorem exists_mem_shown (l : Loaded n h loads) (ha : a ∈ loads) : ∃ z ∈ h, a ∈ z.memory.shown := by
  obtain ⟨k, hk⟩ := List.mem_iff_getElem?.mp ha
  obtain ⟨z, hz, hs⟩ := l.exists_instant k a hk
  exact ⟨z, hz, List.mem_iff_getElem?.mpr ⟨k, hs⟩⟩

/-- Where nothing changes, what is loaded is what is there. -/
theorem eq_shown (l : Loaded n h loads) (length : loads.length = t.capacity)
    (same : ∀ z ∈ h, z.memory.shown = t.shown) : loads = t.shown := by
  refine List.ext_getElem? fun k => ?_
  cases hk : loads[k]? with
  | some a =>
    obtain ⟨z, hz, hs⟩ := l.exists_instant k a hk
    rw [← same z hz, hs]
  | none =>
    have hlen : t.shown.length ≤ k := by
      rw [Table.length_shown, ← length]
      exact List.getElem?_eq_none_iff.mp hk
    exact (List.getElem?_eq_none hlen).symm

end Loaded

/-- What a scan of `n` records that is under way at the instants `h` must report of the address `a`, and
what it may. -/
structure Faithful (n : Nat) (h : Instants) (a : Address) (reported : Prop) : Prop where
  complete : a ≠ .null → ∀ k < n, (∀ z ∈ h, z.memory.shown[k]? = some a) → reported
  sound : reported → ∃ z ∈ h, a ∈ z.memory.shown
  ne_null : reported → a ≠ .null

/-- How far a search for `a` among `n` records has come. -/
inductive Searched (a : Address) (n : Nat) (h : Instants) : Next Nat Bool → Prop
  | onward {loads : List Address} (l : Loaded n h loads) (unmet : a ∉ loads) :
    Searched a n h (.goto loads.length)
  | found {loads : List Address} (l : Loaded n h loads) (met : a ∈ loads) (hne : a ≠ .null) :
    Searched a n h (.done true)
  | absent {loads : List Address} (l : Loaded n h loads) (full : loads.length = n) (unmet : a ∉ loads) :
    Searched a n h (.done false)
  | null (hnull : a = .null) : Searched a n h (.done false)

/-- How far a snapshot of `n` records has come. -/
inductive Gathered (n : Nat) (h : Instants) : Next Collected (List Address) → Prop
  | onward {loads : List Address} (l : Loaded n h loads) :
    Gathered n h (.goto ⟨loads.length, Address.reported loads⟩)
  | complete {loads : List Address} (l : Loaded n h loads) (full : loads.length = n) :
    Gathered n h (.done (Address.reported loads))

namespace Searched

variable {a : Address} {n i : Nat} {h : Instants} {t : Table} {found : Bool}

theorem later (s : Searched a n h (.goto i)) (z : Instant Table Empty) : Searched a n (h ++ [z]) (.goto i) := by
  cases s with
  | onward l unmet => exact .onward (l.later z) unmet

theorem step (s : Searched a t.capacity h (.goto i)) :
    Searched a t.capacity (h ++ [⟨t, []⟩]) (find t a i) := by
  cases s with
  | @onward loads l unmet =>
    unfold find
    split
    · exact .null ‹_›
    · rename_i hne
      cases hr : t.records[loads.length]? with
      | none => exact .absent (l.later _) (l.full hr) unmet
      | some r =>
        dsimp only
        split
        · rename_i hp
          exact .found (l.load hr) (by simp [hp]) hne
        · rename_i hp
          have onward := Searched.onward (a := a) (l.load hr) (by simp [unmet, Ne.symm hp])
          rwa [List.length_append, List.length_singleton] at onward

theorem faithful (s : Searched a n h (.done found)) : Faithful n h a (found = true) := by
  cases s with
  | found l met hne => exact ⟨fun _ _ _ _ => rfl, fun _ => l.exists_mem_shown met, fun _ => hne⟩
  | absent l full unmet =>
    -- Every record has been loaded at an instant when it would have shown a steady address.
    exact ⟨fun _ k hk steady => (unmet (l.mem_of_steady (full ▸ hk) steady)).elim, nofun, nofun⟩
  | null hnull => exact ⟨fun hne => (hne hnull).elim, nofun, nofun⟩

theorem eq_isProtected (s : Searched a t.capacity h (.done found))
    (same : ∀ z ∈ h, z.memory.shown = t.shown) : found = t.isProtected a := by
  refine Bool.eq_iff_iff.mpr ?_
  rw [Table.isProtected_iff]
  cases s with
  | found l met hne =>
    obtain ⟨z, hz, hmem⟩ := l.exists_mem_shown met
    simp [hne, ← same z hz, hmem]
  | absent l full unmet => simp [← l.eq_shown full same, unmet]
  | null hnull => simp [hnull]

end Searched

namespace Gathered

variable {n : Nat} {h : Instants} {t : Table} {c : Collected} {met : List Address}

theorem later (g : Gathered n h (.goto c)) (z : Instant Table Empty) : Gathered n (h ++ [z]) (.goto c) := by
  cases g with
  | onward l => exact .onward (l.later z)

theorem step (g : Gathered t.capacity h (.goto c)) :
    Gathered t.capacity (h ++ [⟨t, []⟩]) (collect t c) := by
  cases g with
  | @onward loads l =>
    unfold collect
    cases hr : t.records[loads.length]? with
    | none => exact .complete (l.later _) (l.full hr)
    | some r =>
      have onward := Gathered.onward (l.load hr)
      rwa [List.length_append, List.length_singleton, Address.reported_snoc] at onward

theorem faithful (g : Gathered n h (.done met)) (a : Address) : Faithful n h a (a ∈ met) := by
  cases g with
  | complete l full =>
    rw [Address.mem_reported]
    exact ⟨fun hne k hk steady => ⟨hne, l.mem_of_steady (full ▸ hk) steady⟩,
      fun hmem => l.exists_mem_shown hmem.2, And.left⟩

theorem nodup (g : Gathered n h (.done met)) : met.Nodup := by
  cases g with
  | @complete loads l full => exact (Address.ascending_reported loads).nodup

theorem length_le (g : Gathered n h (.done met)) : met.length ≤ n := by
  cases g with
  | @complete loads l full => exact full ▸ Address.length_reported_le loads

theorem eq_publications (g : Gathered t.capacity h (.done met))
    (same : ∀ z ∈ h, z.memory.shown = t.shown) : met = t.publications := by
  cases g with
  | complete l full => rw [l.eq_shown full same, t.publications_eq]

end Gathered

theorem searched (a : Address) (t : Table) (us : List Turn) :
    Searched a t.capacity (search a t us).2 (search a t us).1.next :=
  amid_induction (Searched a t.capacity) (.onward (.nil _ _) List.not_mem_nil)
    (fun _ _ _ size s => size ▸ (size ▸ s).step) (fun _ _ t' _ s => s.later ⟨t', []⟩) us

theorem gathered (t : Table) (us : List Turn) :
    Gathered t.capacity (snapshot t us).2 (snapshot t us).1.next :=
  amid_induction (Gathered t.capacity) (.onward (.nil _ _))
    (fun _ _ _ size g => size ▸ (size ▸ g).step) (fun _ _ t' _ g => g.later ⟨t', []⟩) us

theorem find_eq_goto {a : Address} {t : Table} {i j : Nat} (h : find t a i = .goto j) :
    i < t.capacity ∧ j = i + 1 := by
  unfold find at h
  split at h
  · cases h
  · cases hr : t.records[i]? with
    | none => simp [hr] at h
    | some r =>
      rw [hr] at h
      dsimp only at h
      split at h <;> cases h
      exact ⟨(Array.getElem?_eq_some_iff.mp hr).1, rfl⟩

theorem collect_eq_goto {t : Table} {c d : Collected} (h : collect t c = .goto d) :
    c.next < t.capacity ∧ d.next = c.next + 1 := by
  unfold collect at h
  cases hr : t.records[c.next]? with
  | none => simp [hr] at h
  | some r =>
    rw [hr] at h
    cases h
    exact ⟨(Array.getElem?_eq_some_iff.mp hr).1, rfl⟩

section Ends

variable {t : Table} {us : List Turn} (enough : t.capacity < us.countP Undertaking.Turn.isStep)

include enough

theorem exists_found (a : Address) : ∃ found, (search a t us).1.next = .done found := by
  have safe (f : Fault) : (search a t us).1.next ≠ .fault f := fun hf => by
    have s := searched a t us
    rw [hf] at s
    cases s
  exact exists_answer (fun i => i) rfl (fun _ _ _ => find_eq_goto) enough safe

theorem exists_met : ∃ met, (snapshot t us).1.next = .done met := by
  have safe (f : Fault) : (snapshot t us).1.next ≠ .fault f := fun hf => by
    have g := gathered t us
    rw [hf] at g
    cases g
  exact exists_answer Collected.next rfl (fun _ _ _ => collect_eq_goto) enough safe

end Ends

/-- Whatever others write meanwhile, a search and a snapshot come to an end and report an address that one
record publishes all the time; what they report some record has published at an instant of the scan, and it
is not null; a snapshot has no more addresses than there are records, and each once. Where the records
publish the same at all instants of both, whoever owns them, the two agree with each other and with what
is published. -/
theorem scans_faithful (t t' : Table) (a : Address) (us vs : List Turn) :
    let x := search a t us
    let y := snapshot t' vs
    (t.capacity < us.countP Undertaking.Turn.isStep → ∃ found, x.1.next = .done found) ∧
    (t'.capacity < vs.countP Undertaking.Turn.isStep → ∃ met, y.1.next = .done met) ∧
    (∀ found, x.1.next = .done found → Faithful t.capacity x.2 a (found = true)) ∧
    (∀ met, y.1.next = .done met →
      (∀ b, Faithful t'.capacity y.2 b (b ∈ met)) ∧ met.Nodup ∧ met.length ≤ t'.capacity) ∧
    (t'.shown = t.shown → (∀ z ∈ x.2 ++ y.2, z.memory.shown = t.shown) →
      ∀ found met, x.1.next = .done found → y.1.next = .done met →
        found = t.isProtected a ∧ met = t.publications ∧ (found = true ↔ a ∈ met)) := by
  intro x y
  have s : Searched a t.capacity x.2 x.1.next := searched a t us
  have g : Gathered t'.capacity y.2 y.1.next := gathered t' vs
  refine ⟨fun enough => exists_found enough a, exists_met, fun found hx => ?_, fun met hy => ?_,
    fun start same found met hx hy => ?_⟩
  · rw [hx] at s
    exact s.faithful
  · rw [hy] at g
    exact ⟨g.faithful, g.nodup, g.length_le⟩
  · rw [hx] at s
    rw [hy, ← Table.length_shown, start, Table.length_shown] at g
    obtain rfl := s.eq_isProtected fun z hz => same z (List.mem_append_left _ hz)
    obtain rfl := g.eq_publications fun z hz => same z (List.mem_append_right _ hz)
    exact ⟨rfl, rfl, Table.isProtected_iff_mem_publications⟩

/-- The second record publishes a node. -/
def watched : Table := ⟨#[{}, ⟨2, .node 7⟩], 1⟩

/-- It goes on publishing this node, though it is given away, and the other record is written to behind the
scan. -/
def passing : List Turn :=
  [.step, .change ⟨0, fun r => { r with published := .node 3 }⟩, .step,
    .change ⟨1, fun r => { r with owner := 5 }⟩, .step]

theorem scans_faithful_passing :
    (search (.node 7) watched passing).1.next = .done true ∧
      ∃ met, (snapshot watched passing).1.next = .done met ∧ .node 7 ∈ met ∧ met.length ≤ 2 := by
  obtain ⟨ends, ends', finds, meets, -⟩ := scans_faithful watched watched (.node 7) passing passing
  obtain ⟨found, hfound⟩ := ends (by decide)
  obtain ⟨met, hmet⟩ := ends' (by decide)
  obtain rfl := (finds found hfound).complete (by decide) 1 (by decide) (by decide +kernel)
  obtain ⟨faithful, -, few⟩ := meets met hmet
  exact ⟨hfound, met, hmet, (faithful _).complete (by decide) 1 (by decide) (by decide +kernel), few⟩

/-- An address that wanders behind the scan is missed, though some record publishes it at every instant. -/
example : (search (.node 7) watched [.step, .change ⟨0, fun _ => ⟨2, .node 7⟩⟩, .change ⟨1, fun _ => {}⟩,
    .step, .step]).1.next = .done false := by rfl

end Scan

end LockFreeStack
