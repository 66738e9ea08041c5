import LockFreeStack.Memory
import LockFreeStack.Proofs.Parking.Chains
import Mathlib.Logic.Relation

/-!
A pass that nobody disturbs, over a list of which no node is published. It deletes all nodes parked
there and leaves an empty list with a counter of zero.
-/

namespace LockFreeStack

variable {α : Type} {m : Memory α} {l t : Nat}

theorem Memory.setParking_list (hl : l < m.lists.size) (h : Entries) :
    m.withoutEntries.setParking l ⟨h, m.list l⟩ = { m with entries := h } := by
  have same : m.lists.setIfInBounds l (m.list l) = m.lists := by
    refine Array.ext_getElem? fun k => ?_
    rw [Array.getElem?_setIfInBounds]
    split
    · rename_i hk
      subst hk
      simp [list, hl]
    · rfl
  simp only [setParking, setList, withoutEntries, same]

theorem Memory.list_setList (hl : l < m.lists.size) (x : ParkedList) : (m.setList l x).list l = x := by
  simp [list, setList, hl]

theorem Memory.setList_setList (m : Memory α) (l : Nat) (x y : ParkedList) :
    (m.setList l x).setList l y = m.setList l y := by
  simp [setList]

namespace Drain

/-- One step of a pass over the list `l` against the table `t` that does not end it. -/
def Goes (l t : Nat) (x y : Memory α × Point) : Prop :=
  ∃ notes, x.1.drainStep l t x.2 = ⟨y.1, .goto y.2, notes⟩

abbrev Reaches (l t : Nat) : Memory α × Point → Memory α × Point → Prop := Relation.ReflTransGen (Goes l t)

/-- `xs` are the entries from `at?` on, each with its node, which is live and not among the addresses
met. -/
structure Deletable (m : Memory α) (met : List Address) (at? : Option Nat) (xs : List (Nat × Address)) :
    Prop where
  path : Path m.entries.follow at? (xs.map fun x => some x.1) none
  entries : (xs.map Prod.fst).Nodup
  nodes : (xs.map Prod.snd).Nodup
  entry : ∀ x ∈ xs, ∃ next, m.entries.get? x.1 = some ⟨x.2, .node, next⟩
  live : ∀ x ∈ xs, m.nodes.isLiveAt x.2
  unmet : ∀ x ∈ xs, x.2 ∉ met

/-- The memory without these entries and their nodes. -/
def sweep (m : Memory α) (xs : List (Nat × Address)) : Memory α :=
  { m with
    entries := xs.foldl (fun h x => h.free x.1) m.entries
    nodes := xs.foldl (fun h x => h.release x.2) m.nodes }

section Walk

variable {w : Walk} {e : Nat} {a : Address} {xs : List (Nat × Address)} {met : List Address}
  {at? : Option Nat}

/-- The snapshot has nothing but what records publish. -/
theorem reaches_walk (hl : l < m.lists.size) (first : Nat) (c : Scan.Collected) :
    ∃ met, Reaches l t (m, .snapshot first c) (m, .walk ⟨some first, none, 0, 0, met⟩) ∧
      ∀ a ∈ met, a ∈ c.met ∨ ∃ r ∈ (m.table t).records, r.published = a := by
  have same : m.withoutEntries.setParking l (m.parking l) = m := Memory.setParking_list hl m.entries
  induction hn : (m.table t).records.size - c.next generalizing c with
  | zero =>
    have hr : (m.table t).records[c.next]? = none := Array.getElem?_eq_none (by omega)
    refine ⟨c.met, .single ⟨[], ?_⟩, fun a ha => .inl ha⟩
    simp [Memory.drainStep, step, Scan.collect, hr, Outcome.within, Next.within, same]
  | succ n ih =>
    have hlt : c.next < (m.table t).records.size := by omega
    have hr := Array.getElem?_eq_getElem hlt
    obtain ⟨met, reaches, only⟩ := ih ⟨c.next + 1,
      if (m.table t).records[c.next].published = .null then c.met
        else (m.table t).records[c.next].published.insert c.met⟩ (by simp only; omega)
    refine ⟨met, .head ⟨[], ?_⟩ reaches, fun a ha => ?_⟩
    · simp only [Memory.drainStep, step, Scan.collect, hr, Outcome.within, Next.within, same, id_eq]
    · obtain ha | ha := only a ha
      · split at ha
        · exact .inl ha
        · obtain rfl | ha := (Address.mem_insert _ _ _).mp ha
          · exact .inr ⟨_, Array.getElem_mem hlt, rfl⟩
          · exact .inl ha
      · exact .inr ha

/-- The first entry is unlinked, and its node deleted. -/
theorem Deletable.reaches_next (d : Deletable m w.met w.at? ((e, a) :: xs)) (hl : l < m.lists.size) :
    ∃ next, Reaches l t (m, .walk w)
        (sweep m [(e, a)], .walk { w with at? := next, reclaimed := w.reclaimed + 1 }) ∧
      Deletable (sweep m [(e, a)]) w.met next xs := by
  obtain ⟨next, he⟩ := d.entry (e, a) (by simp)
  have live := d.live (e, a) (by simp)
  have unmet := d.unmet (e, a) (by simp)
  obtain ⟨hne, entries⟩ := List.nodup_cons.mp d.entries
  obtain ⟨hna, nodes⟩ := List.nodup_cons.mp d.nodes
  obtain ⟨hat, b, hb, rest⟩ := Path.cons_iff.mp d.path
  obtain rfl : next = b := by simpa [← hat, Entries.follow, he] using hb
  have kept {k : Nat} (hk : k ≠ e) : Heap.get? (m.entries.free e) k = m.entries.get? k := by
    rw [Heap.get?_free, if_neg hk]
  have ne {x : Nat × Address} (hx : x ∈ xs) : x.1 ≠ e ∧ x.2 ≠ a := by
    constructor <;> rintro rfl
    · exact hne (List.mem_map.mpr ⟨x, hx, rfl⟩)
    · exact hna (List.mem_map.mpr ⟨x, hx, rfl⟩)
  have apart {k : Nat} (hk : some k ∈ xs.map fun x => some x.1) : k ≠ e := by
    obtain ⟨x, hx, hxk⟩ := List.mem_map.mp hk
    exact Option.some.inj hxk ▸ (ne hx).1
  have self : next ≠ some e := by
    rintro rfl
    obtain ⟨_, _, hcons, -, -⟩ := rest.exists_cons (by simp)
    exact apart (by simp [hcons]) rfl
  refine ⟨next, ?_, Entries.path_congr rest fun k hk => kept (apart hk), entries, nodes, fun x hx => ?_,
    fun x hx => ?_, fun x hx => d.unmet x (by simp [hx])⟩
  · have unlinked : Goes l t (m, .walk w) ({ m with entries := m.entries.free e },
        .delete a .node { w with at? := next, reclaimed := w.reclaimed + 1 }) := by
      refine ⟨[], ?_⟩
      simp [Memory.drainStep, step, ← hat, Memory.parking, he, self, unmet, Outcome.within, Next.within,
        Memory.setParking_list hl]
    exact .head unlinked (.single ⟨m.deletion a .node, if_pos live⟩)
  · obtain ⟨n, h⟩ := d.entry x (by simp [hx])
    exact ⟨n, (kept (ne hx).1).trans h⟩
  · have h := d.live x (by simp [hx])
    unfold Nodes.isLiveAt at h ⊢
    simp only [sweep, List.foldl_cons, List.foldl_nil, Nodes.at?_release, if_neg (ne hx).2]
    exact h

theorem sweep_cons (m : Memory α) (x : Nat × Address) (xs : List (Nat × Address)) :
    sweep (sweep m [x]) xs = sweep m (x :: xs) := rfl

theorem Deletable.reaches_settle (d : Deletable m w.met w.at? xs) (hl : l < m.lists.size) :
    Reaches l t (m, .walk w)
      (sweep m xs, .settle { w with at? := none, reclaimed := w.reclaimed + xs.length }) := by
  induction xs generalizing m w with
  | nil =>
    have hat : w.at? = none := Path.nil_iff.mp d.path
    have same : m.withoutEntries.setParking l (m.parking l) = m := Memory.setParking_list hl m.entries
    refine .single ⟨[], ?_⟩
    obtain ⟨_, kept, deferred, reclaimed, met⟩ := w
    subst hat
    simp only [Memory.drainStep, step, Outcome.within, Next.within, same, id_eq]
    rfl
  | cons x xs ih =>
    obtain ⟨next, reaches, rest⟩ := d.reaches_next (e := x.1) (a := x.2) hl (t := t)
    have settled := ih (w := { w with at? := next, reclaimed := w.reclaimed + 1 }) rest hl
    rw [sweep_cons] at settled
    have hlen : w.reclaimed + (x :: xs).length = w.reclaimed + 1 + xs.length := by
      rw [List.length_cons]
      omega
    rw [hlen]
    exact reaches.trans settled

theorem at?_sweep (m : Memory α) (xs : List (Nat × Address)) (a : Address) :
    (sweep m xs).nodes.at? a = if a ∈ xs.map Prod.snd then none else m.nodes.at? a := by
  induction xs generalizing m with
  | nil => rfl
  | cons x xs ih =>
    rw [← sweep_cons, ih, List.map_cons]
    show (if a ∈ xs.map Prod.snd then none else (m.nodes.release x.2).at? a) = _
    rw [Nodes.at?_release]
    simp only [List.mem_cons]
    by_cases hx : a = x.2
    · simp [hx]
    · simp only [hx, if_false, false_or]

theorem sweep_setList (m : Memory α) (xs : List (Nat × Address)) (x : ParkedList) :
    sweep (m.setList l x) xs = (sweep m xs).setList l x := rfl

/-- A pass that finds all nodes unpublished deletes them all, and what it is to subtract from the
counter is the number of them. -/
theorem Deletable.exists_done (d : Deletable m [] (m.list l).head xs) (hl : l < m.lists.size)
    (unpublished : ∀ x ∈ xs, ∀ r ∈ (m.table t).records, r.published ≠ x.2) :
    ∃ m' p notes, Reaches l t (m, start) (m', p) ∧
      m'.drainStep l t p =
        ⟨(sweep m xs).setList l ⟨none, (m.list l).pending - .ofNat xs.length⟩, .done (.ok xs.length), notes⟩ := by
  cases xs with
  | nil =>
    have hat : (m.list l).head = none := Path.nil_iff.mp d.path
    refine ⟨m, start, [.action (.listSwap false)], .refl, ?_⟩
    have same : (⟨none, (m.list l).pending - .ofNat ([] : List (Nat × Address)).length⟩ : ParkedList) = m.list l := by
      rw [← hat]
      simp
    rw [same]
    simp only [start, Memory.drainStep, step, Memory.parking, hat, Outcome.within, Next.within]
    rfl
  | cons x xs =>
    obtain ⟨hat, -⟩ := Path.cons_iff.mp d.path
    have detached : Goes l t (m, start) (m.setList l ⟨none, (m.list l).pending⟩, .snapshot x.1 {}) := by
      refine ⟨[.action (.listSwap true)], ?_⟩
      simp only [start, Memory.drainStep, step, Memory.parking, ← hat, Outcome.within, Next.within]
      rfl
    have hl' : l < (m.setList l ⟨none, (m.list l).pending⟩).lists.size := by simpa [Memory.setList] using hl
    obtain ⟨met, walk, only⟩ := reaches_walk (t := t) hl' x.1 {}
    have deletable : Deletable (m.setList l ⟨none, (m.list l).pending⟩) met (some x.1) (x :: xs) := by
      have path := d.path
      rw [← hat] at path
      refine ⟨path, d.entries, d.nodes, d.entry, d.live, fun y hy hm => ?_⟩
      obtain hm | ⟨r, hr, hp⟩ := only y.2 hm
      · cases hm
      · exact unpublished y hy r hr hp
    have settle := Deletable.reaches_settle (t := t) (w := ⟨some x.1, none, 0, 0, met⟩) deletable hl'
    refine ⟨_, _, [.log (.pass (x :: xs).length 0)], .head detached (walk.trans settle), ?_⟩
    simp only [Memory.drainStep, step, Memory.parking, sweep_setList, Outcome.within, Next.within, Nat.zero_add,
      Memory.list_setList (m := sweep m (x :: xs)) hl]
    congr 1
    exact Memory.setList_setList (sweep m (x :: xs)) l _ _

end Walk

end Drain

end LockFreeStack
