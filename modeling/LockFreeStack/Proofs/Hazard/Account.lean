import LockFreeStack.Proofs.Hazard.Content
import LockFreeStack.Proofs.Hazard.Places
import LockFreeStack.Proofs.Hazard.Silence
import LockFreeStack.Proofs.Hazard.Sweep
import LockFreeStack.Proofs.Hazard.Tally

/-!
No node is lost. Every node is at one spot at any time, and when nothing is in flight a reclaim frees
all parked nodes that nobody publishes.
-/

namespace LockFreeStack.Hazard.Crowd

variable {α : Type} {x y : Crowd α} {i s l t : Nat} {c : Call α} {g : Ghost} {e : Nat}
  {linked held : Nat → List Nat}

section Alone

variable {z z' : Memory α × Drain.Point} {m : Memory α}

/-- The thread `i` has come to a point of a pass, with the memory as it is then. -/
def passing (x : Crowd α) (i : Nat) (c : Call α) (l t : Nat) (z : Memory α × Drain.Point) : Crowd α :=
  x.set i (z.1, x.me i) (some (c, .drain l t z.2))

theorem move_passing (x : Crowd α) (i : Nat) (c : Call α) (l t : Nat) (z : Memory α × Drain.Point) :
    (x.passing i c l t z).move (.step i) =
      match z.1.drainStep l t z.2 with
      | ⟨m, .goto p, _⟩ => x.passing i c l t (m, p)
      | ⟨m, .done _, _⟩ => x.set i (m, x.me i) none
      | ⟨_, .fault _, _⟩ => x.passing i c l t z := by
  have busy : (x.passing i c l t z).busy i = some (c, .drain l t z.2) := by simp [passing, Crowd.set]
  have me : (x.passing i c l t z).me i = x.me i := by simp [passing, Crowd.set]
  simp only [Crowd.move, busy, me, Operation.step, Outcome.within]
  rcases ho : z.1.drainStep l t z.2 with ⟨m, q | r | f, notes⟩ <;>
    simp only [show (x.passing i c l t z).memory = z.1 from rfl, ho, Next.within]
  · exact set_set ..
  · exact set_set ..

/-- A thread that nobody disturbs gets as far as its pass leads. -/
theorem passing_of_reaches (h : Drain.Reaches l t z z') :
    ∃ n, (List.replicate n (Move.step i)).foldl move (x.passing i c l t z) = x.passing i c l t z' := by
  induction h with
  | refl => exact ⟨0, rfl⟩
  | tail _ h ih =>
    obtain ⟨n, hn⟩ := ih
    obtain ⟨notes, h⟩ := h
    refine ⟨n + 1, ?_⟩
    rw [List.replicate_succ', List.foldl_append, hn]
    simp only [List.foldl_cons, List.foldl_nil, move_passing, h]

/-- A reclaim that nobody disturbs, of a stack whose parked nodes are not published. -/
theorem reclaim_alone {xs : List (Nat × Address)} (hi : x.busy i = none) (hs : s < x.memory.hazards.size)
    (hl : (x.memory.hazard s).list < x.memory.lists.size)
    (d : Drain.Deletable x.memory [] (x.memory.list (x.memory.hazard s).list).head xs)
    (unpublished : ∀ y ∈ xs, ∀ r ∈ (x.memory.table (x.memory.hazard s).table).records, r.published ≠ y.2) :
    ∃ n, (Move.call i (.reclaim s) :: List.replicate n (.step i)).foldl move x =
      x.set i ((Drain.sweep x.memory xs).setList (x.memory.hazard s).list
        ⟨none, (x.memory.list (x.memory.hazard s).list).pending - .ofNat xs.length⟩, x.me i) none := by
  obtain ⟨m, p, notes, reaches, done⟩ := d.exists_done hl unpublished
  obtain ⟨n, hn⟩ := passing_of_reaches (x := x) (i := i) (c := .reclaim s) reaches
  refine ⟨n + 1, ?_⟩
  have start : x.move (.call i (.reclaim s)) =
      x.passing i (.reclaim s) (x.memory.hazard s).list (x.memory.hazard s).table (x.memory, Drain.start) := by
    simp only [Crowd.move, hi, Call.start?, if_pos hs]
    rfl
  rw [List.foldl_cons, start, List.replicate_succ', List.foldl_append, hn]
  simp only [List.foldl_cons, List.foldl_nil, move_passing, done]

end Alone

/-- The entries on the parked list of a stack, with their nodes. -/
def parkedNodes (x : Crowd α) (es : List Nat) : List (Nat × Address) :=
  es.map fun e => (e, ((x.memory.entries.get? e).map Entry.address).getD .null)

namespace Stable

theorem parks_of_listed (k : x.Stable g) (he : g.keeper e = .listed s) :
    ∃ y, x.memory.entries.get? e = some y ∧ y.deleter = .node ∧ g.stage y.address = .parked e s := by
  have live := (k.sound.stored.live e).mpr (by simp [he])
  obtain ⟨y, hy⟩ := Option.isSome_iff_exists.mp live
  refine ⟨y, hy, k.sound.stored.deleter e y hy, ?_⟩
  exact k.stage_eq_parked.mpr ⟨⟨y, hy, rfl⟩, by rw [he]; rfl⟩

theorem deletable (k : x.Stable g) (hs : s < x.memory.hazards.size)
    (ls : Stored.Lists x.memory.entries x.memory.first (fun i => (x.role i).hand) g.keeper linked held) :
    Drain.Deletable x.memory [] (x.memory.list (x.memory.hazard s).list).head (x.parkedNodes (linked s)) := by
  have parks {e : Nat} (he : e ∈ linked s) := k.parks_of_listed (ls.mem_linked.mp he)
  have path := ls.path s
  rw [Memory.first_eq hs] at path
  refine ⟨?_, ?_, ?_, ?_, ?_, by simp⟩
  · simpa [parkedNodes, Function.comp_def] using path
  · simpa [parkedNodes, Function.comp_def] using ls.linked_nodup s
  · simp only [parkedNodes, List.map_map]
    refine List.Nodup.map_on (fun d hd e he hde => ?_) (ls.linked_nodup s)
    obtain ⟨y, hy, -, hp⟩ := parks hd
    obtain ⟨z, hz, -, hq⟩ := parks he
    have hyz : y.address = z.address := by simpa [hy, hz] using hde
    rw [hyz, hq] at hp
    exact ((Stage.parked.inj hp).1).symm
  · simp only [parkedNodes, List.forall_mem_map]
    intro e he
    obtain ⟨y, hy, hd, -⟩ := parks he
    exact ⟨y.next, by rw [hy, ← hd]; rfl⟩
  · simp only [parkedNodes, List.forall_mem_map]
    intro e he
    obtain ⟨y, hy, -, hp⟩ := parks he
    obtain ⟨v, hv⟩ := k.sound.placed.exists_plain (a := y.address) (by simp [hp])
    have hv : x.memory.nodes.plain? y.address = some v := hv
    simpa [hy] using Nodes.isLiveAt_of_plain? hv

end Stable

/-- No record of the stack's table publishes the node of one of these entries. -/
def Unpublished (x : Crowd α) (s : Nat) (es : List Nat) : Prop :=
  ∀ place r, place.table = (x.memory.hazard s).table → x.memory.tables.record? place = some r →
    ∀ e ∈ es, ¬x.Parks e r.published

/-- Nothing is in flight any more, nothing is parked on the stack's list, and the nodes of these entries
are gone. -/
structure Emptied (x : Crowd α) (s : Nat) (es : List Nat) (y : Crowd α) : Prop where
  rest : ∀ j, y.busy j = none
  isEmpty : (y.memory.list (y.memory.hazard s).list).isEmpty
  length : (y.memory.list (y.memory.hazard s).list).length = 0
  gone : ∀ e ∈ es, ∀ a, x.Parks e a → y.memory.nodes.isLiveAt a = false

theorem Stable.unpublished (k : x.Stable g)
    (ls : Stored.Lists x.memory.entries x.memory.first (fun i => (x.role i).hand) g.keeper linked held)
    (silent : ∀ place r, x.memory.tables.record? place = some r → r.published = .null) (s : Nat) :
    x.Unpublished s (linked s) := by
  intro place r _ hr e he hp
  obtain ⟨y, hy, -, hs⟩ := k.parks_of_listed (ls.mem_linked.mp he)
  obtain ⟨z, hz, ha⟩ := hp
  obtain rfl := Option.some.inj (hy.symm.trans hz)
  rw [ha, silent place r hr, k.sound.placed.stage_null] at hs
  cases hs

/-- A reclaim on its own empties the list of a stack of which no parked node is published. -/
theorem Stable.exists_emptied {ms : List (Move α)} (k : (after ms).Stable g)
    (ls : Stored.Lists (after ms).memory.entries (after ms).memory.first (fun i => ((after ms).role i).hand)
      g.keeper linked held)
    (rest : ∀ i, (after ms).busy i = none) (hs : s < (after ms).memory.hazards.size)
    (unpublished : (after ms).Unpublished s (linked s)) (i : Nat) :
    ∃ n, (after ms).Emptied s (linked s)
      (after (ms ++ Move.call i (.reclaim s) :: List.replicate n (.step i))) := by
  have hl := k.proper.tidy.list_lt_size hs
  have deletable := k.deletable hs ls
  have path := ls.path s
  rw [Memory.first_eq hs] at path
  have pending := pending_eq (fun i p => by simp [parked, rest i]) path
  obtain ⟨n, hn⟩ := reclaim_alone (rest i) hs hl deletable fun y hy r hr hp => by
    obtain ⟨e, he, rfl⟩ := List.mem_map.mp hy
    obtain ⟨z, hz, -, -⟩ := k.parks_of_listed (ls.mem_linked.mp he)
    obtain ⟨j, hj⟩ := Array.getElem?_of_mem hr
    rw [Memory.records_table] at hj
    exact unpublished _ r rfl hj e he ⟨z, hz, by simpa [hz] using hp.symm⟩
  refine ⟨n, ?_⟩
  have run : after (ms ++ Move.call i (.reclaim s) :: List.replicate n (.step i)) = _ :=
    (List.foldl_append ..).trans hn
  rw [run]
  have list := Memory.list_setList (m := Drain.sweep (after ms).memory ((after ms).parkedNodes (linked s))) hl
    ⟨none, ((after ms).memory.list ((after ms).memory.hazard s).list).pending -
      .ofNat ((after ms).parkedNodes (linked s)).length⟩
  refine ⟨fun j => ?_, (congrArg ParkedList.isEmpty list).trans rfl, ?_, fun e he a ha => ?_⟩
  · by_cases hj : j = i <;> simp [Crowd.set, hj, rest]
  · refine (congrArg ParkedList.length list).trans ?_
    simp [ParkedList.length, pending, parkedNodes]
  · obtain ⟨y, hy, ha⟩ := ha
    have hmem : a ∈ ((after ms).parkedNodes (linked s)).map Prod.snd :=
      List.mem_map.mpr ⟨(e, a), List.mem_map.mpr ⟨e, he, by simp [hy, ha]⟩, rfl⟩
    exact congrArg Option.isSome ((Drain.at?_sweep ..).trans (if_pos hmem))

/-- A thread that has never been called is not busy. -/
theorem busy_after_of_absent {ms : List (Move α)} (h : ∀ mv ∈ ms, mv.thread? ≠ some i) :
    (after ms).busy i = none := by
  induction ms using List.reverseRecOn with
  | nil => rfl
  | append_singleton ms mv ih =>
    rw [after_append_singleton, busy_move_of_ne (h mv (by simp))]
    exact ih fun mv hmv => h mv (by simp [hmv])

/-- Every place of node memory is at one spot at any time. When nothing is in flight, a reclaim frees
all nodes parked on its stack if no record publishes one of them, which leaves an empty list with a
counter of zero. If nobody publishes an address for its own sake, no record publishes anything then,
and so a reclaim always does that. -/
theorem every_node_accounted (ms : List (Move α)) :
    ∃ chain linked held, (after ms).Layout chain linked held ∧
      (∀ a, ∃! w, (after ms).Lies chain linked held a w) ∧
        ((∀ i, (after ms).busy i = none) →
          (∀ i, held i = []) ∧
          (∀ s < (after ms).memory.hazards.size, (after ms).Unpublished s (linked s) → ∀ i, ∃ n,
            (after ms).Emptied s (linked s)
              (after (ms ++ Move.call i (.reclaim s) :: List.replicate n (.step i)))) ∧
          ((∀ mv ∈ ms, mv.Tame) →
            (∀ place r, (after ms).memory.tables.record? place = some r → r.published = .null) ∧
            ∀ s < (after ms).memory.hazards.size, ∀ i, ∃ n, (after ms).Emptied s (linked s)
              (after (ms ++ Move.call i (.reclaim s) :: List.replicate n (.step i))))) := by
  obtain ⟨g, k⟩ := stable_after ms
  obtain ⟨linked, held, ls⟩ := k.sound.stored.exists_lists
  refine ⟨g.chain, linked, held, k.layout ls, k.existsUnique_lies (plain_after ms) ls,
    fun rest => ⟨fun i => ?_, fun s hs unpublished i => k.exists_emptied ls rest hs unpublished i, fun tame => ?_⟩⟩
  · have fills := ls.fills i
    rw [role, rest i] at fills
    exact fills.eq_nil
  · have silent place r (hr : (after ms).memory.tables.record? place = some r) :=
      published_eq_null tame rest hr
    exact ⟨silent, fun s hs i => k.exists_emptied ls rest hs (k.unpublished ls silent s) i⟩

/-- A pop parks the node that another one has published, and the other one finds the stack empty. -/
def standoff : List (Move Nat) :=
  [Move.change (.registry 2), Move.change (.stack 0), Move.call 0 (.push 0 7 true)] ++
    List.replicate 3 (Move.step 0) ++ Move.call 1 (.pop 0) :: List.replicate 10 (Move.step 1) ++
    Move.call 0 (.pop 0) :: List.replicate 30 (Move.step 0) ++ List.replicate 7 (Move.step 1)

theorem rest_standoff (i : Nat) : (after standoff).busy i = none := by
  match i with
  | 0 => decide +kernel
  | 1 => decide +kernel
  | n + 2 => exact busy_after_of_absent (by simp [standoff, Move.thread?])

theorem every_node_accounted_standoff :
    (∀ i, (after standoff).busy i = none) ∧ (∀ mv ∈ standoff, mv.Tame) ∧
      (after standoff).Parks 0 (.node 0) ∧ (after standoff).memory.nodes.isLiveAt (.node 0) ∧
        ∀ i, ∃ n, (after standoff).Emptied 0 [0]
          (after (standoff ++ Move.call i (.reclaim 0) :: List.replicate n (.step i))) := by
  have tame : ∀ mv ∈ standoff, mv.Tame := by simp [standoff, Move.Tame, Call.Tame]
  obtain ⟨chain, linked, held, layout, -, quiet⟩ := every_node_accounted standoff
  have path : Path (after standoff).memory.entries.follow ((after standoff).memory.first 0) [some 0] none := by
    rw [show (after standoff).memory.first 0 = some 0 by decide +kernel]
    exact .cons (b := none) (by decide +kernel) (.nil none)
  have linked_eq : linked 0 = [0] := by
    simpa using ((layout.list 0).unique rfl path rfl).1
  obtain ⟨-, -, always⟩ := quiet rest_standoff
  refine ⟨rest_standoff, tame, ?_, by decide +kernel, fun i => ?_⟩
  · exact Option.map_eq_some_iff.mp (by decide +kernel)
  · exact linked_eq ▸ (always tame).2 0 (by decide +kernel) i

end LockFreeStack.Hazard.Crowd
