import LockFreeStack.Proofs.Hazard.Account
import LockFreeStack.Proofs.Hazard.Residue

/-!
How much a pop leaves behind. After a pop that has taken a node, with all other threads standing still,
its stack's list has the nodes that a record publishes and no others, so no more than the records that
publish.
-/

namespace LockFreeStack

variable {α : Type} {m m' : Memory α}

namespace Table

variable {tb : Table} {as : List Address}

/-- How many records publish something. -/
def publishing (tb : Table) : Nat := tb.records.countP fun r => r.published ≠ .null

theorem publishing_le_capacity (tb : Table) : tb.publishing ≤ tb.capacity := Array.countP_le_size

/-- Each published address takes a record. -/
theorem length_le_publishing (nodup : as.Nodup) (published : ∀ a ∈ as, tb.isProtected a) :
    as.length ≤ tb.publishing := by
  have sub : as ⊆ tb.shown.filter (· ≠ .null) := fun a ha => by
    obtain ⟨hne, hmem⟩ := isProtected_iff.mp (published a ha)
    exact List.mem_filter.mpr ⟨hmem, by simpa using hne⟩
  have shown : (tb.shown.filter (· ≠ .null)).length = tb.publishing := by
    rw [← List.countP_eq_length_filter, Table.shown, List.countP_map, publishing, ← Array.countP_toList]
    rfl
  exact shown ▸ (nodup.subperm sub).length_le

end Table

namespace Hazard

/-- The stack that a pop is about. -/
def Call.pops? : Call α → Option Nat
  | .pop s | .popWith s _ => some s
  | _ => none

/-- What becomes of the nodes `xs` parked on a stack's list and of the node on top when that is taken with
the value `v`: those that a record publishes are on the list, once each, and the others are freed. -/
structure Cleared (m m' : Memory α) (s : Nat) (v : α) (xs zs : List Deposit) : Prop where
  table : (m'.hazard s).table = (m.hazard s).table
  list : (m'.hazard s).list = (m.hazard s).list
  before : m.entries.Linked (m.list (m.hazard s).list).head xs none
  after : m'.entries.Linked (m'.list (m.hazard s).list).head zs none
  nodes : ∀ x ∈ xs ++ zs, x.deleter = .node
  taken : (m.nodes.plain? (m.hazard s).head).map Prod.fst = some v
  live : ∀ a, a ∈ xs.map Deposit.address ∨ a = (m.hazard s).head → m.nodes.isLiveAt a
  parked : ∀ a, a ∈ zs.map Deposit.address ↔
    (a ∈ xs.map Deposit.address ∨ a = (m.hazard s).head) ∧ (m'.table (m.hazard s).table).isProtected a
  freed : ∀ a, a ∈ xs.map Deposit.address ∨ a = (m.hazard s).head →
    ¬(m'.table (m.hazard s).table).isProtected a → m'.nodes.isLiveAt a = false
  nodup : (zs.map Deposit.address).Nodup

/-- There is no more garbage than there are protections. -/
theorem Cleared.length_le {s : Nat} {v : α} {xs zs : List Deposit} (k : Cleared m m' s v xs zs) :
    zs.length ≤ (m'.table (m.hazard s).table).publishing := by
  simpa using Table.length_le_publishing k.nodup fun a ha => ((k.parked a).mp ha).2

theorem Outset.Tidied.cleared {o : Outset α} {v : α} {zs : List Deposit} (tidied : o.Tidied m' zs)
    (home : o.Home m) (home' : o.Home m') (fresh : o.Fresh m) (value : o.value = some v)
    (live : ∀ a, o.Concerns a → m.nodes.isLiveAt a) (nodes : ∀ x ∈ o.deposits ++ zs, x.deleter = .node)
    (nodup : (zs.map Deposit.address).Nodup) :
    Cleared m m' o.stack v o.deposits zs where
  table := home'.table.trans home.table.symm
  list := home'.list.trans home.list.symm
  before := home.list.symm ▸ fresh.linked
  after := home.list.symm ▸ tidied.linked
  nodes := nodes
  taken := by rw [fresh.top, fresh.value, value]
  live := by rw [fresh.top]; exact live
  parked := by rw [fresh.top, home.table]; exact tidied.parked
  freed := by rw [fresh.top, home.table]; exact tidied.freed
  nodup := nodup

theorem Outset.Home.mono {o : Outset α} (k : o.Home m) (keeps : m.Keeps m') : o.Home m' := by
  obtain ⟨stack, table, list⟩ := keeps.grows o.stack k.stack
  exact ⟨stack, list.trans k.list, table.trans k.table, keeps.lists ▸ k.room⟩

/-- A pop begins with nothing done. -/
theorem Outset.residue_start {o : Outset α} {me : Thread} {c : Call α} {p : Point α} (home : o.Home m)
    (fresh : o.Fresh m) (hc : c.pops? = some o.stack) (h : c.start? m me = some p) : o.Residue m me p := by
  cases c with
  | pop s =>
    obtain rfl := Option.some.inj hc
    simp only [Call.start?, if_pos home.stack, Option.some.injEq] at h
    subst h
    rw [Point.pop, home.table]
    exact .acquire fresh _
  | popWith s slot =>
    obtain rfl := Option.some.inj hc
    simp only [Call.start?, if_pos home.stack] at h
    obtain ⟨d, -, rfl⟩ := Option.map_eq_some_iff.mp h
    exact .popWith fresh d
  | _ => cases hc

namespace Crowd

variable {x : Crowd α} {g : Ghost} {i s : Nat} {c : Call α} {v : α} {o : Outset α} {xs : List Deposit}

/-- Thread `i` is on its own with a pop that has begun with `o`. -/
structure Popping (x : Crowd α) (i : Nat) (o : Outset α) : Prop where
  home : o.Home x.memory
  residue : ∀ c p, x.busy i = some (c, p) → o.Residue x.memory (x.me i) p

theorem Popping.move (k : x.Popping i o) (orderly : x.Orderly) (hnode : ∀ y ∈ o.deposits, y.deleter = .node)
    {mv : Move α} (alone : mv = .step i ∨ mv = .miss i) : (x.move mv).Popping i o := by
  cases hb : x.busy i with
  | none =>
    have still : x.move mv = x := by
      obtain rfl | rfl := alone <;> simp [Crowd.move, hb]
    exact still.symm ▸ k
  | some b =>
    obtain ⟨c, p⟩ := b
    have residue := k.residue c p hb
    obtain rfl | rfl := alone
    · have keeps := Operation.keeps_step x.memory (x.me i) p ((orderly.seated_of_busy hb).fitting p rfl)
      have leads := residue.step k.home hnode
      simp only [Crowd.move, hb]
      rcases ho : Operation.step (x.memory, x.me i) p with ⟨st, q | answer | f, notes⟩ <;>
        simp only [Outset.Residue.Leads, ho] at keeps leads
      · refine ⟨k.home.mono keeps, fun c' q' hq => ?_⟩
        obtain ⟨rfl, rfl⟩ := Prod.mk.inj (Option.some.inj (busy_set_self.symm.trans hq))
        exact me_set_self (x := x) (i := i) ▸ leads
      · exact ⟨k.home.mono keeps, fun c' q' hq => by simp at hq⟩
      · exact k
    · cases hm : p.miss? x.memory with
      | none =>
        have still : x.move (.miss i) = x := by simp [Crowd.move, hb, hm]
        exact still.symm ▸ k
      | some out =>
        have keeps := Point.keeps_miss hm
        simp only [Crowd.move, hb, hm]
        refine ⟨k.home.mono keeps, fun c' q' hq => ?_⟩
        obtain ⟨rfl, rfl⟩ := Prod.mk.inj (Option.some.inj (busy_set_self.symm.trans hq))
        exact me_set_self (x := x) (i := i) ▸ residue.miss k.home hm

/-- The deposits on a stack's list are nodes of the stack. -/
theorem Stable.stage_of_linked (k : x.Stable g) (hs : s < x.memory.hazards.size)
    (linked : x.memory.entries.Linked (x.memory.list (x.memory.hazard s).list).head xs none) :
    ∀ y ∈ xs, y.deleter = .node ∧ g.stage y.address = .parked y.entry s := by
  intro y hy
  rw [← Memory.first_eq hs] at linked
  obtain ⟨z, hz, hd, stage⟩ := k.parks_of_listed (k.sound.stored.keeper_of_linked linked y hy)
  have content := linked.content y hy
  obtain ⟨ha, hd'⟩ : z.address = y.address ∧ z.deleter = y.deleter := by
    simpa [Parking.content?, hz, Deposit.call] using content
  exact ⟨hd' ▸ hd, ha ▸ stage⟩

/-- No node is parked twice. -/
theorem Stable.nodup_of_linked (k : x.Stable g) (hs : s < x.memory.hazards.size)
    (linked : x.memory.entries.Linked (x.memory.list (x.memory.hazard s).list).head xs none) :
    (xs.map Deposit.address).Nodup := by
  have stage := k.stage_of_linked hs linked
  refine List.Nodup.map_on (fun y hy z hz hyz => ?_) (.of_map _ linked.nodup)
  have hy' := (stage y hy).2
  rw [hyz, (stage z hz).2] at hy'
  exact (List.inj_on_of_nodup_map linked.nodup hz hy (Stage.parked.inj hy').1).symm

theorem Stable.isLiveAt_of_stage {a : Address} (k : x.Stable g) (ha : g.stage a ≠ .free) :
    x.memory.nodes.isLiveAt a := by
  obtain ⟨w, hw⟩ := k.sound.placed.exists_plain ha
  exact Nodes.isLiveAt_of_plain? hw

/-- Nothing has happened yet to the stack that a pop begins with. -/
theorem Stable.exists_outset (k : x.Stable g) (hs : s < x.memory.hazards.size) : ∃ o : Outset α,
    o.stack = s ∧ o.Home x.memory ∧ o.Fresh x.memory ∧ ∀ y ∈ o.deposits, y.deleter = .node := by
  obtain ⟨es, path, -⟩ := (k.sound.stored.listed s).exists_list
  rw [show x.memory.view.first s = _ from Memory.first_eq hs] at path
  obtain ⟨xs, -, linked⟩ := Entries.exists_linked path
  exact ⟨⟨s, (x.memory.hazard s).list, (x.memory.hazard s).table, (x.memory.hazard s).head,
      (x.memory.nodes.plain? (x.memory.hazard s).head).map Prod.fst, xs⟩,
    rfl, ⟨hs, rfl, rfl, k.proper.tidy.list_lt_size hs⟩, ⟨linked, rfl, rfl⟩,
    fun y hy => (k.stage_of_linked hs linked y hy).1⟩

/-- Thread `i` goes on with the pop that it has begun. -/
theorem popping_after {ms ns : List (Move α)} (idle : (after ms).busy i = none) (home : o.Home (after ms).memory)
    (fresh : o.Fresh (after ms).memory) (hnode : ∀ y ∈ o.deposits, y.deleter = .node)
    (pops : c.pops? = some o.stack) (alone : ∀ mv ∈ ns, mv = .step i ∨ mv = .miss i) :
    (after (ms ++ .call i c :: ns)).Popping i o := by
  induction ns using List.reverseRecOn with
  | nil =>
    rw [after_append_singleton]
    simp only [Crowd.move, idle]
    cases hc : c.start? (after ms).memory ((after ms).me i) with
    | none => exact ⟨home, fun c p hb => by simp [idle] at hb⟩
    | some p =>
      refine ⟨home, fun c' q hq => ?_⟩
      obtain ⟨rfl, rfl⟩ := Prod.mk.inj (Option.some.inj (busy_set_self.symm.trans hq))
      exact me_set_self (x := after ms) (i := i) ▸ Outset.residue_start home fresh pops hc
  | append_singleton ns mv ih =>
    rw [← List.cons_append, ← List.append_assoc, after_append_singleton]
    exact (ih fun mv h => alone mv (by simp [h])).move (orderly_after _) hnode (alone mv (by simp))

/-- A pop of a stack that is not there does not begin. -/
theorem idle_of_absent {ms ns : List (Move α)} (idle : (after ms).busy i = none) (pops : c.pops? = some s)
    (absent : ¬s < (after ms).memory.hazards.size) (alone : ∀ mv ∈ ns, mv = .step i ∨ mv = .miss i) :
    (after (ms ++ .call i c :: ns)).busy i = none := by
  induction ns using List.reverseRecOn with
  | nil =>
    have none : c.start? (after ms).memory ((after ms).me i) = none := by
      cases c with
      | pop t | popWith t slot =>
        obtain rfl := Option.some.inj pops
        exact if_neg absent
      | _ => cases pops
    rw [after_append_singleton]
    simp only [Crowd.move, idle, none]
  | append_singleton ns mv ih =>
    rw [← List.cons_append, ← List.append_assoc, after_append_singleton]
    have still := ih fun mv h => alone mv (by simp [h])
    obtain rfl | rfl := alone mv (by simp) <;> simp only [Crowd.move, still]

/-- A step that answers. -/
theorem done_of_answer {a : Answer α} (h : .answer i a ∈ x.moments s (.step i)) :
    ∃ c p, x.busy i = some (c, p) ∧ (Operation.step (x.memory, x.me i) p).next = .done a := by
  cases hb : x.busy i with
  | none => simp [moments, hb] at h
  | some b =>
    obtain ⟨c, p⟩ := b
    refine ⟨c, p, rfl, ?_⟩
    rw [moments_step s hb, List.mem_append] at h
    obtain h | h := h
    · simp at h
    · split at h
      · rename_i b hnext
        rw [hnext]
        split at h
        · obtain rfl : a = b := by simpa using h
          rfl
        · simp at h
      · simp at h

/-- A pop that takes a node while all other threads stand still, wherever they are, clears its stack's list
of all that no record publishes at the end, the node it has taken included. So there are no more nodes on
the list then than records that publish. -/
theorem pop_leaves_published (ms ns : List (Move α)) {i s : Nat} {c : Call α} {v : α} (pops : c.pops? = some s)
    (idle : (after ms).busy i = none) (alone : ∀ mv ∈ ns, mv = .step i ∨ mv = .miss i)
    (ends : .answer i (.popped (some v)) ∈ (after (ms ++ .call i c :: ns)).moments s (.step i)) :
    let m := (after ms).memory
    let m' := (after (ms ++ .call i c :: ns ++ [.step i])).memory
    ∃ xs zs, Cleared m m' s v xs zs ∧ zs.length ≤ (m'.table (m.hazard s).table).publishing ∧
      (m'.table (m.hazard s).table).publishing ≤ (m'.table (m.hazard s).table).capacity := by
  intro m m'
  obtain ⟨c', p, hb, hnext⟩ := done_of_answer ends
  have hs : s < m.hazards.size := by
    by_contra absent
    rw [idle_of_absent idle pops absent alone] at hb
    cases hb
  obtain ⟨g, k⟩ := stable_after ms
  obtain ⟨g', k'⟩ := stable_after (ms ++ .call i c :: ns ++ [.step i])
  obtain ⟨o, rfl, home, fresh, hnode⟩ := k.exists_outset hs
  have popping := popping_after idle home fresh hnode pops alone
  have leads := (popping.residue c' p hb).step popping.home hnode
  have home' := (popping.move (orderly_after _) hnode (.inl rfl)).home
  simp only [Outset.Residue.Leads, hnext] at leads
  obtain ⟨value, zs, tidied⟩ := leads v rfl
  have memory : m' = (Operation.step ((after (ms ++ .call i c :: ns)).memory,
      (after (ms ++ .call i c :: ns)).me i) p).memory.1 := by
    simp only [m', after_append_singleton, Crowd.move, hb]
    split <;> simp_all [Crowd.set]
  rw [← memory] at tidied
  rw [← after_append_singleton] at home'
  have live (a : Address) (ha : o.Concerns a) : m.nodes.isLiveAt a := by
    obtain ha | rfl := ha
    · obtain ⟨y, hy, rfl⟩ := List.mem_map.mp ha
      have stage := (k.stage_of_linked hs (home.list ▸ fresh.linked) y hy).2
      exact k.isLiveAt_of_stage (by simp [stage])
    · obtain ⟨w, hw, -⟩ := Option.map_eq_some_iff.mp (fresh.value.trans value)
      exact Nodes.isLiveAt_of_plain? hw
  have linked : m'.entries.Linked (m'.list (m'.hazard o.stack).list).head zs none := home'.list ▸ tidied.linked
  have nodes (y : Deposit) (hy : y ∈ o.deposits ++ zs) : y.deleter = .node :=
    (List.mem_append.mp hy).elim (hnode y) fun hy => (k'.stage_of_linked home'.stack linked y hy).1
  have cleared := tidied.cleared home home' fresh value live nodes (k'.nodup_of_linked home'.stack linked)
  exact ⟨o.deposits, zs, cleared, cleared.length_le, Table.publishing_le_capacity _⟩

/-- Thread 1 has published the node on top when thread 0 comes to pop it. -/
def intruded : List (Move Nat) :=
  [Move.change (.registry 2), Move.change (.stack 0), Move.call 0 (.push 0 7 true)] ++
    List.replicate 3 (Move.step 0) ++ Move.call 1 (.pop 0) :: List.replicate 10 (Move.step 1)

theorem pop_leaves_published_one : ∃ xs zs,
    Cleared (after intruded).memory
      (after (intruded ++ .call 0 (.pop 0) :: List.replicate 29 (.step 0) ++ [.step 0])).memory 0 7 xs zs ∧
      .node 0 ∈ zs.map Deposit.address ∧ zs.length ≤ 1 := by
  have ends : (after (intruded ++ .call 0 (.pop 0) :: List.replicate 29 (.step 0))).moments 0 (.step 0) =
      [.answer 0 (.popped (some 7))] := by rfl
  obtain ⟨xs, zs, cleared, few, -⟩ := pop_leaves_published intruded (List.replicate 29 (.step 0))
    (c := .pop 0) (s := 0) rfl (by decide +kernel) (fun mv h => .inl (List.eq_of_mem_replicate h))
    (ends ▸ List.mem_singleton_self _)
  refine ⟨xs, zs, cleared, (cleared.parked _).mpr ⟨.inr ?_, ?_⟩, few.trans ?_⟩ <;> decide +kernel

end Crowd

end Hazard

end LockFreeStack
