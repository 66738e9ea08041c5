import LockFreeStack.Proofs.Solo.Session

/-!
A counted stack with one thread. A pair that points to a node counts the reference of the chain
alone, and no node has any references returned to it, so the first pop of a node releases it.
-/

namespace LockFreeStack

variable {α : Type}

namespace Nodes

variable {h : Nodes α} {p q : Pair Address} {k : Nat} {v : α}

/-- A node under a pair that counts one reference, with none returned to it. -/
def openAlone? (h : Nodes α) (p : Pair Address) : Option (Nat × α × Pair Address) :=
  match p.address, h.counted? p.address with
  | .node k, some (v, q, n) => if p.count = 1 ∧ n = 0 then some (k, v, q) else none
  | _, _ => none

theorem openAlone?_eq_some :
    h.openAlone? p = some (k, v, q) ↔ p = ⟨1, .node k⟩ ∧ h.counted? (.node k) = some (v, q, 0) := by
  obtain ⟨c, a⟩ := p
  cases a with
  | node j =>
    cases hj : h.counted? (.node j) with
    | none =>
      simp only [openAlone?, hj, reduceCtorEq, Pair.mk.injEq, Address.node.injEq, false_iff]
      rintro ⟨⟨-, rfl⟩, hk⟩
      simp [hj] at hk
    | some y =>
      obtain ⟨w, r, n⟩ := y
      simp only [openAlone?, hj, Option.ite_none_right_eq_some, Option.some.injEq, Prod.mk.injEq,
        Pair.mk.injEq, Address.node.injEq]
      constructor
      · rintro ⟨⟨rfl, rfl⟩, rfl, rfl, rfl⟩
        exact ⟨⟨rfl, rfl⟩, hj⟩
      · rintro ⟨⟨rfl, rfl⟩, hk⟩
        rw [hj] at hk
        obtain ⟨rfl, rfl, rfl⟩ : w = v ∧ r = q ∧ n = 0 := by simpa using hk
        exact ⟨⟨rfl, rfl⟩, rfl, rfl, rfl⟩
  | _ => simp [openAlone?]

theorem openAlone?_congr {h' : Nodes α} (e : h'.counted? p.address = h.counted? p.address) :
    h'.openAlone? p = h.openAlone? p := by
  unfold openAlone?
  rw [e]

/-- What is beyond the nodes that stay as they are stays as it is. -/
theorem Piled.keep {h' : Nodes α} {l : List (Nat × α)} {c : Pair Address} (p : Piled h.openAlone? q l c)
    (same : ∀ k ∈ l.map Prod.fst, h'.counted? (.node k) = h.counted? (.node k)) :
    Piled h'.openAlone? q l c := by
  refine p.congr fun a k v b hk ho => ?_
  obtain ⟨rfl, -⟩ := openAlone?_eq_some.mp ho
  rw [openAlone?_congr (same k hk), ho]

end Nodes

namespace Counted

variable {h : Nodes α} {head next : Pair Address} {v : α} {k : Nat} {c : UInt64}

theorem Push.runs (h : Nodes α) (head : Pair Address) (v : α) :
    Runs Push.step ⟨h, head⟩ (.allocate v true) 3 []
      ⟨Nodes.updateAt (h.alloc (.counted v ⟨0, .null⟩ 0)) (.node h.next) (·.setPair head),
        ⟨1, .node h.next⟩⟩ (.done (.ok ())) := by
  have there : Nodes.counted? (h.alloc (.counted v ⟨0, .null⟩ 0)) (.node h.next) =
      some (v, ⟨0, .null⟩, 0) := by simp [Nodes.counted?_alloc]
  have link : Push.step ⟨h.alloc (.counted v ⟨0, .null⟩ 0), head⟩ (.link (.node h.next) head) =
      ⟨⟨Nodes.updateAt (h.alloc (.counted v ⟨0, .null⟩ 0)) (.node h.next) (·.setPair head),
        ⟨1, .node h.next⟩⟩, .done (.ok ()), [exchanged head ⟨1, .node h.next⟩ head]⟩ := by
    simp [Push.step, there]
  exact .quiet rfl rfl (.quiet rfl rfl (.quietly link rfl))

theorem Pop.runs_empty (h : Nodes α) (hc : c.toNat + 1 < UInt64.size) :
    Runs Pop.step ⟨h, ⟨c, .null⟩⟩ .load 2 [] ⟨h, ⟨c + 1, .null⟩⟩ (.done (.ok none)) := by
  have bump : Pop.step ⟨h, ⟨c, .null⟩⟩ (.bump ⟨c, .null⟩) = ⟨⟨h, ⟨c + 1, .null⟩⟩, .done (.ok none),
      [exchanged ⟨c, .null⟩ ⟨c + 1, .null⟩ ⟨c, .null⟩]⟩ := by
    simp [Pop.step, Pair.bump, hc]
  exact .quiet rfl rfl (.quietly bump rfl)

/-- The pop counts the second reference to the node, and folds a surplus of nothing. -/
theorem Pop.runs_node (there : h.counted? (.node k) = some (v, next, 0)) :
    Runs Pop.step ⟨h, ⟨1, .node k⟩⟩ .load 7 [.freed k]
      ⟨(h.updateAt (.node k) (·.setInternal 0)).release (.node k), next⟩ (.done (.ok (some v))) := by
  have live : (h.updateAt (.node k) (·.setInternal 0)).isLiveAt (.node k) :=
    Nodes.isLiveAt_of_counted? (x := (v, next, 0)) (by simp [Nodes.counted?_setInternal, there])
  have least : Int64.minValue.toInt ≤ (2 : UInt64).toInt64.toInt - 2 := by decide
  have zero : (2 : UInt64).toInt64 - 2 = 0 := by decide
  have surplus : (Pair.mk 2 (Address.node k)).surplus = .ok 0 := by
    rw [Pair.surplus]
    dsimp only
    rw [if_pos least, zero]
  have two : (Pair.mk 1 (Address.node k)).bump = .ok ⟨2, .node k⟩ :=
    if_pos (by decide : (1 : UInt64).toNat + 1 < UInt64.size)
  have negatable : (0 : Int64) ≠ Int64.minValue := by decide
  have bump : Pop.step ⟨h, ⟨1, .node k⟩⟩ (.bump ⟨1, .node k⟩) = ⟨⟨h, ⟨2, .node k⟩⟩,
      .goto (.readNext ⟨2, .node k⟩), [exchanged ⟨1, .node k⟩ ⟨2, .node k⟩ ⟨1, .node k⟩]⟩ := by
    simp [Pop.step, two]
  have readNext : Pop.step ⟨h, ⟨2, .node k⟩⟩ (.readNext ⟨2, .node k⟩) =
      ⟨⟨h, ⟨2, .node k⟩⟩, .goto (.detach ⟨2, .node k⟩ next), []⟩ := by
    simp [Pop.step, there]
  have detach : Pop.step ⟨h, ⟨2, .node k⟩⟩ (.detach ⟨2, .node k⟩ next) = ⟨⟨h, next⟩,
      .goto (.take ⟨2, .node k⟩), [exchanged ⟨2, .node k⟩ next ⟨2, .node k⟩]⟩ := by
    simp [Pop.step]
  have take : Pop.step ⟨h, next⟩ (.take ⟨2, .node k⟩) =
      ⟨⟨h, next⟩, .goto (.fold ⟨2, .node k⟩ v), []⟩ := by
    simp [Pop.step, there]
  have fold : Pop.step ⟨h, next⟩ (.fold ⟨2, .node k⟩ v) =
      ⟨⟨h.updateAt (.node k) (·.setInternal 0), next⟩, .goto (.release (.node k) v),
        [.action (.countAdd 0 0)]⟩ := by
    simp [Pop.step, surplus, there, negatable]
  have release : Pop.step ⟨h.updateAt (.node k) (·.setInternal 0), next⟩ (.release (.node k) v) =
      ⟨⟨(h.updateAt (.node k) (·.setInternal 0)).release (.node k), next⟩, .done (.ok (some v)),
        [.freed k]⟩ := by
    simp [Pop.step, live, Address.freed]
  exact .quiet rfl rfl (.quiet bump rfl (.quiet readNext rfl (.quiet detach rfl (.quiet take rfl
    (.quiet fold rfl (.last release))))))

end Counted

namespace Memory

variable {m : Memory α} {s : Nat}

theorem store_setStore (hs : s < m.counteds.size) (x : Counted.Store α) : (m.setStore s x).store s = x := by
  simp [store, setStore, setPair, pair, hs]

theorem setStore_store (m : Memory α) (s : Nat) : m.withoutNodes.setStore s (m.store s) = m := by
  obtain ⟨nodes, entries, tables, lists, hazards, counteds, cells⟩ := m
  simp only [setStore, withoutNodes, store, setPair, pair]
  congr
  apply Array.ext_getElem?
  intro i
  rw [Array.getElem?_setIfInBounds]
  split
  · rename_i hi
    subst hi
    split
    · simp [*]
    · rename_i hlt
      simp [Array.getElem?_eq_none (Nat.le_of_not_lt hlt)]
  · rfl

theorem setStore_withoutNodes (x y : Counted.Store α) :
    (m.withoutNodes.setStore s x).withoutNodes.setStore s y = m.withoutNodes.setStore s y := by
  simp [setStore, withoutNodes, setPair]

end Memory

namespace Counted

variable {m : Memory α} {s n : Nat} {x : Store α} {q : List (Note α)}

theorem Push.runs_operation (me : Thread) (hs : s < m.counteds.size) {p : Push α} {o : Next (Push α) (Except Failure Unit)}
    (h : Runs Push.step (m.store s) p n q x o) :
    Runs Operation.step (m, me) (.countedPush s p) n q (m.withoutNodes.setStore s x, me)
      (o.within (.countedPush s) fun r => .done (.ofPush r)) := by
  have hs' : s < m.withoutNodes.counteds.size := hs
  have hruns := h.within Operation.step (fun x => (m.withoutNodes.setStore s x, me))
    (.countedPush s) (fun r => .done (.ofPush r)) fun x p => by
      simp only [Operation.step, Memory.store_setStore hs', Memory.setStore_withoutNodes]
  rwa [Memory.setStore_store] at hruns

theorem Pop.runs_operation (me : Thread) (hs : s < m.counteds.size) {p : Pop α}
    {o : Next (Pop α) (Except Trouble (Option α))} (h : Runs Pop.step (m.store s) p n q x o) :
    Runs Operation.step (m, me) (.countedPop s p) n q (m.withoutNodes.setStore s x, me)
      (o.within (.countedPop s) fun r => .done (.ofPop r)) := by
  have hs' : s < m.withoutNodes.counteds.size := hs
  have hruns := h.within Operation.step (fun x => (m.withoutNodes.setStore s x, me))
    (.countedPop s) (fun r => .done (.ofPop r)) fun x p => by
      simp only [Operation.step, Memory.store_setStore hs', Memory.setStore_withoutNodes]
  rwa [Memory.setStore_store] at hruns

end Counted

namespace Solo

open Session

/-- A session with a counted stack that holds the pile. The null pair at the bottom has been raised
at most `n` times. -/
structure CountedFor (n : Nat) (x : Session α) (p : Pile α) : Prop where
  stack : x.stack = .counted 0
  there : 0 < x.state.1.counteds.size
  filled : Filled x.state.1.nodes p
  chain : ∃ c : UInt64, c.toNat ≤ n ∧
    Piled x.state.1.nodes.openAlone? (x.state.1.pair 0) p.content ⟨c, .null⟩

namespace CountedFor

variable {n : Nat} {x : Session α} {p : Pile α} {m : Memory α} {me : Thread} {s : StackRef}
  {y : Counted.Store α}

/-- A session that goes on with another store. -/
theorem setStore (h : CountedFor n ⟨(m, me), s⟩ p) {n' : Nat} {p' : Pile α} (filled : Filled y.nodes p')
    (chain : ∃ c : UInt64, c.toNat ≤ n' ∧ Piled y.nodes.openAlone? y.head p'.content ⟨c, .null⟩) :
    CountedFor n' ⟨(m.withoutNodes.setStore 0 y, me), s⟩ p' := by
  have hs : 0 < m.withoutNodes.counteds.size := h.there
  have hstore := Memory.store_setStore hs y
  have hpair : (m.withoutNodes.setStore 0 y).pair 0 = y.head := congrArg Counted.Store.head hstore
  refine ⟨h.stack, ?_, filled, ?_⟩
  · simpa [Memory.setStore, Memory.setPair] using hs
  · rw [hpair]
    exact chain

theorem push (h : CountedFor n x p) (v : α) (granted : Bool) :
    Shows (CountedFor n) (x.push v granted) (p.push v granted) := by
  obtain ⟨⟨m, me⟩, s⟩ := x
  obtain rfl : s = .counted 0 := h.stack
  have hs : 0 < m.counteds.size := h.there
  have enough := le_patience m me
  cases granted with
  | false =>
    have refused : Counted.Push.step (m.store 0) (.allocate v false) =
        ⟨m.store 0, .done (.error .allocation), [.dropped v]⟩ := rfl
    have hop := Counted.Push.runs_operation me hs (.last refused)
    rw [Memory.setStore_store] at hop
    exact finish_of_runs hop (by omega) h rfl rfl
  | true =>
    have hop := Counted.Push.runs_operation me hs (Counted.Push.runs m.nodes (m.pair 0) v)
    refine finish_of_runs hop (by omega) (h.setStore (h.filled.push _ _ v) ?_) rfl rfl
    obtain ⟨c, hc, chain⟩ := h.chain
    have hnext : m.nodes.next = p.made := (Heap.next_of_spare h.filled.spare).trans h.filled.size
    refine ⟨c, hc, .cons ?_ (Nodes.Piled.keep chain fun k hk => ?_)⟩
    · rw [Nodes.openAlone?_eq_some, ← hnext]
      simp [Nodes.counted?_setPair, Nodes.counted?_alloc]
    · have hne : k ≠ m.nodes.next := fun e => h.filled.next_notMem (e ▸ hk)
      simp [Nodes.counted?_setPair, Nodes.counted?_alloc, hne]

theorem pop (h : CountedFor n x p) (some : p.content ≠ []) :
    Shows (CountedFor n) x.pop p.pop := by
  obtain ⟨⟨m, me⟩, s⟩ := x
  obtain rfl : s = .counted 0 := h.stack
  have hs : 0 < m.counteds.size := h.there
  have enough := le_patience m me
  obtain ⟨_ | ⟨⟨k, v⟩, rest⟩, made⟩ := p
  · exact absurd rfl some
  obtain ⟨c, hc, chain⟩ := h.chain
  cases chain
  rename_i next hopen chain
  obtain ⟨hpair, hnode⟩ := Nodes.openAlone?_eq_some.mp hopen
  have hrun : Runs Counted.Pop.step (m.store 0) .load 7 [.freed k]
      ⟨(m.nodes.updateAt (.node k) (·.setInternal 0)).release (.node k), next⟩
      (.done (.ok (Option.some v))) := by
    have hrun := Counted.Pop.runs_node hnode
    rwa [← hpair] at hrun
  have hop := Counted.Pop.runs_operation me hs hrun
  have filled := (h.filled.updateAt (.node k) (·.setInternal 0)).pop
  refine finish_of_runs hop (by omega) (h.setStore filled ⟨c, hc, ?_⟩) rfl rfl
  refine Nodes.Piled.keep chain fun j hj => ?_
  have hjk : j ≠ k := fun e => (List.nodup_cons.mp h.filled.nodup).1 (e ▸ hj)
  simp [Nodes.counted?_release, Nodes.counted?_setInternal, hjk]

/-- A pop that finds nothing raises the count of the null pair. -/
theorem miss (h : CountedFor n x p) (none : p.content = []) (few : n < 2 ^ 62) :
    Shows (CountedFor (n + 1)) x.pop p.pop := by
  obtain ⟨⟨m, me⟩, s⟩ := x
  obtain rfl : s = .counted 0 := h.stack
  have hs : 0 < m.counteds.size := h.there
  have enough := le_patience m me
  obtain ⟨content, made⟩ := p
  obtain rfl : content = [] := none
  obtain ⟨c, hc, chain⟩ := h.chain
  have hpair : m.pair 0 = ⟨c, .null⟩ := by
    generalize m.pair 0 = head at chain
    cases chain
    rfl
  have hlt : c.toNat + 1 < UInt64.size := by
    rw [show UInt64.size = 2 ^ 64 from rfl]
    omega
  have hrun := Counted.Pop.runs_empty m.nodes hlt
  rw [← hpair] at hrun
  have hop := Counted.Pop.runs_operation me hs hrun
  refine finish_of_runs hop (by omega) (h.setStore h.filled ⟨c + 1, ?_, .nil _⟩) rfl rfl
  rw [UInt64.toNat_add, UInt64.toNat_one, Nat.mod_eq_of_lt hlt]
  omega

theorem isEmpty (h : CountedFor n x p) :
    Shows (CountedFor n) (finish x.state x.stack (.isEmpty x.stack)) p.isEmpty := by
  obtain ⟨⟨m, me⟩, s⟩ := x
  obtain rfl : s = .counted 0 := h.stack
  have enough := le_patience m me
  have hrun : Runs Operation.step (m, me) (.isEmpty (.counted 0)) 1 [] (m, me)
      (.done (.flag (m.isEmpty (.counted 0)))) :=
    .quietly rfl rfl
  refine finish_of_runs hrun (by omega) h (congrArg Answer.flag ?_) rfl
  obtain ⟨c, hc, chain⟩ := h.chain
  obtain ⟨content, made⟩ := p
  simp only [Memory.isEmpty]
  generalize m.pair 0 = head at chain
  cases chain with
  | nil => rfl
  | cons hopen _ =>
    obtain ⟨rfl, -⟩ := Nodes.openAlone?_eq_some.mp hopen
    rfl

theorem drop (h : CountedFor n x p) :
    settlements (x.state.1.dropStack x.stack).2 = estate p.content ∧
      (x.state.1.dropStack x.stack).1.nodes.size = p.made := by
  obtain ⟨⟨m, me⟩, s⟩ := x
  obtain rfl : s = .counted 0 := h.stack
  obtain ⟨c, hc, chain⟩ := h.chain
  have opened : Piled m.nodes.openCounted? (m.pair 0) p.content ⟨c, .null⟩ :=
    chain.congr fun a k v b _ ho => by
      obtain ⟨rfl, hn⟩ := Nodes.openAlone?_eq_some.mp ho
      exact Nodes.openCounted?_eq_some.mpr ⟨rfl, 0, hn⟩
  have enough : p.content.length ≤ m.nodes.size := by
    have hle := h.filled.length_le
    rwa [← h.filled.size] at hle
  have hdrop := settles_counted.settles opened rfl h.filled.nodup enough
  simp only [Memory.dropStack, Memory.dropCounted, hdrop]
  constructor
  · rw [settlements_append, settlements_estate]
    exact List.append_nil _
  · exact (Nodes.size_releaseAll _ _).trans h.filled.size

end CountedFor

theorem counted_serves : Serves (CountedFor (α := α)) where
  mono hle h :=
    let ⟨c, hc, chain⟩ := h.chain
    ⟨h.stack, h.there, h.filled, c, Nat.le_trans hc hle, chain⟩
  push v granted h := h.push v granted
  pop h := h.pop
  miss h := h.miss
  isEmpty h := h.isEmpty
  size h := ⟨h.filled.size, h.filled.length_le⟩
  drop h := h.drop

/-- A new counted stack holds nothing. -/
theorem countedFor_new (token : Nat) :
    CountedFor (α := α) 0 ⟨(Memory.empty.addCounted, .new token), .counted 0⟩ ⟨[], 0⟩ where
  stack := rfl
  there := Nat.zero_lt_one
  filled := ⟨rfl, rfl, List.nodup_nil, nofun⟩
  chain := ⟨0, Nat.le_refl 0, .nil _⟩

end Solo

end LockFreeStack
