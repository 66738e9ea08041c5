import LockFreeStack.Proofs.Counted.Sound

/-!
Each step of a push or a pop keeps a crowd sound, and moves the chain as its effect says.
-/

namespace LockFreeStack.Counted

variable {ι α : Type}

/-- The life of one node goes on, and the others stay as they are. -/
theorem Stage.Leads.update {stage : Address → Stage ι} {i : ι} {a : Address} {st : Stage ι}
    (h : (stage a).Leads i st) (b : Address) (hb : Function.update stage a st b ≠ stage b) :
    (stage b).Leads i (Function.update stage a st b) := by
  by_cases hba : b = a
  · subst hba
    rwa [Function.update_self]
  · rw [Function.update_of_ne hba] at hb
    exact (hb rfl).elim

/-- What an effect does to the chain from the head down. Without one the same nodes stay linked. -/
inductive Shift (h : Nodes α) :
    List (Pair Address) → List (Pair Address) → Option (Effect α) → Prop where
  | stay {l l' : List (Pair Address)} (e : l'.map Pair.address = l.map Pair.address) :
    Shift h l l' none
  | push {l : List (Pair Address)} {p : Pair Address} {v : α} {next : Pair Address} {n : Int64}
    (e : h.counted? p.address = some (v, next, n)) : Shift h l (p :: l) (some (.push v))
  | pop {l : List (Pair Address)} {p : Pair Address} {v : α} {next : Pair Address} {n : Int64}
    (e : h.counted? p.address = some (v, next, n)) : Shift h (p :: l) l (some (.pop v))
  | empty : Shift h [] [] (some .empty)

/-- An operation has at most a node to release in its hands. -/
structure Emptied (o : Option (Point α)) : Prop where
  fresh : o.bind Point.fresh? = none
  held : o.bind Point.held? = none
  taken : o.bind Point.taken? = none

theorem Emptied.holder?_eq_none {o : Option (Point α)} (e : Emptied o) : holder? o = none := by
  simp [holder?, e.held]

theorem Emptied.ne_detach {o : Option (Point α)} (e : Emptied o) (held next : Pair Address) :
    o ≠ some (.pop (.detach held next)) := by
  rintro rfl
  cases e.held

namespace Crowd

variable [DecidableEq ι] [Fintype ι] {x : Crowd ι α} {stage : Address → Stage ι}
  {l : List (Pair Address)} {i : ι} {m : Store α} {a node : Address} {v : α}
  {held seen next now : Pair Address}

/-- Thread `i` may come to the state `m` and the point `o`, with the effect `e`. -/
def Reaches (x : Crowd ι α) (stage : Address → Stage ι) (l : List (Pair Address)) (i : ι)
    (m : Store α) (o : Option (Point α)) (e : Option (Effect α)) : Prop :=
  ∃ stage' l', (x.set i m o).Sound stage' l' ∧ Shift x.store.nodes l l' e ∧
    ∀ b, stage' b ≠ stage b → (stage b).Leads i (stage' b)

/-- The outcome of a step of thread `i` is no fault and leaves the crowd sound. -/
def Keeps (x : Crowd ι α) (stage : Address → Stage ι) (l : List (Pair Address)) (i : ι)
    (out : Outcome (Store α) (Point α) (Answer α) α) (e : Option (Effect α)) : Prop :=
  match out.next with
  | .goto q => x.Reaches stage l i out.memory (some q) e
  | .done _ => x.Reaches stage l i out.memory none e
  | .fault _ => False

namespace Sound

theorem reaches_of_quiet {o : Option (Point α)} (s : x.Sound stage l) (i : ι)
    (nodes : ∀ b, m.nodes.counted? b = x.store.nodes.counted? b)
    (head : m.head = x.store.head)
    (fresh : o.bind Point.fresh? = (x.point i).bind Point.fresh?)
    (held : o.bind Point.held? = (x.point i).bind Point.held?)
    (taken : o.bind Point.taken? = (x.point i).bind Point.taken?)
    (spent : o.bind Point.spent? = (x.point i).bind Point.spent?)
    (next : ∀ held nx, o = some (.pop (.detach held nx)) → m.nodes.beneath? held = some nx) :
    x.Reaches stage l i m o none := by
  obtain ⟨count, path⟩ := s.chain
  have chain : Path m.nodes.beneath? m.head l ⟨count, .null⟩ :=
    head ▸ path.congr fun p _ => beneath?_congr (nodes _)
  exact ⟨stage, l, s.quiet i nodes ⟨count, chain⟩ fresh held taken spent next, .stay rfl,
    fun _ h => (h rfl).elim⟩

/-- A node that is not linked, and in the hands of thread `i` alone, comes to the stage `st`. -/
theorem reaches_of_alone {o : Option (Point α)} (s : x.Sound stage l) (i : ι) (a : Address)
    (st : Stage ι) (alone : ¬(stage a).IsKept) (before : ∀ j ≠ i, ¬(stage a).IsOf j)
    (after : ∀ j ≠ i, ¬st.IsOf j) (was : holder? (x.point i) = none) (is : holder? o = none)
    (nodes : ∀ b ≠ a, m.nodes.counted? b = x.store.nodes.counted? b)
    (head : m.head = x.store.head) (live : st ≠ .free ↔ (m.nodes.counted? a).isSome)
    (balanced : ∀ v next n, m.nodes.counted? a = some (v, next, n) → st.Balanced 0 n)
    (unlinked : ∀ c, st ≠ .linked c) (mine : Stands m.nodes (Function.update stage a st) i o)
    (leads : (stage a).Leads i st) : x.Reaches stage l i m o none := by
  have hbefore : ∀ c, stage a ≠ .linked c := fun c hc => alone (by rw [hc]; trivial)
  exact ⟨_, l, s.changeAlone i a st alone before after was is nodes live balanced
    (s.chain_congr hbefore nodes head) (s.linked_update hbefore unlinked) mine, .stay rfl,
    leads.update⟩

section Push

theorem allocate (s : x.Sound stage l) (granted : Bool)
    (hp : x.point i = some (.push (.allocate v granted))) :
    x.Keeps stage l i ((Point.push (.allocate v granted)).step x.store) none := by
  cases granted with
  | false =>
    exact s.reaches_of_quiet i (fun _ => rfl) rfl (by rw [hp]; rfl) (by rw [hp]; rfl)
      (by rw [hp]; rfl) (by rw [hp]; rfl) (by simp)
  | true =>
    let a := Address.node x.store.nodes.next
    let nodes : Nodes α := x.store.nodes.alloc (.counted v ⟨0, .null⟩ 0)
    show x.Reaches stage l i ⟨nodes, x.store.head⟩ (some (.push (.load a))) none
    have hfree : stage a = .free := by
      by_contra hne
      simpa [a, Nodes.counted?_next] using (s.live _).mp hne
    have hself : nodes.counted? a = some (v, ⟨0, .null⟩, 0) := by simp [nodes, a, Nodes.counted?_alloc]
    have hnodes : ∀ b ≠ a, nodes.counted? b = x.store.nodes.counted? b :=
      fun b hb => by rw [Nodes.counted?_alloc, if_neg hb]
    refine s.reaches_of_alone i a (.fresh i) (by simp [hfree, Stage.IsKept])
      (by simp [hfree, Stage.IsOf]) (fun j hj h => hj h.symm) (by simp [hp, holder?, Point.held?])
      (by simp [holder?, Point.held?]) hnodes rfl (by simp [hself]) ?_ (by simp) ?_
      (hfree ▸ .make)
    · intro w nx n hn
      obtain ⟨-, -, rfl⟩ : v = w ∧ (⟨0, .null⟩ : Pair Address) = nx ∧ 0 = n := by
        simpa [hself] using hn
      exact ⟨rfl, rfl⟩
    · refine (s.stands i).mine ?_ ?_ ?_ ?_ ?_ ?_ ?_ ?_ <;>
        simp [hp, holder?, Point.fresh?, Point.held?, Point.taken?, Point.spent?, eq_comm]

theorem load (s : x.Sound stage l) (hp : x.point i = some (.push (.load node))) :
    x.Keeps stage l i ((Point.push (.load node)).step x.store) none :=
  s.reaches_of_quiet i (fun _ => rfl) rfl (by rw [hp]; rfl) (by rw [hp]; rfl) (by rw [hp]; rfl)
    (by rw [hp]; rfl) (by simp)

omit [DecidableEq ι] in
/-- The node of a push before it is linked. -/
theorem fresh_node (s : x.Sound stage l) (hp : x.point i = some (.push (.link node seen))) :
    stage node = .fresh i ∧ ∃ v next, x.store.nodes.counted? node = some (v, next, 0) := by
  have hf : stage node = .fresh i := ((s.stands i).fresh node).mpr (by rw [hp]; rfl)
  obtain ⟨v, next, n, hn⟩ := s.exists_counted (a := node) (by simp [hf])
  have hb := s.balanced node v next n hn
  rw [hf] at hb
  obtain ⟨rfl, -⟩ := hb
  exact ⟨hf, v, next, hn⟩

/-- An exchange that fails, for a reason or without one, leaves the node to its push. -/
theorem relink (s : x.Sound stage l) (hp : x.point i = some (.push (.link node seen)))
    (now : Pair Address) :
    Sound (x.set i ⟨x.store.nodes.updateAt node (·.setPair seen), x.store.head⟩
      (some (.push (.link node now)))) stage l := by
  obtain ⟨hf, v, nx, hn⟩ := s.fresh_node hp
  have hself : (x.store.nodes.updateAt node (·.setPair seen)).counted? node = some (v, seen, 0) := by
    simp [Nodes.counted?_setPair, hn]
  have hnodes : ∀ b ≠ node, (x.store.nodes.updateAt node (·.setPair seen)).counted? b =
      x.store.nodes.counted? b := fun b hb => by rw [Nodes.counted?_setPair, if_neg hb]
  have hunlinked : ∀ c, stage node ≠ .linked c := by simp [hf]
  rw [← Function.update_eq_self node stage, hf]
  refine s.changeAlone i node (.fresh i) (by simp [hf, Stage.IsKept])
    (fun j hj => by rw [hf]; exact fun h => hj h.symm) (fun j hj h => hj h.symm)
    (by simp [hp, holder?, Point.held?]) (by simp [holder?, Point.held?]) hnodes
    (by simp [hself]) ?_ (s.chain_congr hunlinked hnodes rfl)
    (s.linked_update hunlinked (by simp)) ?_
  · intro w nx' n hw
    obtain ⟨-, -, rfl⟩ : v = w ∧ seen = nx' ∧ 0 = n := by simpa [hself] using hw
    exact ⟨rfl, rfl⟩
  · refine (s.stands i).mine ?_ ?_ ?_ ?_ ?_ ?_ ?_ ?_ <;>
      simp [hp, holder?, Point.fresh?, Point.held?, Point.taken?, Point.spent?, eq_comm]

/-- An exchange that succeeds puts the node on top, under a pair that counts one reference. -/
theorem link_node (s : x.Sound stage l) (hp : x.point i = some (.push (.link node seen)))
    (hn : x.store.nodes.counted? node = some (v, next, 0)) :
    x.Reaches stage l i ⟨x.store.nodes.updateAt node (·.setPair x.store.head), ⟨1, node⟩⟩ none
      (some (.push v)) := by
  obtain ⟨hf, -⟩ := s.fresh_node hp
  let nodes : Nodes α := x.store.nodes.updateAt node (·.setPair x.store.head)
  have hself : nodes.counted? node = some (v, x.store.head, 0) := by
    simp [nodes, Nodes.counted?_setPair, hn]
  have hnodes : ∀ b ≠ node, nodes.counted? b = x.store.nodes.counted? b :=
    fun b hb => by simp only [nodes]; rw [Nodes.counted?_setPair, if_neg hb]
  have hout : ∀ p ∈ l, p.address ≠ node := by
    rintro p hl rfl
    simpa [hf] using (s.linked p).mp hl
  refine ⟨_, ⟨1, node⟩ :: l, s.changeAlone i node (.linked 1) (by simp [hf, Stage.IsKept])
    (fun j hj => by rw [hf]; exact fun h => hj h.symm) (fun _ _ => id)
    (by simp [hp, holder?, Point.held?]) (by simp [holder?]) hnodes
    (by rw [show Nodes.counted? _ node = _ from hself]; simp) ?_ ?_ ?_ ?_, .push (p := ⟨1, node⟩) hn,
    Stage.Leads.update (hf ▸ .link)⟩
  · intro w nx n hw
    obtain ⟨-, -, rfl⟩ : v = w ∧ x.store.head = nx ∧ 0 = n := by
      simpa using hself.symm.trans hw
    exact Stage.Balanced.link
  · obtain ⟨count, path⟩ := s.chain
    have hbelow : nodes.beneath? ⟨1, node⟩ = some x.store.head := by simp [Nodes.beneath?, hself]
    exact ⟨count, .cons hbelow (path.congr fun p hp => beneath?_congr (hnodes _ (hout p hp)))⟩
  · intro p
    by_cases hpa : p.address = node
    · have : p ∉ l := fun hp => hout p hp hpa
      simp [hpa, this, Pair.ext_iff, eq_comm]
    · have : p ≠ ⟨1, node⟩ := fun e => hpa (by rw [e])
      simp [hpa, this, s.linked]
  · refine (s.stands i).mine ?_ ?_ ?_ ?_ ?_ ?_ ?_ ?_ <;>
      simp [hp, holder?, Point.fresh?, Point.held?, Point.taken?, Point.spent?, eq_comm]

theorem link (s : x.Sound stage l) (hp : x.point i = some (.push (.link node seen))) :
    x.Keeps stage l i ((Point.push (.link node seen)).step x.store)
      ((Point.push (.link node seen)).effect? x.store) := by
  obtain ⟨-, v, next, hn⟩ := s.fresh_node hp
  by_cases hs : x.store.head = seen
  · subst hs
    have hout : (Point.push (.link node x.store.head)).step x.store =
        ⟨⟨x.store.nodes.updateAt node (·.setPair x.store.head), ⟨1, node⟩⟩, .done .ok,
          [exchanged x.store.head ⟨1, node⟩ x.store.head]⟩ := by
      simp [Point.step, Push.step, hn, Outcome.within, Next.within, Answer.ofPush]
    rw [hout, Point.effect?, if_pos rfl, hn]
    exact s.link_node hp hn
  · have hout : (Point.push (.link node seen)).step x.store =
        ⟨⟨x.store.nodes.updateAt node (·.setPair seen), x.store.head⟩,
          .goto (.push (.link node x.store.head)), [exchanged seen ⟨1, node⟩ x.store.head]⟩ := by
      simp [Point.step, Push.step, hn, Outcome.within, Next.within, hs]
    rw [hout, Point.effect?, if_neg hs]
    exact ⟨stage, l, s.relink hp x.store.head, .stay rfl, fun _ h => (h rfl).elim⟩

end Push

section Pop

theorem popLoad (s : x.Sound stage l) (hp : x.point i = some (.pop .load)) :
    x.Keeps stage l i ((Point.pop .load).step x.store) none :=
  s.reaches_of_quiet i (fun _ => rfl) rfl (by rw [hp]; rfl) (by rw [hp]; rfl) (by rw [hp]; rfl)
    (by rw [hp]; rfl) (by simp)

/-- The count of a pair without a node goes up. -/
theorem bump_null (s : x.Sound stage l) (hp : x.point i = some (.pop (.bump seen)))
    (hnull : x.store.head.address = .null) (hh : held.address = .null) :
    x.Reaches stage l i ⟨x.store.nodes, held⟩ none (some .empty) := by
  obtain rfl := s.chain_nil hnull
  have chain : Path x.store.nodes.beneath? held [] ⟨held.count, .null⟩ := by
    rw [Path.nil_iff, ← hh]
  exact ⟨stage, [], s.quiet i (fun _ => rfl) ⟨_, chain⟩ (by rw [hp]; rfl) (by rw [hp]; rfl)
    (by rw [hp]; rfl) (by rw [hp]; rfl) (by simp), .empty, fun _ h => (h rfl).elim⟩

/-- The count of the pair of a linked node goes up, and so does the number of its holders. -/
theorem bump_node (s : x.Sound stage l) (hp : x.point i = some (.pop (.bump seen)))
    (hnull : x.store.head.address ≠ .null) (hb : x.store.head.bump = .ok held) :
    x.Reaches stage l i ⟨x.store.nodes, held⟩ (some (.pop (.readNext held))) none := by
  obtain ⟨haddr, hcount⟩ := Pair.bump_eq_ok hb
  obtain ⟨next, l₁, count, rfl, hn, rest, hrest⟩ := s.chain_cons hnull
  have hstage : stage held.address = .linked x.store.head.count := by
    rw [haddr]; exact (s.linked x.store.head).mp (by simp)
  refine ⟨_, held :: l₁, s.change i held.address (.linked held.count) ?_ ?_ (fun _ _ => rfl) ?_ ?_
    ?_ ?_ ?_ ?_ ?_ ?_, .stay (by simp [haddr]), Stage.Leads.update (hstage ▸ .raise _ _)⟩
  · simp [hp, holder?, Point.held?]
  · simp [holder?, Point.held?]
  · exact fun j _ => .inr ⟨by simp [hstage, Stage.IsOf], id⟩
  · simp [← s.live, hstage]
  · exact fun _ _ _ => trivial
  · exact fun _ _ _ => rfl
  · intro v nx n hv
    have hset := holders_set x i ⟨x.store.nodes, held⟩ (some (.pop (.readNext held))) held.address
    simp only [hp, holder?, Point.held?, Option.bind_some, Option.map_none, Option.map_some,
      reduceCtorEq, ↓reduceIte, Nat.add_zero] at hset
    rw [hset]
    have b := s.balanced held.address v nx n hv
    rw [hstage] at b
    exact b.raise hcount
  · exact ⟨count, .cons (by rw [← hn, Nodes.beneath?, haddr]; rfl) rest⟩
  · intro p
    by_cases hpa : p.address = held.address
    · have : p ∉ l₁ := fun hp => hrest p hp (by rw [hpa, haddr])
      simp [hpa, this, Pair.ext_iff, eq_comm]
    · have hne : p ≠ held := fun e => hpa (by rw [e])
      have hne' : p ≠ x.store.head := fun e => hpa (by rw [e, haddr])
      have := s.linked p
      simp_all
  · refine (s.stands i).mine ?_ ?_ ?_ ?_ ?_ ?_ ?_ ?_ <;>
      simp [hp, holder?, Point.fresh?, Point.held?, Point.taken?, Point.spent?, Stage.IsKept]

theorem bump (s : x.Sound stage l) (hp : x.point i = some (.pop (.bump seen))) :
    x.Keeps stage l i ((Point.pop (.bump seen)).step x.store) ((Point.pop (.bump seen)).effect? x.store) := by
  cases hb : seen.bump with
  | error e =>
    simp only [Point.step, Pop.step, Point.effect?, hb]
    exact s.reaches_of_quiet i (fun _ => rfl) rfl (by rw [hp]; rfl) (by rw [hp]; rfl)
      (by rw [hp]; rfl) (by rw [hp]; rfl) (by simp)
  | ok held =>
    simp only [Point.step, Pop.step, Point.effect?, hb]
    obtain ⟨haddr, -⟩ := Pair.bump_eq_ok hb
    by_cases hs : x.store.head = seen
    · subst hs
      by_cases hnull : x.store.head.address = .null
      · rw [if_pos rfl, if_pos (haddr.trans hnull), if_pos ⟨rfl, hnull⟩]
        exact s.bump_null hp hnull (haddr.trans hnull)
      · rw [if_pos rfl, if_neg (haddr ▸ hnull), if_neg fun h => hnull h.2]
        exact s.bump_node hp hnull hb
    · rw [if_neg hs, if_neg fun h => hs h.1]
      exact s.reaches_of_quiet i (fun _ => rfl) rfl (by rw [hp]; rfl) (by rw [hp]; rfl)
        (by rw [hp]; rfl) (by rw [hp]; rfl) (by simp)

omit [DecidableEq ι] in
/-- The node of a pop that holds a reference to it is there. -/
theorem held_node (s : x.Sound stage l) (i : ι) (held : Pair Address)
    (ho : (x.point i).bind Point.held? = some held) :
    ∃ v next n, x.store.nodes.counted? held.address = some (v, next, n) ∧
      (stage held.address).Balanced (x.holders held.address) n := by
  have hk := (s.stands i).held_address ho
  obtain ⟨v, next, n, hn⟩ := s.exists_counted (a := held.address) fun hf => by
    simp [hf, Stage.IsKept] at hk
  exact ⟨v, next, n, hn, s.balanced _ v next n hn⟩

theorem readNext (s : x.Sound stage l) (hp : x.point i = some (.pop (.readNext held))) :
    x.Keeps stage l i ((Point.pop (.readNext held)).step x.store) none := by
  obtain ⟨v, next, n, hn, -⟩ := s.held_node i held (by rw [hp]; rfl)
  have hout : (Point.pop (.readNext held)).step x.store =
      ⟨x.store, .goto (.pop (.detach held next)), []⟩ := by
    simp [Point.step, Pop.step, hn, Outcome.within, Next.within]
  rw [hout]
  refine s.reaches_of_quiet i (fun _ => rfl) rfl (by rw [hp]; rfl) (by rw [hp]; rfl)
    (by rw [hp]; rfl) (by rw [hp]; rfl) fun held' nx ho => ?_
  obtain ⟨rfl, rfl⟩ : held = held' ∧ next = nx := by simpa using ho
  simp [Nodes.beneath?, hn]

theorem take (s : x.Sound stage l) (hp : x.point i = some (.pop (.take held))) :
    x.Keeps stage l i ((Point.pop (.take held)).step x.store) none := by
  obtain ⟨v, next, n, hn, -⟩ := s.held_node i held (by rw [hp]; rfl)
  have hout : (Point.pop (.take held)).step x.store =
      ⟨x.store, .goto (.pop (.fold held v)), []⟩ := by
    simp [Point.step, Pop.step, hn, Outcome.within, Next.within]
  rw [hout]
  exact s.reaches_of_quiet i (fun _ => rfl) rfl (by rw [hp]; rfl) (by rw [hp]; rfl)
    (by rw [hp]; rfl) (by rw [hp]; rfl) (by simp)

/-- The pop that moves the head below its node takes the node. -/
theorem detach_node (s : x.Sound stage l)
    (hp : x.point i = some (.pop (.detach x.store.head next))) {n : Int64}
    (hn : x.store.nodes.counted? x.store.head.address = some (v, seen, n)) :
    x.Reaches stage l i ⟨x.store.nodes, next⟩ (some (.pop (.take x.store.head))) (some (.pop v)) := by
  have hnull : x.store.head.address ≠ .null := fun h => by
    rw [h] at hn
    cases hn
  obtain ⟨next', l₁, count, rfl, hn', rest, hrest⟩ := s.chain_cons hnull
  -- What the pop has read below its node is still what the chain goes on with.
  obtain rfl : next' = next := by
    rw [(s.stands i).next _ _ hp] at hn'
    exact (Option.some.inj hn').symm
  have hstage := (s.linked x.store.head).mp (by simp)
  refine ⟨_, l₁, s.change i x.store.head.address (.taken i x.store.head.count) ?_ ?_
    (fun _ _ => rfl) ?_ ?_ ?_ ?_ ?_ ⟨count, rest⟩ ?_ ?_, .pop hn,
    Stage.Leads.update (hstage ▸ .take _)⟩
  · simp [hp, holder?, Point.held?]
  · simp [holder?, Point.held?]
  · exact fun j hj => .inr ⟨by simp [hstage, Stage.IsOf], fun h => hj h.symm⟩
  · simp [hn]
  · exact fun _ _ _ => trivial
  · exact fun _ _ _ => rfl
  · intro w nx' n' hw
    have hset := holders_set x i ⟨x.store.nodes, next'⟩ (some (.pop (.take x.store.head)))
      x.store.head.address
    simp only [hp, holder?, Point.held?, Option.bind_some, Option.map_some, ↓reduceIte,
      Nat.add_right_cancel_iff] at hset
    rw [hset]
    have b := s.balanced _ w nx' n' hw
    rw [hstage] at b
    exact b.take
  · intro p
    by_cases hpa : p.address = x.store.head.address
    · have : p ∉ l₁ := fun hp => hrest p hp hpa
      simp [hpa, this]
    · have hne : p ≠ x.store.head := fun e => hpa (by rw [e])
      have := s.linked p
      simp_all
  · refine (s.stands i).mine ?_ ?_ ?_ ?_ ?_ ?_ ?_ ?_ <;>
      simp [hp, holder?, Point.fresh?, Point.held?, Point.taken?, Point.spent?, Stage.IsKept,
        Pair.ext_iff, and_comm, eq_comm]

theorem detach (s : x.Sound stage l) (hp : x.point i = some (.pop (.detach held next))) :
    x.Keeps stage l i ((Point.pop (.detach held next)).step x.store)
      ((Point.pop (.detach held next)).effect? x.store) := by
  obtain ⟨v, nx, n, hn, -⟩ := s.held_node i held (by rw [hp]; rfl)
  by_cases hs : x.store.head = held
  · subst hs
    have hout : (Point.pop (.detach x.store.head next)).step x.store = ⟨⟨x.store.nodes, next⟩,
        .goto (.pop (.take x.store.head)), [exchanged x.store.head next x.store.head]⟩ := by
      simp [Point.step, Pop.step, Outcome.within, Next.within]
    rw [hout, Point.effect?, if_pos rfl, hn]
    exact s.detach_node hp hn
  · have hout : (Point.pop (.detach held next)).step x.store =
        ⟨x.store, .goto (.pop (.giveBack held x.store.head)), [exchanged held next x.store.head]⟩ := by
      simp [Point.step, Pop.step, Outcome.within, Next.within, hs]
    rw [hout, Point.effect?, if_neg hs]
    exact s.reaches_of_quiet i (fun _ => rfl) rfl (by rw [hp]; rfl) (by rw [hp]; rfl)
      (by rw [hp]; rfl) (by rw [hp]; rfl) (by simp)

/-- Thread `i` lets its reference go, after which the node comes to the stage `st`. -/
theorem settle {o : Option (Point α)} {h : Nat} {n n' : Int64} (s : x.Sound stage l) (st : Stage ι)
    (fresh : (x.point i).bind Point.fresh? = none)
    (held' : (x.point i).bind Point.held? = some held)
    (taken : ∀ p, (x.point i).bind Point.taken? = some p → p = held)
    (spent : (x.point i).bind Point.spent? = none)
    (node : x.store.nodes.counted? held.address = some (v, next, n))
    (node' : m.nodes.counted? held.address = some (v, next, n'))
    (nodes : ∀ b ≠ held.address, m.nodes.counted? b = x.store.nodes.counted? b)
    (head : m.head = x.store.head) (after : Emptied o)
    (spent' : ∀ b, o.bind Point.spent? = some b ↔ b = held.address ∧ st = .spent i)
    (settles : (stage held.address).Settles i st)
    (holders : x.holders held.address = h + 1) (balanced : st.Balanced h n') :
    x.Reaches stage l i m o none := by
  have hholder : holder? (x.point i) = some held.address := by simp [holder?, held']
  have hkept : (stage held.address).IsKept := (s.stands i).held_address held'
  have hholders : (x.set i m o).holders held.address = h := by
    have hset := holders_set x i m o held.address
    rw [if_pos hholder, if_neg (by simp [after.holder?_eq_none]), holders] at hset
    omega
  have hbeneath : ∀ p, m.nodes.beneath? p = x.store.nodes.beneath? p := by
    intro p
    by_cases hpa : p.address = held.address
    · simp only [Nodes.beneath?, hpa, node, node', Option.map_some]
    · exact beneath?_congr (nodes _ hpa)
  have hst : st.IsKept ∨ st = .spent i := settles.kept_or_spent hkept
  obtain ⟨count, path⟩ := s.chain
  have hchain : Path m.nodes.beneath? m.head l ⟨count, .null⟩ :=
    head ▸ path.congr fun p _ => hbeneath p
  refine ⟨_, l, s.change i held.address st ?_ ?_ nodes (fun j hj => settles.others hj) ?_ ?_
    (fun _ p _ => hbeneath p) ?_ ⟨count, hchain⟩ ?_ ?_, .stay rfl,
    Stage.Leads.update (.settle settles)⟩
  · simp [hholder, eq_comm]
  · simp [after.holder?_eq_none]
  · have : st ≠ .free := by
      rintro rfl
      obtain h | h := hst <;> cases h
    simpa [node'] using this
  · intro j hj hheld
    refine hst.resolve_right fun hspent => ?_
    -- A node is spent when the last of its holders has let it go.
    subst hspent
    have hzero : h = 0 := balanced.2
    have := holder?_ne_of_holders_eq_zero (hholders.trans hzero) j
    simp [set, Function.update_of_ne hj, hheld] at this
  · intro w nx k hw
    obtain ⟨-, -, rfl⟩ : v = w ∧ next = nx ∧ n' = k := by simpa [node'] using hw
    rwa [hholders]
  · intro p
    rw [s.linked]
    by_cases hpa : p.address = held.address
    · rw [hpa, Function.update_self]
      exact settles.linked_iff
    · rw [Function.update_of_ne hpa]
  · refine (s.stands i).mine (by simp [fresh]) (fun p h => by rw [taken p h]) (by simp [spent])
      (fun b => ?_) (fun c b => ?_) spent' (by simp [after.holder?_eq_none])
      fun p nx ho => (after.ne_detach p nx ho).elim
    · rw [after.fresh]
      constructor
      · rintro ⟨⟩
      · rintro ⟨-, rfl⟩
        obtain h | h := hst <;> cases h
    · rw [after.taken]
      constructor
      · rintro ⟨⟩
      · rintro ⟨-, h⟩
        exact (settles.ne_taken c h).elim

theorem fold (s : x.Sound stage l) (hp : x.point i = some (.pop (.fold held v))) :
    x.Keeps stage l i ((Point.pop (.fold held v)).step x.store) none := by
  obtain ⟨w, next, n, hn, hbal⟩ := s.held_node i held (by rw [hp]; rfl)
  obtain ⟨h, hh⟩ := exists_holders x i held (by rw [hp]; rfl)
  have hstage : stage held.address = .taken i held.count :=
    (s.stands i).isKept_of_taken (by rw [hp]; rfl)
  rw [hstage, hh] at hbal
  have go {o : Option (Point α)} {m : Store α} {n' : Int64} (st : Stage ι)
      (node' : m.nodes.counted? held.address = some (w, next, n'))
      (nodes : ∀ b ≠ held.address, m.nodes.counted? b = x.store.nodes.counted? b)
      (head : m.head = x.store.head) (after : Emptied o)
      (spent' : ∀ b, o.bind Point.spent? = some b ↔ b = held.address ∧ st = .spent i)
      (settles : (Stage.taken i held.count).Settles i st) (balanced : st.Balanced h n') :
      x.Reaches stage l i m o none :=
    s.settle st (by rw [hp]; rfl) (by rw [hp]; rfl) (by simp [hp, Point.taken?, eq_comm])
      (by rw [hp]; rfl) hn node' nodes head after spent' (hstage ▸ settles) hh balanced
  cases hs : held.surplus with
  | error e =>
    simp only [Point.step, Pop.step, hs]
    exact go (.lost _) hn (fun _ _ => rfl) rfl ⟨rfl, rfl, rfl⟩ (by simp)
      (.lose fun folds => by simp [Pair.Folds, hs] at folds) hbal.lose
  | ok more =>
    obtain ⟨hsum, hlt, hzero⟩ := hbal.fold hs
    simp only [Point.step, Pop.step, hs, hn]
    let nodes : Nodes α := x.store.nodes.updateAt held.address (·.setInternal (n + more))
    have node' : nodes.counted? held.address = some (w, next, n + more) := by
      simp [nodes, Nodes.counted?_setInternal, hn]
    have others : ∀ b ≠ held.address, nodes.counted? b = x.store.nodes.counted? b :=
      fun b hb => by simp only [nodes]; rw [Nodes.counted?_setInternal, if_neg hb]
    have shared (h0 : h ≠ 0) : (Stage.shared : Stage ι).Balanced h (n + more) :=
      ⟨hsum, Nat.pos_of_ne_zero h0, hlt⟩
    by_cases hmin : more = Int64.minValue
    · rw [if_pos hmin]
      by_cases h0 : h = 0
      · have htwo : 2 ≤ held.count.toNat := by
          obtain ⟨r, -, hr⟩ := hbal
          omega
        refine go (.lost _) node' others rfl ⟨rfl, rfl, rfl⟩ (by simp)
          (.lose fun folds => by simp [Pair.Folds, hs, hmin] at folds) ⟨0, ?_, by omega⟩
        rw [hsum, h0]
        rfl
      · exact go .shared node' others rfl ⟨rfl, rfl, rfl⟩ (by simp) (.share _) (shared h0)
    · rw [if_neg hmin]
      by_cases h0 : h = 0
      · rw [if_pos (hzero.mpr h0)]
        exact go (.spent i) node' others rfl ⟨rfl, rfl, rfl⟩ (by simp [Point.spent?, eq_comm])
          (.spend _) ⟨by rw [hsum, h0]; rfl, h0⟩
      · rw [if_neg fun h => h0 (hzero.mp h)]
        exact go .shared node' others rfl ⟨rfl, rfl, rfl⟩ (by simp) (.share _) (shared h0)

theorem giveBack (s : x.Sound stage l) (hp : x.point i = some (.pop (.giveBack held now))) :
    x.Keeps stage l i ((Point.pop (.giveBack held now)).step x.store) none := by
  obtain ⟨v, next, n, hn, hbal⟩ := s.held_node i held (by rw [hp]; rfl)
  obtain ⟨h, hh⟩ := exists_holders x i held (by rw [hp]; rfl)
  rw [hh] at hbal
  have hkept : (stage held.address).IsKept := (s.stands i).held_address (by rw [hp]; rfl)
  have hmine : ∀ c, stage held.address ≠ .taken i c := fun c hc => by
    have := ((s.stands i).taken _ c).mp hc
    rw [hp] at this
    cases this
  have go {o : Option (Point α)} (st : Stage ι) (after : Emptied o)
      (spent' : ∀ b, o.bind Point.spent? = some b ↔ b = held.address ∧ st = .spent i)
      (settles : (stage held.address).Settles i st) (balanced : st.Balanced h (n - 1)) :
      x.Reaches stage l i ⟨x.store.nodes.updateAt held.address (·.setInternal (n - 1)), x.store.head⟩ o
        none := by
    refine s.settle st (by rw [hp]; rfl) (by rw [hp]; rfl) (by simp [hp, Point.taken?])
      (by rw [hp]; rfl) hn ?_ (fun b hb => ?_) rfl after spent' settles hh balanced
    · simp [Nodes.counted?_setInternal, hn]
    · rw [Nodes.counted?_setInternal, if_neg hb]
  simp only [Point.step, Pop.step, hn]
  obtain ⟨hone, h0, hshared⟩ | ⟨hone, b⟩ := hbal.giveBack hkept
  · rw [if_pos hone]
    exact go (.spent i) ⟨rfl, rfl, rfl⟩ (by simp [Point.spent?, eq_comm]) (hshared ▸ .last)
      ⟨by rw [hone]; rfl, h0⟩
  · rw [if_neg hone]
    refine go (stage held.address) ⟨rfl, rfl, rfl⟩ (fun b => ?_) (.stay hmine) b
    refine ⟨nofun, fun ⟨_, h⟩ => ?_⟩
    have := ((s.stands i).spent _).mp h
    rw [hp] at this
    cases this

/-- A node that is released was in the hands of one pop alone. -/
theorem releaseNode {o : Option (Point α)} (s : x.Sound stage l) (node : Address)
    (spent : (x.point i).bind Point.spent? = some node) (before : Emptied (x.point i))
    (after : Emptied o) (spent' : o.bind Point.spent? = none) :
    x.store.nodes.isLiveAt node ∧
      x.Reaches stage l i ⟨x.store.nodes.release node, x.store.head⟩ o none := by
  have hstage : stage node = .spent i := ((s.stands i).spent node).mpr spent
  obtain ⟨v, next, n, hn⟩ := s.exists_counted (a := node) (by simp [hstage])
  have hnodes : ∀ b ≠ node, (x.store.nodes.release node).counted? b = x.store.nodes.counted? b :=
    fun b hb => by rw [Nodes.counted?_release, if_neg hb]
  have hself : (x.store.nodes.release node).counted? node = none := by simp [Nodes.counted?_release]
  refine ⟨Nodes.isLiveAt_of_counted? hn, s.reaches_of_alone i node .free
    (by simp [hstage, Stage.IsKept]) (fun j hj => by rw [hstage]; exact fun h => hj h.symm)
    (fun _ _ => id) before.holder?_eq_none after.holder?_eq_none hnodes rfl (by simp [hself])
    (by simp [hself]) (by simp) ?_ (hstage ▸ .release)⟩
  refine (s.stands i).mine ?_ ?_ ?_ ?_ ?_ ?_ ?_ fun p nx ho => (after.ne_detach p nx ho).elim
  all_goals simp [before.fresh, before.taken, spent, after.fresh, after.taken, spent',
    after.holder?_eq_none]

theorem release (s : x.Sound stage l) (hp : x.point i = some (.pop (.release node v))) :
    x.Keeps stage l i ((Point.pop (.release node v)).step x.store) none := by
  have before : Emptied (x.point i) := by rw [hp]; exact ⟨rfl, rfl, rfl⟩
  obtain ⟨hlive, hr⟩ := s.releaseNode (o := none) node (by rw [hp]; rfl) before ⟨rfl, rfl, rfl⟩ rfl
  simp only [Point.step, Pop.step, if_pos hlive]
  exact hr

theorem releaseLate (s : x.Sound stage l) (hp : x.point i = some (.pop (.releaseLate node now))) :
    x.Keeps stage l i ((Point.pop (.releaseLate node now)).step x.store) none := by
  have before : Emptied (x.point i) := by rw [hp]; exact ⟨rfl, rfl, rfl⟩
  obtain ⟨hlive, hr⟩ := s.releaseNode (o := some (.pop (.bump now))) node (by rw [hp]; rfl) before
    ⟨rfl, rfl, rfl⟩ rfl
  simp only [Point.step, Pop.step, if_pos hlive]
  exact hr

end Pop

theorem step (s : x.Sound stage l) {p : Point α} (hp : x.point i = some p) :
    x.Keeps stage l i (p.step x.store) (p.effect? x.store) := by
  obtain (_ | _ | _) | _ := p
  · exact s.allocate _ hp
  · exact s.load hp
  · exact s.link hp
  · rename_i p
    cases p with
    | load => exact s.popLoad hp
    | bump seen => exact s.bump hp
    | readNext held => exact s.readNext hp
    | detach held next => exact s.detach hp
    | take held => exact s.take hp
    | fold held v => exact s.fold hp
    | release node v => exact s.release hp
    | giveBack held now => exact s.giveBack hp
    | releaseLate node now => exact s.releaseLate hp

end Sound

end Crowd

end LockFreeStack.Counted
