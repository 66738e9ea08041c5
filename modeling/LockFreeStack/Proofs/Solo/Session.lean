import LockFreeStack.Proofs.Solo.Pile

/-!
What the sessions with stacks of both kinds have in common: operations run to their end, and nodes
lie in places that are given out one after the other.
-/

namespace LockFreeStack

variable {α : Type}

namespace Heap

variable {β : Type} {h : Heap β}

theorem next_of_spare (hs : h.spare = none) : h.next = h.size := by
  simp [next, hs]

theorem size_alloc (hs : h.spare = none) (x : β) : (h.alloc x).size = h.size + 1 := by
  have hn : h.next = h.pieces.size := next_of_spare hs
  simp [alloc, hn, size]

@[simp] theorem spare_alloc (h : Heap β) (x : β) : (h.alloc x).spare = none := by
  unfold alloc
  dsimp only
  split <;> rfl

end Heap

namespace Nodes

@[simp] theorem spare_updateAt (h : Nodes α) (a : Address) (f : Object α → Object α) :
    Heap.spare (h.updateAt a f) = h.spare := by
  cases a <;> rfl

@[simp] theorem spare_release (h : Nodes α) (a : Address) : Heap.spare (h.release a) = h.spare := by
  cases a <;> rfl

end Nodes

namespace Solo

/-- The nodes of a pile lie in places of their own among those given out. -/
structure Filled (h : Nodes α) (p : Pile α) : Prop where
  spare : h.spare = none
  size : h.size = p.made
  nodup : (p.content.map Prod.fst).Nodup
  live : ∀ k ∈ p.content.map Prod.fst, (h.at? (.node k)).isSome

namespace Filled

variable {h : Nodes α} {p : Pile α} {k made : Nat} {v : α} {rest : List (Nat × α)}

theorem length_le (f : Filled h p) : p.content.length ≤ p.made := by
  have hle := Nodes.length_le_size f.nodup f.live
  rwa [f.size] at hle

/-- The place of a new node is not one of the pile's. -/
theorem next_notMem (f : Filled h p) : h.next ∉ p.content.map Prod.fst := by
  intro hmem
  have hlive := f.live _ hmem
  rw [Nodes.at?_next] at hlive
  cases hlive

theorem push (f : Filled h p) (x : Object α) (g : Object α → Object α) (v : α) :
    Filled (Nodes.updateAt (h.alloc x) (.node h.next) g) (p.push v true).pile where
  spare := by simp
  size := by simp [Heap.size_alloc f.spare, f.size, Pile.push]
  nodup := by
    have hnotMem := f.next_notMem
    rw [Heap.next_of_spare f.spare, f.size] at hnotMem
    exact List.nodup_cons.mpr ⟨hnotMem, f.nodup⟩
  live k hk := by
    have hnext : h.next = p.made := (Heap.next_of_spare f.spare).trans f.size
    rw [Nodes.at?_updateAt, Nodes.at?_alloc, Nodes.at?_alloc, if_pos rfl, hnext]
    by_cases hkm : k = p.made
    · simp [hkm]
    · have hlive := f.live k ((List.mem_cons.mp hk).resolve_left hkm)
      simp [hkm, hlive]

theorem updateAt (f : Filled h p) (a : Address) (g : Object α → Object α) : Filled (h.updateAt a g) p where
  spare := (Nodes.spare_updateAt h a g).trans f.spare
  size := (Nodes.size_updateAt h a g).trans f.size
  nodup := f.nodup
  live j hj := by
    have hlive := f.live j hj
    rw [Nodes.at?_updateAt]
    split
    · simp_all
    · exact hlive

theorem pop (f : Filled h ⟨(k, v) :: rest, made⟩) : Filled (h.release (.node k)) ⟨rest, made⟩ where
  spare := (Nodes.spare_release h _).trans f.spare
  size := (Nodes.size_release h _).trans f.size
  nodup := (List.nodup_cons.mp f.nodup).2
  live j hj := by
    have hjk : j ≠ k := fun e => (List.nodup_cons.mp f.nodup).1 (e ▸ hj)
    have hlive := f.live j (List.mem_cons_of_mem _ hj)
    simpa [Nodes.at?_release, hjk] using hlive

end Filled

variable {m m' : Memory α} {me me' : Thread} {s : StackRef} {o : Point α} {n : Nat}
  {q : List (Note α)} {a : Answer α}

theorem le_patience (m : Memory α) (me : Thread) : 64 ≤ Operation.patience (m, me) := by
  simp only [Operation.patience]
  omega

/-- An operation that comes to its end in few steps is carried out to its end. -/
theorem finish_of_runs {R : Session α → Pile α → Prop} {t : Pile.Shown α}
    (h : Runs Operation.step (m, me) o n q (m', me') (.done a)) (few : n ≤ Operation.patience (m, me))
    (after : R ⟨(m', me'), s⟩ t.pile) (answer : a = t.answer) (settled : q = t.settled) :
    Shows R (Session.finish (m, me) s o) t := by
  obtain ⟨notes, hrun, rfl⟩ := h.runSteps_eq Point.action few
  have hfinish : Session.finish (m, me) s o = ⟨⟨(m', me'), s⟩, a, notes⟩ := by
    simp only [Session.finish, Operation.run, hrun]
  rw [hfinish]
  exact ⟨after, answer, settled⟩

end Solo

end LockFreeStack
