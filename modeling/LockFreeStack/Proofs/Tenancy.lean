import LockFreeStack.Proofs.Receipts
import LockFreeStack.Proofs.Settlement

/-!
The places of node memory. A place is given out, given back, and only then given out again, so what
has happened to it tells whether a node is there now.
-/

namespace LockFreeStack

variable {α : Type}

inductive Turnover where
  | made
  | freed
deriving DecidableEq

def Note.freed? : Note α → Option (Nat × Turnover)
  | .freed k => some (k, .freed)
  | _ => none

/-- What a step does to the places, by the place that it has been given and by what is seen of it. -/
def turnovers (made : Option Nat) (notes : List (Note α)) : List (Nat × Turnover) :=
  made.toList.map (·, .made) ++ notes.filterMap Note.freed?

theorem turnovers_eq_nil {notes : List (Note α)} (h : ∀ k, .freed k ∉ notes) : turnovers none notes = [] := by
  apply List.filterMap_eq_nil_iff.mpr
  intro n hn
  cases n with
  | freed k => exact absurd hn (h k)
  | _ => rfl

/-- What is seen when parked nodes are released in this order. -/
def burial (ks : List Nat) : List (Note α) := ks.flatMap fun k => [.deleted (.node k) .node, .freed k]

theorem freed_burial (ks : List Nat) :
    (burial ks : List (Note α)).filterMap Note.freed? = ks.map (·, .freed) := by
  induction ks with
  | nil => rfl
  | cons k ks ih => exact congrArg ((k, .freed) :: ·) ih

theorem freed_estate (ps : List (Nat × α)) :
    (estate ps).filterMap Note.freed? = (ps.map Prod.fst).map (·, .freed) := by
  induction ps with
  | nil => rfl
  | cons x ps ih => exact congrArg ((x.1, .freed) :: ·) ih

/-- So many nodes, one after the other in the same place. -/
def tenancies (n : Nat) : List Turnover := (List.replicate n [.made, .freed]).flatten

theorem tenancies_succ (n : Nat) : tenancies (n + 1) = tenancies n ++ [.made, .freed] := by
  rw [tenancies, List.replicate_succ', List.flatten_append]
  rfl

namespace Nodes

variable {h h' : Nodes α} {log new : List (Nat × Turnover)} {k : Nat} {ks : List Nat}

theorem isLiveAt_alloc (h : Nodes α) (x : Object α) (a : Address) :
    Nodes.isLiveAt (h.alloc x) a = (decide (a = .node h.next) || h.isLiveAt a) := by
  unfold isLiveAt
  rw [at?_alloc]
  by_cases ha : a = .node h.next <;> simp [ha]

theorem isLiveAt_updateAt (h : Nodes α) (a : Address) (f : Object α → Object α) (b : Address) :
    (h.updateAt a f).isLiveAt b = h.isLiveAt b := by
  unfold isLiveAt
  rw [at?_updateAt]
  by_cases hb : b = a <;> simp [hb]

theorem isLiveAt_release (h : Nodes α) (a b : Address) :
    (h.release a).isLiveAt b = (decide (b ≠ a) && h.isLiveAt b) := by
  unfold isLiveAt
  rw [at?_release]
  by_cases hb : b = a <;> simp [hb]

theorem exists_node_of_isLiveAt {a : Address} (ha : h.isLiveAt a) : ∃ k, a = .node k := by
  cases a with
  | node k => exact ⟨k, rfl⟩
  | _ => cases ha

/-- One change of the memory of nodes, if any, and what it does to the places. -/
inductive Turned (h : Nodes α) : Nodes α → List (Nat × Turnover) → Prop
  | same : Turned h h []
  | alloc (x : Object α) : Turned h (h.alloc x) [(h.next, .made)]
  | updateAt (a : Address) (f : Object α → Object α) : Turned h (h.updateAt a f) []
  | release (k : Nat) (live : h.isLiveAt (.node k)) : Turned h (h.release (.node k)) [(k, .freed)]
  | recycle (k : Nat) : Turned h (h.recycle k) []

/-- The log tells which places have a node now. -/
def Tenanted (h : Nodes α) (log : List (Nat × Turnover)) : Prop :=
  ∀ k, ∃ n, part k log = tenancies n ++ if h.isLiveAt (.node k) then [.made] else []

namespace Tenanted

theorem empty : Tenanted (.empty : Nodes α) [] := fun _ => ⟨0, rfl⟩

theorem congr (t : h.Tenanted log) (same : ∀ a, h'.isLiveAt a = h.isLiveAt a) : h'.Tenanted log := by
  intro k
  rw [same]
  exact t k

theorem alloc (t : h.Tenanted log) (x : Object α) :
    Tenanted (h.alloc x) (log ++ [(h.next, .made)]) := by
  intro k
  obtain ⟨n, hn⟩ := t k
  refine ⟨n, ?_⟩
  rw [part_append, hn, isLiveAt_alloc]
  by_cases hk : k = h.next
  · subst hk
    rw [show h.isLiveAt (.node h.next) = false by simp [isLiveAt, at?_next]]
    simp [part]
  · simp [part, hk, Ne.symm hk]

theorem release (t : h.Tenanted log) (live : h.isLiveAt (.node k)) :
    (h.release (.node k)).Tenanted (log ++ [(k, .freed)]) := by
  intro j
  obtain ⟨n, hn⟩ := t j
  rw [part_append, hn, isLiveAt_release]
  by_cases hj : j = k
  · subst hj
    refine ⟨n + 1, ?_⟩
    rw [live, tenancies_succ]
    simp [part]
  · refine ⟨n, ?_⟩
    simp [part, hj, Ne.symm hj]

theorem turned (t : h.Tenanted log) (c : h.Turned h' new) : h'.Tenanted (log ++ new) := by
  cases c with
  | same => simpa using t
  | alloc x => exact t.alloc x
  | updateAt a f =>
    rw [List.append_nil]
    exact t.congr (h.isLiveAt_updateAt a f)
  | release k live => exact t.release live
  | recycle k =>
    rw [List.append_nil]
    exact t.congr fun a => by rw [isLiveAt, isLiveAt, at?_recycle]

/-- Nodes in different places are given back one after the other. -/
theorem releaseAll (t : h.Tenanted log) (nodup : ks.Nodup) (live : ∀ k ∈ ks, h.isLiveAt (.node k)) :
    (h.releaseAll ks).Tenanted (log ++ ks.map (·, .freed)) := by
  induction ks generalizing h log with
  | nil =>
    rw [List.map_nil, List.append_nil]
    exact t
  | cons k ks ih =>
    obtain ⟨hk, nodup⟩ := List.nodup_cons.mp nodup
    have rest := ih (t.release (live k List.mem_cons_self)) nodup fun j hj => by
      have hjk : j ≠ k := fun e => hk (e ▸ hj)
      simp [isLiveAt_release, hjk, live j (List.mem_cons_of_mem _ hj)]
    rwa [List.append_assoc] at rest

theorem exists_tenancies (t : h.Tenanted log) (gone : h.isLiveAt (.node k) = false) :
    ∃ n, part k log = tenancies n := by
  obtain ⟨n, hn⟩ := t k
  refine ⟨n, ?_⟩
  rw [hn, gone]
  exact List.append_nil _

end Tenanted

end Nodes

/-- The end of a stack with the linked nodes `ps` and the parked nodes `ks`, each of which is there. `h` and
`h'` are the nodes before and after, and `log` tells what has happened to the places before. -/
structure Closing (h h' : Nodes α) (notes : List (Note α)) (log : List (Nat × Turnover)) (ps : List (Nat × α))
    (ks : List Nat) (report : Event) : Prop where
  seen : notes = estate ps ++ burial ks ++ [.log report]
  nodup : (ps.map Prod.fst ++ ks).Nodup
  live : ∀ k ∈ ps.map Prod.fst ++ ks, h.isLiveAt (.node k)
  remains : ∀ a, h'.isLiveAt a ↔ h.isLiveAt a ∧ a ∉ (ps.map Prod.fst ++ ks).map Address.node
  tenanted : h'.Tenanted (log ++ turnovers none notes)

theorem Nodes.Tenanted.closing {h : Nodes α} {log : List (Nat × Turnover)} (t : h.Tenanted log)
    (ps : List (Nat × α)) (ks : List Nat) (nodup : (ps.map Prod.fst ++ ks).Nodup)
    (live : ∀ k ∈ ps.map Prod.fst ++ ks, h.isLiveAt (.node k)) (report : Event) :
    Closing h (h.releaseAll (ps.map Prod.fst ++ ks)) (estate ps ++ burial ks ++ [.log report]) log ps ks
      report where
  seen := rfl
  nodup := nodup
  live := live
  remains a := by
    rw [isLiveAt, at?_releaseAll, isLiveAt]
    by_cases ha : a ∈ (ps.map Prod.fst ++ ks).map Address.node
    · rw [if_pos ha]
      exact iff_of_false nofun fun h => h.2 ha
    · rw [if_neg ha]
      exact (and_iff_left ha).symm
  tenanted := by
    have freed : turnovers none (estate ps ++ burial ks ++ [.log report]) =
        (ps.map Prod.fst ++ ks).map (·, .freed) := by
      simp [turnovers, List.filterMap_append, freed_estate, freed_burial, Note.freed?]
    rw [freed]
    exact t.releaseAll nodup live

end LockFreeStack
