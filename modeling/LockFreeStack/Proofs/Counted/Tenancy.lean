import LockFreeStack.Proofs.Counted.Crowd
import LockFreeStack.Proofs.Tenancy

/-!
What the threads on a counted stack do to the places of nodes.
-/

namespace LockFreeStack.Counted

variable {ι α : Type}

namespace Point

/-- The place that the next step is given for a node. -/
def made? (m : Store α) : Point α → Option Nat
  | push (.allocate _ true) => some m.nodes.next
  | _ => none

theorem turned_step (p : Point α) (m : Store α) :
    m.nodes.Turned (p.step m).memory.nodes (turnovers (p.made? m) (p.step m).notes) := by
  obtain (⟨v, granted⟩ | _ | ⟨node, seen⟩) | p := p
  case push.allocate =>
    cases granted with
    | true => exact .alloc _
    | false => exact .same
  case push.load => exact .same
  case push.link =>
    simp only [step, Push.step]
    split
    · exact .same
    · split <;> exact .updateAt node _
  cases p with
  | fold held v =>
    simp only [step, Pop.step]
    repeat' split
    · exact .same
    · exact .same
    all_goals exact .updateAt held.address _
  | giveBack held now =>
    simp only [step, Pop.step]
    split
    · exact .same
    · exact .updateAt held.address _
  | release node v | releaseLate node now =>
    simp only [step, Pop.step]
    split
    · rename_i live
      obtain ⟨k, rfl⟩ := Nodes.exists_node_of_isLiveAt live
      exact .release k live
    · exact .same
  | _ =>
    simp only [step, Pop.step]
    repeat' split
    all_goals exact .same

end Point

namespace Crowd

variable [DecidableEq ι] {x : Crowd ι α}

/-- What a move does to the places of nodes. -/
def turnovers (x : Crowd ι α) : Move ι α → List (Nat × Turnover)
  | .step i =>
    match x.point i with
    | none => []
    | some p =>
      match p.step x.store with
      | ⟨_, .fault _, _⟩ => []
      | ⟨_, _, notes⟩ => LockFreeStack.turnovers (p.made? x.store) notes
  | _ => []

theorem turned_move (x : Crowd ι α) (mv : Move ι α) :
    x.store.nodes.Turned (x.move mv).store.nodes (x.turnovers mv) := by
  cases mv with
  | call i c =>
    simp only [move]
    split <;> exact .same
  | step i =>
    cases hp : x.point i with
    | none =>
      simp only [move, turnovers, hp]
      exact .same
    | some p =>
      have turned := p.turned_step x.store
      rcases ho : p.step x.store with ⟨m, q | a | f, notes⟩ <;> rw [ho] at turned <;>
        simp only [move, turnovers, hp, ho]
      · exact turned
      · exact turned
      · exact .same
  | miss i =>
    simp only [move]
    split
    · exact .updateAt _ _
    · exact .same
  | recycle k => exact .recycle k

/-- What all moves do to the places of nodes. -/
def ledger (ms : List (Move ι α)) : List (Nat × Turnover) := (play move turnovers start ms).2

theorem tenanted_run (ms : List (Move ι α)) : (run ms).1.store.nodes.Tenanted (ledger ms) := by
  rw [run, play_fst turnovers]
  apply play_induction (fun (x : Crowd ι α) log => x.store.nodes.Tenanted log) .empty
  intro x log mv t
  exact t.turned (x.turned_move mv)

end Crowd

end LockFreeStack.Counted
