import LockFreeStack.Proofs.Hazard.Orderly
import LockFreeStack.Proofs.Hazard.Records
import LockFreeStack.Proofs.Tenancy

/-!
What can happen to the memory of nodes. Nothing but nodes of hazard stacks comes into it.
-/

namespace LockFreeStack

variable {α : Type} {m m' : Memory α} {me : Thread}

namespace Nodes

/-- One change of the memory of nodes of hazard stacks, if any, and what it does to the places. -/
inductive Turns (h : Nodes α) : Nodes α → List (Nat × Turnover) → Prop where
  | same : Turns h h []
  | alloc (v : α) (next : Address) : Turns h (h.alloc (.plain v next)) [(h.next, .made)]
  | setLink (a next : Address) : Turns h (h.updateAt a (·.setLink next)) []
  | release (k : Nat) (live : h.isLiveAt (.node k)) : Turns h (h.release (.node k)) [(k, .freed)]
  | recycle (k : Nat) : Turns h (h.recycle k) []

theorem Turns.turned {h h' : Nodes α} {new : List (Nat × Turnover)} (t : h.Turns h' new) :
    h.Turned h' new := by
  cases t with
  | same => exact .same
  | alloc v next => exact .alloc _
  | setLink a next => exact .updateAt a _
  | release k live => exact .release k live
  | recycle k => exact .recycle k

/-- All live objects are nodes of hazard stacks. -/
def Plain (h : Nodes α) : Prop := ∀ a, h.isLiveAt a → (h.plain? a).isSome

theorem Plain.turns {h h' : Nodes α} {new : List (Nat × Turnover)} (p : h.Plain) (t : h.Turns h' new) :
    h'.Plain := by
  intro b hb
  unfold isLiveAt at hb
  cases t with
  | same => exact p b hb
  | recycle k =>
    rw [at?_recycle] at hb
    rw [plain?_recycle]
    exact p b hb
  | alloc v next =>
    rw [at?_alloc] at hb
    rw [plain?_alloc]
    split
    · rfl
    · rename_i hne
      rw [if_neg hne] at hb
      exact p b hb
  | setLink a next =>
    rw [at?_updateAt] at hb
    rw [plain?_setLink]
    split
    · rename_i he
      rw [if_pos he, Option.isSome_map] at hb
      rw [Option.isSome_map]
      exact p a hb
    · rename_i hne
      rw [if_neg hne] at hb
      exact p b hb
  | release a =>
    rw [at?_release] at hb
    rw [plain?_release]
    split
    · rename_i he
      simp [he] at hb
    · rename_i hne
      rw [if_neg hne] at hb
      exact p b hb

/-- A place without a node is free. -/
theorem Plain.isLiveAt_iff {h : Nodes α} (p : h.Plain) (a : Address) : h.isLiveAt a ↔ (h.plain? a).isSome := by
  refine ⟨p a, fun ha => ?_⟩
  obtain ⟨x, hx⟩ := Option.isSome_iff_exists.mp ha
  exact isLiveAt_of_plain? hx

end Nodes

/-- A node that a deleter or a pop releases. -/
theorem Nodes.turns_release {h : Nodes α} {a : Address} (live : h.isLiveAt a) :
    h.Turns (h.release a) (turnovers none (a.freed : List (Note α))) := by
  obtain ⟨k, rfl⟩ := exists_node_of_isLiveAt live
  exact .release k live

/-- The place that the next step is given for a node. -/
def Point.made? (m : Memory α) : Point α → Option Nat
  | hazardPush _ (.allocate _ true) => some m.nodes.next
  | _ => none

theorem Memory.turns_drainStep (m : Memory α) (l t : Nat) (p : Drain.Point) :
    m.nodes.Turns (m.drainStep l t p).memory.nodes (turnovers none (m.drainStep l t p).notes) := by
  have unfreed {β : Type} (o : Outcome Parking Drain.Point β α) (h : ∀ k, .freed k ∉ o.notes)
      (f : Parking → Memory α) (same : ∀ park, (f park).nodes = m.nodes) :
      m.nodes.Turns (o.within f id .done).memory.nodes (turnovers none (o.within f id .done).notes) := by
    rw [show (o.within f id .done).notes = o.notes from rfl, turnovers_eq_nil h,
      show (o.within f id .done).memory.nodes = m.nodes from same _]
    exact .same
  cases p with
  | delete a d w =>
    simp only [drainStep]
    split
    · rename_i hd
      cases d with
      | report => exact .same
      | node => exact Nodes.turns_release hd
      | box =>
        have live : m.nodes.isLiveAt a := by
          obtain ⟨v, hv⟩ := Option.isSome_iff_exists.mp hd
          unfold Nodes.boxed? at hv
          unfold Nodes.isLiveAt
          split at hv <;> simp_all
        have freed : turnovers none (m.deletion a .box) = turnovers none (a.freed : List (Note α)) := by
          simp only [deletion]
          cases m.nodes.boxed? a <;> rfl
        rw [freed]
        exact Nodes.turns_release live
    · exact .same
  | restore c q deferred reclaimed =>
    apply unfreed
    · intro k
      have h := Insert.freed_notMem_step (α := α) c (m.parking l) q k
      simp only [Drain.step]
      rcases ho : Insert.step c (m.parking l) q with ⟨m', q' | u | f, notes⟩ <;> rw [ho] at h <;> simpa using h
    · intro park
      rfl
  | _ =>
    apply unfreed
    · intro k
      simp only [Drain.step]
      repeat' split
      all_goals simp
    · intro park
      rfl

theorem Hazard.Push.turns_step (m : Memory α) (s : Nat) (p : Hazard.Push α) :
    m.nodes.Turns (p.step m s).memory.nodes
      (turnovers ((Point.hazardPush s p).made? m) (p.step m s).notes) := by
  cases p with
  | allocate v granted =>
    cases granted with
    | true => exact .alloc v .null
    | false => exact .same
  | load node => exact .same
  | link node seen =>
    simp only [step]
    split
    · exact .same
    · split <;> exact .setLink node seen

theorem Hazard.Pop.turns_step (m : Memory α) (s : Nat) (place : Place) (p : Hazard.Pop α) :
    m.nodes.Turns (p.step m s place).memory.nodes (turnovers none (p.step m s place).notes) := by
  cases p with
  | release node v =>
    simp only [step]
    split
    · rename_i live
      exact Nodes.turns_release live
    · exact .same
  | reclaim q v => exact m.turns_drainStep _ _ _
  | insert c q v =>
    have h (k : Nat) := Insert.freed_notMem_step (α := α) c (m.parking (m.hazard s).list) q k
    have none : LockFreeStack.turnovers none (step m s place (.insert c q v)).notes = [] := turnovers_eq_nil h
    rw [none]
    exact .same
  | protect q =>
    have h (k : Nat) : .freed k ∉ (step m s place (.protect q)).notes := by
      cases q <;> simp [step, Protect.step, Outcome.within]
    rw [turnovers_eq_nil h]
    exact .same
  | park => exact .same
  | _ =>
    simp only [step]
    repeat' split
    all_goals exact .same

theorem Operation.turns_step {p : Point α} (fitting : p.Fitting me) :
    m.nodes.Turns (step (m, me) p).memory.1.nodes (turnovers (p.made? m) (step (m, me) p).notes) := by
  have onRecords (hp : p.OnRecords) (none : p.made? m = none) :
      m.nodes.Turns (step (m, me) p).memory.1.nodes (turnovers (p.made? m) (step (m, me) p).notes) := by
    have stays := stays_step hp m me
    obtain ⟨ts, hts⟩ := stays.memory
    rw [hts, none, turnovers_eq_nil stays.notes]
    exact .same
  cases p with
  | hazardPush s q => exact q.turns_step m s
  | hazardPop s place own q => exact q.turns_step m s place
  | drain l t q => exact m.turns_drainStep _ _ _
  | acquire | popWith | publish | dropSlot | takeBack | letGo | release | exit | exitRelease =>
    exact onRecords trivial rfl
  | _ => exact fitting.elim

theorem Point.turns_miss {p q : Point α} (h : p.miss? m = some (m', q)) : m.nodes.Turns m'.nodes [] := by
  unfold miss? at h
  split at h
  case h_5 => cases h
  case h_1 node seen =>
    obtain ⟨rfl, rfl⟩ := Prod.mk.inj (Option.some.inj h)
    exact .setLink node seen
  all_goals
    obtain ⟨rfl, rfl⟩ := Prod.mk.inj (Option.some.inj h)
    exact .same

namespace Hazard

theorem Change.turns (c : Change) (m : Memory α) : m.nodes.Turns (c.apply m).nodes [] := by
  cases c with
  | recycleNode k => exact .recycle k
  | registry | stack =>
    simp only [apply]
    split <;> exact .same
  | _ => exact .same

namespace Crowd

variable {x : Crowd α}

/-- What a move does to the places of nodes. -/
def turnovers (x : Crowd α) : Move α → List (Nat × Turnover)
  | .step i =>
    match x.busy i with
    | none => []
    | some (_, p) =>
      match Operation.step (x.memory, x.me i) p with
      | ⟨_, .fault _, _⟩ => []
      | ⟨_, _, notes⟩ => LockFreeStack.turnovers (p.made? x.memory) notes
  | _ => []

theorem Orderly.turns (o : x.Orderly) (mv : Move α) :
    x.memory.nodes.Turns (x.move mv).memory.nodes (x.turnovers mv) := by
  cases mv with
  | call i c =>
    simp only [Crowd.move]
    split <;> exact .same
  | step i =>
    cases hb : x.busy i with
    | none =>
      simp only [Crowd.move, turnovers, hb]
      exact .same
    | some b =>
      obtain ⟨c, p⟩ := b
      have turns := Operation.turns_step (m := x.memory) ((o.seated_of_busy hb).fitting _ rfl)
      rcases ho : Operation.step (x.memory, x.me i) p with ⟨st, q | a | f, notes⟩ <;>
        rw [ho] at turns <;> simp only [Crowd.move, turnovers, hb, ho]
      · exact turns
      · exact turns
      · exact .same
  | miss i =>
    simp only [Crowd.move]
    split
    · exact .same
    · split
      · rename_i hm
        exact Point.turns_miss hm
      · exact .same
  | change c => exact c.turns x.memory

/-- What all moves do to the places of nodes. -/
def ledger (ms : List (Move α)) : List (Nat × Turnover) := (play move turnovers start ms).2

theorem tenanted_after (ms : List (Move α)) : (after ms).memory.nodes.Tenanted (ledger ms) := by
  have h : (play move turnovers (start : Crowd α) ms).1.memory.nodes.Tenanted (ledger ms) :=
    (play_induction (fun (x : Crowd α) log => x.Orderly ∧ x.memory.nodes.Tenanted log)
      ⟨.start, .empty⟩ (fun _ _ mv ⟨o, t⟩ => ⟨o.move mv, t.turned (o.turns mv).turned⟩) ms).2
  rwa [play_fst_eq_foldl] at h

theorem plain_after (ms : List (Move α)) : (after ms).memory.nodes.Plain := by
  induction ms using List.reverseRecOn with
  | nil =>
    intro a ha
    cases a <;> cases ha
  | append_singleton ms mv ih =>
    exact after_append_singleton ms mv ▸ ih.turns ((orderly_after ms).turns mv)

end Crowd

end Hazard

end LockFreeStack
