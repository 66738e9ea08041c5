import LockFreeStack.Proofs.Hazard.Crowd
import LockFreeStack.Proofs.Hazard.Sound

/-!
What the memory is to the stacks, and what each program point means for nodes and entries.
-/

namespace LockFreeStack

variable {α : Type}

namespace Memory

variable {m m' : Memory α} {s t : Nat} {a : Address}

/-- The first entry on the list of a stack. -/
def first (m : Memory α) (s : Nat) : Option Nat := (m.hazards[s]?).bind fun h => (m.list h.list).head

def view (m : Memory α) : Hazard.View α :=
  ⟨m.nodes, m.entries, m.tables, fun s => (m.hazard s).head, m.first, fun s => (m.hazard s).table⟩

/-- Every stack has a parked list of its own. -/
structure Tidy (m : Memory α) : Prop where
  list_lt : ∀ (s : Nat) (h : Hazard.Stack), m.hazards[s]? = some h → h.list < m.lists.size
  apart : ∀ (s t : Nat) (h h' : Hazard.Stack), m.hazards[s]? = some h → m.hazards[t]? = some h' →
    h.list = h'.list → s = t

theorem getElem?_hazards (hs : s < m.hazards.size) : m.hazards[s]? = some (m.hazard s) := by
  simp [hazard, hs]

theorem first_eq (hs : s < m.hazards.size) : m.first s = (m.list (m.hazard s).list).head := by
  simp [first, getElem?_hazards hs]

theorem hazard_setHead (hs : s < m.hazards.size) (a : Address) (t : Nat) :
    (m.setHead s a).hazard t = if t = s then { m.hazard s with head := a } else m.hazard t := by
  simp only [hazard, setHead, Array.getElem?_modify]
  by_cases ht : t = s
  · subst ht
    simp [hs]
  · simp [ht, Ne.symm ht]

theorem view_setHead (hs : s < m.hazards.size) (a : Address) :
    (m.setHead s a).view = { m.view with head := Function.update m.view.head s a } := by
  have head : (fun t => ((m.setHead s a).hazard t).head) =
      Function.update (fun t => (m.hazard t).head) s a := by
    funext t
    rw [hazard_setHead hs]
    by_cases ht : t = s <;> simp [ht]
  have table : (fun t => ((m.setHead s a).hazard t).table) = fun t => (m.hazard t).table := by
    funext t
    rw [hazard_setHead hs]
    by_cases ht : t = s <;> simp [ht]
  have first : (m.setHead s a).first = m.first := by
    funext t
    simp only [Memory.first, setHead, Array.getElem?_modify]
    by_cases ht : s = t
    · rw [if_pos ht]
      cases m.hazards[t]? <;> rfl
    · rw [if_neg ht]
      rfl
  unfold view
  rw [head, table, first]
  rfl

theorem view_setParking (tidy : m.Tidy) (hs : s < m.hazards.size) (p : Parking) :
    (m.withoutEntries.setParking (m.hazard s).list p).view =
      { m.view with entries := p.entries, first := Function.update m.view.first s p.list.head } := by
  have here := getElem?_hazards hs
  have first : (m.withoutEntries.setParking (m.hazard s).list p).first =
      Function.update m.first s p.list.head := by
    funext t
    by_cases ht : t = s
    · subst ht
      rw [Function.update_self]
      show (m.hazards[t]?).bind _ = _
      rw [here]
      simp [list, setParking, setList, withoutEntries, tidy.list_lt t _ here]
    · rw [Function.update_of_ne ht]
      show (m.hazards[t]?).bind _ = (m.hazards[t]?).bind _
      cases hh : m.hazards[t]? with
      | none => rfl
      | some h =>
        have hne : (m.hazard s).list ≠ h.list := fun he => ht (tidy.apart s t _ h here hh he).symm
        simp [list, setParking, setList, withoutEntries, hne]
  unfold view
  rw [first]
  rfl

theorem records_table (m : Memory α) (t n : Nat) : (m.table t).records[n]? = m.tables.record? ⟨t, n⟩ := by
  simp only [table, Tables.record?]
  cases m.tables[t]? <;> simp

end Memory

/-- A pass over the list of the stack `s`. -/
def Drain.Point.role (s : Nat) : Drain.Point → Hazard.Role
  | detach => {}
  | snapshot first c => { hand := ⟨s, some first, none⟩, watch := .snapshot c }
  | walk w => { hand := ⟨s, w.at?, w.kept⟩, watch := .sort w.met }
  | delete a d w =>
    { hand := ⟨s, w.at?, w.kept⟩, own := some (a, .spent s), watch := .delete a w.met, deleter := d }
  | settle w => { hand := ⟨s, none, w.kept⟩ }
  | restore c _ _ _ => { hand := ⟨s, none, some c⟩ }

namespace Hazard

def Push.role : Push α → Role
  | allocate .. => {}
  | load a | link a _ => { own := some (a, .fresh) }

def Pop.role (s : Nat) (place : Place) : Pop α → Role
  | protect (.validate a) => { reading := some ⟨s, place, a, .asked⟩ }
  | readNext a => { reading := some ⟨s, place, a, .granted⟩ }
  | detach a next => { reading := some ⟨s, place, a, .followed next⟩ }
  | take a | clear a _ | park a _ => { own := some (a, .taken s) }
  | scan a _ n => { own := some (a, .taken s), watch := .scan a n }
  | release a _ => { own := some (a, .taken s), watch := .release a }
  | insert c _ _ => { hand := ⟨s, none, some c⟩ }
  | reclaim p _ => p.role s
  | _ => {}

end Hazard

def Point.role (c : Hazard.Call α) : Point α → Hazard.Role
  | hazardPush _ p => p.role
  | hazardPop s place _ p => p.role s place
  | drain _ _ p => p.role (c.stack?.getD 0)
  | _ => {}

/-- An operation watches for readers of its own nodes only. -/
def Hazard.Role.Watchful (r : Hazard.Role) : Prop :=
  ∀ a, r.watch.node? = some a → ∃ grade, r.own = some (a, grade)

theorem Drain.Point.watchful_role (s : Nat) (p : Drain.Point) : (p.role s).Watchful := by
  cases p <;> rintro a ⟨⟩
  exact ⟨_, rfl⟩

theorem Hazard.Pop.watchful_role (s : Nat) (place : Place) (p : Hazard.Pop α) :
    (p.role s place).Watchful := by
  cases p with
  | protect q => cases q <;> rintro a ⟨⟩
  | reclaim q v => exact q.watchful_role s
  | scan | release =>
    rintro a ⟨⟩
    exact ⟨_, rfl⟩
  | _ => rintro a ⟨⟩

theorem Point.watchful_role (c : Hazard.Call α) (p : Point α) : (p.role c).Watchful := by
  cases p with
  | hazardPush s q => cases q <;> rintro a ⟨⟩
  | hazardPop s place own q => exact q.watchful_role s place
  | drain l t q => exact q.watchful_role _
  | _ => rintro a ⟨⟩

namespace Hazard.Crowd

def roleOf : Option (Call α × Point α) → Role
  | none => {}
  | some (c, p) => p.role c

def role (x : Crowd α) (i : Nat) : Role := roleOf (x.busy i)

theorem watchful_role (x : Crowd α) (i : Nat) : (x.role i).Watchful := by
  unfold role
  cases x.busy i with
  | none => rintro a ⟨⟩
  | some b => exact b.2.watchful_role b.1

theorem role_set (x : Crowd α) (i : Nat) (st : Operation.State α) (b : Option (Call α × Point α)) :
    (x.set i st b).role = Function.update x.role i (roleOf b) := by
  funext j
  by_cases hj : j = i
  · subst hj
    simp [role, set]
  · simp [role, set, hj]

end Hazard.Crowd

end LockFreeStack
