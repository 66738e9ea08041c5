import LockFreeStack.Proofs.Hazard.Reachable
import LockFreeStack.Proofs.Hazard.Turns
import LockFreeStack.Proofs.Parking.Lists

/-!
Where every node is. At any time a place of node memory is either free or holds a node that is on its
way into a stack, linked into one, in the hands of the pop that has detached it, parked in one entry,
or about to be deleted by the pass that has taken it from its entry.
-/

namespace LockFreeStack.Hazard

variable {α : Type}

/-- An entry is listed on the parked list of a stack, or it is held by the thread that inserts it or
passes over it. -/
inductive Spot where
  | free
  | fresh (i : Nat)
  | linked (s : Nat)
  | taken (i s : Nat)
  | listed (e s : Nat)
  | held (e i : Nat)
  | spent (i s : Nat)

/-- The spot goes with the stage of a node, and with the keeper of its entry. -/
def Spot.Fits (g : Ghost) (a : Address) : Spot → Prop
  | free => g.stage a = .free
  | fresh i => g.stage a = .own i .fresh
  | linked s => g.stage a = .linked s
  | taken i s => g.stage a = .own i (.taken s)
  | listed e s => g.stage a = .parked e s ∧ g.keeper e = .listed s
  | held e i => ∃ s, g.stage a = .parked e s ∧ (g.keeper e = .due s i ∨ g.keeper e = .kept s i)
  | spent i s => g.stage a = .own i (.spent s)

theorem Spot.Fits.unique {g : Ghost} {a : Address} {w w' : Spot} (h : w.Fits g a) (h' : w'.Fits g a) :
    w = w' := by
  cases w with
  | held e i =>
    obtain ⟨s, hs, hk⟩ := h
    cases w' with
    | held d j =>
      obtain ⟨t, ht, hj⟩ := h'
      obtain ⟨rfl, rfl⟩ : e = d ∧ s = t := by simpa [hs] using ht
      obtain hk | hk := hk <;> simpa [hk, eq_comm] using hj
    | _ => simp_all [Fits]
  | _ => cases w' <;> simp_all [Fits]

namespace Crowd

variable {x : Crowd α} {chain : Nat → List Address} {linked held : Nat → List Nat} {g : Ghost}
  {a : Address} {w : Spot} {i s e : Nat}

/-- The entry `e` is that of the node at `a`. -/
def Parks (x : Crowd α) (e : Nat) (a : Address) : Prop :=
  ∃ y, x.memory.entries.get? e = some y ∧ y.address = a

/-- `chain` has the nodes linked into each stack, `linked` the entries on its parked list, and `held`
those in the hands of each thread. -/
structure Layout (x : Crowd α) (chain : Nat → List Address) (linked held : Nat → List Nat) : Prop where
  stack : ∀ s, Path x.memory.nodes.below? (x.memory.hazard s).head (chain s) .null
  list : ∀ s, Path x.memory.entries.follow (x.memory.first s) ((linked s).map some) none
  hand : ∀ i, x.memory.entries.Fills (x.role i).hand (held i)
  nodup : ∀ i, (held i).Nodup

def Lies (x : Crowd α) (chain : Nat → List Address) (linked held : Nat → List Nat) (a : Address) :
    Spot → Prop
  | .free => x.memory.nodes.isLiveAt a = false
  | .fresh i => (x.role i).own = some (a, .fresh)
  | .linked s => a ∈ chain s
  | .taken i s => (x.role i).own = some (a, .taken s)
  | .listed e s => x.Parks e a ∧ e ∈ linked s
  | .held e i => x.Parks e a ∧ e ∈ held i
  | .spent i s => (x.role i).own = some (a, .spent s)

namespace Stable

theorem stage_eq_parked (k : x.Stable g) :
    g.stage a = .parked e s ↔ x.Parks e a ∧ (g.keeper e).stack? = some s := by
  rw [← k.sound.placed.parked e a s]
  simp only [Ghost.parked, parkedAt?, Option.bind_eq_some_iff, Option.map_eq_some_iff, Prod.mk.injEq,
    Parks]
  constructor
  · rintro ⟨y, hy, t, ht, rfl, rfl⟩
    exact ⟨⟨y, hy, rfl⟩, ht⟩
  · rintro ⟨⟨y, hy, rfl⟩, hs⟩
    exact ⟨y, hy, s, hs, rfl, rfl⟩

theorem lies_iff (k : x.Stable g) (plain : x.memory.nodes.Plain)
    (ls : Stored.Lists x.memory.entries x.memory.first (fun i => (x.role i).hand) g.keeper linked held) :
    x.Lies g.chain linked held a w ↔ w.Fits g a := by
  have owned (i : Nat) (grade : Grade) := k.sound.placed.owned i a grade
  cases w with
  | free =>
    have live := (plain.isLiveAt_iff a).trans (k.sound.placed.live a)
    exact (Bool.not_eq_true _).symm.to_iff.trans (live.not.trans not_not)
  | fresh i => exact owned i .fresh
  | linked s => exact k.sound.placed.linked a s
  | taken i s => exact owned i (.taken s)
  | spent i s => exact owned i (.spent s)
  | listed e s =>
    simp only [Lies, Spot.Fits, k.stage_eq_parked, ls.mem_linked, and_assoc]
    refine and_congr_right fun _ => (and_iff_right_of_imp fun h => ?_).symm
    rw [h]
    rfl
  | held e i =>
    simp only [Lies, Spot.Fits, k.stage_eq_parked, ls.mem_held]
    constructor
    · rintro ⟨hp, s, h⟩
      exact ⟨s, ⟨hp, by obtain h | h := h <;> rw [h] <;> rfl⟩, h⟩
    · rintro ⟨s, ⟨hp, -⟩, h⟩
      exact ⟨hp, s, h⟩

/-- Every place of node memory is at one spot. -/
theorem existsUnique_lies (k : x.Stable g) (plain : x.memory.nodes.Plain)
    (ls : Stored.Lists x.memory.entries x.memory.first (fun i => (x.role i).hand) g.keeper linked held)
    (a : Address) : ∃! w, x.Lies g.chain linked held a w := by
  simp only [k.lies_iff plain ls]
  suffices h : ∃ w : Spot, w.Fits g a from h.imp fun w hw => ⟨hw, fun _ hw' => hw'.unique hw⟩
  cases hs : g.stage a with
  | free => exact ⟨.free, hs⟩
  | linked s => exact ⟨.linked s, hs⟩
  | own i grade =>
    cases grade with
    | fresh => exact ⟨.fresh i, hs⟩
    | taken s => exact ⟨.taken i s, hs⟩
    | spent s => exact ⟨.spent i s, hs⟩
  | parked e s =>
    obtain ⟨-, hk⟩ := k.stage_eq_parked.mp hs
    cases he : g.keeper e with
    | nobody => simp [he, Keeper.stack?] at hk
    | listed t =>
      obtain rfl : t = s := by simpa [he, Keeper.stack?] using hk
      exact ⟨.listed e t, hs, he⟩
    | due t i | kept t i =>
      obtain rfl : t = s := by simpa [he, Keeper.stack?] using hk
      exact ⟨.held e i, t, hs, by simp [he]⟩

theorem layout (k : x.Stable g)
    (ls : Stored.Lists x.memory.entries x.memory.first (fun i => (x.role i).hand) g.keeper linked held) :
    x.Layout g.chain linked held :=
  ⟨k.sound.placed.path, ls.path, ls.fills, ls.held_nodup⟩

end Stable

end Crowd

end LockFreeStack.Hazard
