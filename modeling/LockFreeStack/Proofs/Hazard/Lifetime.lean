import LockFreeStack.Proofs.Hazard.Estate
import LockFreeStack.Proofs.Hazard.Keepers
import LockFreeStack.Proofs.Hazard.Pruning

/-!
How long claims live, whatever becomes of slots, registries, stacks and threads.
-/

namespace LockFreeStack.Hazard

variable {α : Type} {place : Place} {i c : Nat}

namespace Crowd

variable {x y : Crowd α}

theorem keeps_congr (me : y.me = x.me) (busy : y.busy = x.busy) : y.Keeps i c ↔ x.Keeps i c := by
  rw [Keeps, Keeps, HasSlot, HasSlot, Crowd.point, Crowd.point, me, busy]

theorem place?_move (o : x.Orderly) (h : (x.me i).place? c = some place) (mv : Move α) :
    ((x.move mv).me i).place? c = some place := by
  obtain same | ⟨rfl, call, p, hb, hme⟩ := x.me_move i mv
  · rw [same]
    exact h
  · rw [hme]
    exact (Operation.tenure_step (o.seated_of_busy hb)).places h

end Crowd

namespace Estate

variable {e : Estate α} {os : List (Occurrence α)} {o : Occurrence α}

/-- Threads are moved by moves only. -/
theorem occur_cases (e : Estate α) (o : Occurrence α) :
    (∃ mv, o = .move mv ∧ (e.occur o).crowd = e.crowd.move mv) ∨
      (e.occur o).crowd.me = e.crowd.me ∧ (e.occur o).crowd.busy = e.crowd.busy := by
  cases o with
  | move mv =>
    simp only [occur]
    split
    · exact .inl ⟨mv, rfl, rfl⟩
    · exact .inr ⟨rfl, rfl⟩
  | dropStack s =>
    simp only [occur]
    split <;> exact .inr ⟨rfl, rfl⟩

namespace Regular

theorem clears_of_lost (g : e.Regular) (kept : e.crowd.Keeps i c) (hp : (e.crowd.me i).place? c = some place)
    (lost : ¬(e.occur o).crowd.Keeps i c) : o = .move (.step i) ∧ (e.occur o).crowd.Clears i place := by
  obtain ⟨mv, rfl, hmv⟩ | ⟨me, busy⟩ := e.occur_cases o
  · rw [hmv] at lost ⊢
    exact (g.orderly.clears_of_lost kept hp lost).imp_left (congrArg _)
  · exact absurd ((Crowd.keeps_congr me busy).mpr kept) lost

theorem pinned_by (g : e.Regular) (loose : ¬(e.crowd.me i).isPinned c)
    (h : ((e.occur o).crowd.me i).isPinned c) :
    o = .move (.step i) ∧ ∃ call t purpose a k, e.crowd.busy i = some (call, .acquire t purpose a) ∧
      purpose.pins ∧ (Point.acquire t purpose a : Point α).verdict? t e.crowd.memory (e.crowd.me i) =
        some (.ok k) ∧ ((e.occur o).crowd.me i).place? c = some ⟨t, k⟩ := by
  obtain ⟨mv, rfl, hmv⟩ | ⟨me, -⟩ := e.occur_cases o
  · rw [hmv] at h ⊢
    exact (g.orderly.pinned_by loose h).imp_left (congrArg _)
  · exact absurd (me ▸ h) loose

theorem unpinned_by (g : e.Regular) (h : (e.crowd.me i).isPinned c) (hp : (e.crowd.me i).place? c = some place)
    (loose : ¬((e.occur o).crowd.me i).isPinned c) :
    o = .move (.step i) ∧ (e.crowd.point i = some .exit ∨ e.owners place.table = 0 ∧
      ∃ t purpose j, e.crowd.point i = some (.acquire t purpose (.prune j)) ∧ (e.crowd.me i).Lacks t) := by
  obtain ⟨mv, rfl, hmv⟩ | ⟨me, -⟩ := e.occur_cases o
  · rw [hmv] at loose
    obtain ⟨rfl, exits | ⟨t, purpose, j, place', point, lacks, hp', none⟩⟩ := g.orderly.unpinned_by h loose
    · exact ⟨rfl, .inl exits⟩
    · obtain rfl := Option.some.inj (hp.symm.trans hp')
      refine ⟨rfl, .inr ⟨?_, t, purpose, j, point, lacks⟩⟩
      rw [← g.handles]
      exact not_not.mp fun h => Bool.false_ne_true (none.symm.trans ((Memory.hasHandles_iff ..).mpr h))
  · exact absurd (me ▸ h) loose

theorem place?_occur (g : e.Regular) (h : (e.crowd.me i).place? c = some place) (o : Occurrence α) :
    ((e.occur o).crowd.me i).place? c = some place := by
  obtain ⟨mv, rfl, hmv⟩ | ⟨me, -⟩ := e.occur_cases o
  · rw [hmv]
    exact Crowd.place?_move g.orderly h mv
  · rw [me]
    exact h

end Regular

theorem after_append_snoc (past rest : List (Occurrence α)) (o : Occurrence α) :
    after (past ++ (rest ++ [o])) = (after (past ++ rest)).occur o := by
  rw [← List.append_assoc, after_append_singleton]

/-- A pin stays as long as the table has a handle and its thread does not exit. -/
theorem pinned_append {past rest : List (Occurrence α)} (pinned : ((after past).crowd.me i).isPinned c)
    (hp : ((after past).crowd.me i).place? c = some place)
    (lasting : ∀ d o, d ++ [o] <+: rest → (after (past ++ d)).owners place.table ≠ 0 ∧
      (after (past ++ d)).crowd.point i ≠ some .exit) :
    ((after (past ++ rest)).crowd.me i).isPinned c ∧
      ((after (past ++ rest)).crowd.me i).place? c = some place := by
  induction rest using List.reverseRecOn with
  | nil => simpa using ⟨pinned, hp⟩
  | append_singleton rest o ih =>
    obtain ⟨pinned, hp⟩ := ih fun d o' hd => lasting d o' (hd.trans (List.prefix_append rest [o]))
    obtain ⟨handles, stays⟩ := lasting rest o (List.prefix_refl _)
    have g := regular_after (past ++ rest)
    rw [after_append_snoc]
    refine ⟨by_contra fun loose => ?_, g.place?_occur hp o⟩
    obtain ⟨-, exits | ⟨none, -⟩⟩ := g.unpinned_by pinned hp loose
    · exact stays exits
    · exact handles none

theorem searched_append {past rest : List (Occurrence α)} {call : Call α} {t u : Nat} {purpose : Purpose}
    (hu : u < (after past).crowd.memory.tables.size) (dead : (after past).owners u = 0)
    (hb : (after past).crowd.busy i = some (call, .acquire t purpose (.prune 0)))
    (within : ∀ d, d <+: rest → ∃ a, (after (past ++ d)).crowd.busy i = some (call, .acquire t purpose a)) :
    (u < (after (past ++ rest)).crowd.memory.tables.size ∧ (after (past ++ rest)).owners u = 0) ∧
      ∀ a, (after (past ++ rest)).crowd.busy i = some (call, .acquire t purpose a) →
        a.Searched u ((after (past ++ rest)).crowd.me i) := by
  induction rest using List.reverseRecOn with
  | nil =>
    rw [List.append_nil]
    refine ⟨⟨hu, dead⟩, fun a ha => ?_⟩
    cases hb.symm.trans ha
    exact fun k hk => absurd hk (Nat.not_lt_zero k)
  | append_singleton rest o ih =>
    have earlier (d : List (Occurrence α)) (hd : d <+: rest) := within d (hd.trans (List.prefix_append rest [o]))
    obtain ⟨⟨hu, dead⟩, searched⟩ := ih earlier
    obtain ⟨a, ha⟩ := earlier rest (List.prefix_refl _)
    have g := regular_after (past ++ rest)
    rw [after_append_snoc]
    refine ⟨(g.owners_occur hu dead o).symm, fun b hb => ?_⟩
    obtain ⟨mv, rfl, hmv⟩ | ⟨me, busy⟩ := (after (past ++ rest)).occur_cases o
    · rw [hmv] at hb ⊢
      refine Crowd.searched_move ha (searched a ha) ?_ mv hb
      have none := (g.handles u).trans dead
      exact Bool.not_eq_true _ ▸ fun h => (Memory.hasHandles_iff ..).mp h none
    · rw [busy] at hb
      rw [me]
      exact searched b hb

/-- In an estate. A thread that is in no operation owns the records of the claims that its slots and pins
keep, and each handle that a table counts is somebody's. -/
structure Kept (e : Estate α) : Prop where
  handles : ∀ t, (e.crowd.memory.table t).handles = e.owners t
  owned : ∀ i place, e.crowd.busy i = none →
    ((∃ r, e.crowd.memory.tables.record? place = some r ∧ r.owner = i + 1) ↔
      ∃ c, e.crowd.Keeps i c ∧ (e.crowd.me i).place? c = some place)
  vacant : ∀ place r, e.crowd.memory.tables.record? place = some r → r.owner = 0 → r.published = .null
  claimed : (∀ i, e.crowd.busy i = none) → ∀ t,
    {ic : Nat × Nat | e.crowd.Keeps ic.1 ic.2 ∧ ∃ k, (e.crowd.me ic.1).place? ic.2 = some ⟨t, k⟩}.encard =
      (e.crowd.memory.table t).claimed

/-- With the next occurrence. The step with which the last keeper of a claim goes is followed by the two
that clear the address and reset the owner. -/
structure Releases (e : Estate α) : Prop where
  lost : ∀ o i c place, e.crowd.Keeps i c → (e.crowd.me i).place? c = some place →
    ¬(e.occur o).crowd.Keeps i c → o = .move (.step i) ∧ (e.occur o).crowd.Clears i place
  cleared : ∀ i place, e.crowd.Clears i place →
    (e.occur (.move (.step i))).crowd.disowns? i = some place ∧
      ∃ r, (e.occur (.move (.step i))).crowd.memory.tables.record? place = some r ∧
        r.owner = i + 1 ∧ r.published = .null
  disowned : ∀ i place, e.crowd.disowns? i = some place →
    (e.occur (.move (.step i))).crowd.memory.tables.record? place = some ⟨0, .null⟩

/-- With the next occurrence. Each successful acquisition that asks for a pin has one in the end, and there
are no other pins. They go in the exit of the thread, which leaves nothing behind, or when the thread makes
another claim and nobody has the registry. -/
structure Pins (e : Estate α) : Prop where
  sought : ∀ i call t purpose a, e.crowd.busy i = some (call, .acquire t purpose a) →
    call.Seeks e.crowd.memory t ∧ call.purpose? = some purpose
  pinned : ∀ i call t purpose a k, e.crowd.busy i = some (call, .acquire t purpose a) → purpose.pins →
    (Point.acquire t purpose a : Point α).verdict? t e.crowd.memory (e.crowd.me i) = some (.ok k) →
    ∃ c, ((e.occur (.move (.step i))).crowd.me i).isPinned c ∧
      ((e.occur (.move (.step i))).crowd.me i).place? c = some ⟨t, k⟩
  origin : ∀ o i c, ¬(e.crowd.me i).isPinned c → ((e.occur o).crowd.me i).isPinned c →
    o = .move (.step i) ∧ ∃ call t purpose a k, e.crowd.busy i = some (call, .acquire t purpose a) ∧
      purpose.pins ∧
      (Point.acquire t purpose a : Point α).verdict? t e.crowd.memory (e.crowd.me i) = some (.ok k) ∧
      ((e.occur o).crowd.me i).place? c = some ⟨t, k⟩
  unpinned : ∀ o i c place, (e.crowd.me i).isPinned c → (e.crowd.me i).place? c = some place →
    ¬((e.occur o).crowd.me i).isPinned c →
    o = .move (.step i) ∧ (e.crowd.point i = some .exit ∨ e.owners place.table = 0 ∧
      ∃ t purpose j, e.crowd.point i = some (.acquire t purpose (.prune j)) ∧ (e.crowd.me i).Lacks t)
  exited : ∀ i call, e.crowd.busy i = some (call, .exit) →
    (e.occur (.move (.step i))).crowd.busy i = none → ∀ c, ¬(e.occur (.move (.step i))).crowd.Keeps i c

/-- Of everything that happens. A pin on a registry that somebody has lasts until the exit of its thread,
and none on a registry that nobody has is left when its thread begins to claim another record. -/
structure Lifetimes (os : List (Occurrence α)) : Prop where
  kept : (after os).Kept
  releases : (after os).Releases
  pins : (after os).Pins
  lasting : ∀ past rest i c place, past ++ rest = os → ((after past).crowd.me i).isPinned c →
    ((after past).crowd.me i).place? c = some place →
    (∀ d o, d ++ [o] <+: rest → (after (past ++ d)).owners place.table ≠ 0 ∧
      (after (past ++ d)).crowd.point i ≠ some .exit) →
    ((after os).crowd.me i).isPinned c ∧
      ∃ r, (after os).crowd.memory.tables.record? place = some r ∧ r.owner = i + 1
  pruned : ∀ past rest i call t purpose q u, past ++ rest = os → u < (after past).crowd.memory.tables.size →
    (after past).owners u = 0 → (after past).crowd.busy i = some (call, .acquire t purpose (.prune 0)) →
    (∀ d, d <+: rest → ∃ a, (after (past ++ d)).crowd.busy i = some (call, .acquire t purpose a)) →
    (after os).crowd.busy i = some (call, .acquire t purpose (.claiming q)) →
    ∀ c place, ((after os).crowd.me i).isPinned c → ((after os).crowd.me i).place? c = some place →
      place.table ≠ u

namespace Regular

theorem kept (g : e.Regular) : e.Kept := by
  have o := g.orderly
  refine ⟨g.handles, fun i place idle => ?owned, g.clean.vacant, fun idle => ?claimed⟩
  case owned =>
    have none : e.crowd.returns? i = none := by simp [Crowd.returns?, Crowd.point, idle]
    simp [o.owner_iff, none]
  case claimed => exact o.encard_keeps fun i => by simp [Crowd.returns?, Crowd.point, idle i]

theorem releases (g : e.Regular) : e.Releases :=
  ⟨fun _ _ _ _ => g.clears_of_lost, fun _ _ => g.orderly.disowns_of_clears,
    fun _ _ => g.orderly.vacant_of_disowns g.clean⟩

theorem pins (g : e.Regular) : e.Pins :=
  ⟨fun i call t purpose a hb =>
      ⟨(g.seeking.sought i call t purpose a hb).1, g.seeking.purpose i call t purpose a hb⟩,
    fun _ _ _ _ _ _ => g.orderly.pins, fun _ _ _ => g.pinned_by, fun _ _ _ _ => g.unpinned_by,
    fun _ _ => g.orderly.none_kept_of_exit⟩

end Regular

/-- Claims live as long as something keeps them, whatever happens. -/
theorem claims_live_while_kept (os : List (Occurrence α)) : Lifetimes os := by
  have g := regular_after os
  refine ⟨g.kept, g.releases, g.pins, fun past rest i c place split pinned hp lasting => ?lasting,
    fun past rest i call t purpose q u split hu dead hb within claiming c place pinned hp => ?pruned⟩
  case lasting =>
    subst split
    obtain ⟨pinned, hp⟩ := pinned_append pinned hp lasting
    exact ⟨pinned, g.orderly.owner_iff.mpr (.inl ⟨c, .inr pinned, hp⟩)⟩
  case pruned =>
    subst split
    exact Crowd.unpinned_of_searched ((searched_append hu dead hb within).2 _ claiming) pinned hp

/-- Thread 0 has used a registry that nobody has any more, and there is another one. -/
def orphaned : List (Occurrence Unit) :=
  [.move (.change (.registry 1)), .move (.call 0 (.lend 0))] ++ List.replicate 6 (.move (.step 0)) ++
    [.move (.call 0 .takeBack), .move (.step 0), .move (.change (.unhandle 0)), .move (.change (.registry 1))]

example : ((after orphaned).crowd.memory.table 0).claimed = 1 ∧ (after orphaned).owners 0 = 0 := by
  decide +kernel

example :
    let e := after (orphaned ++ .move (.call 0 (.register 1 "a")) :: List.replicate 10 (.move (.step 0)))
    (e.crowd.memory.table 0).claimed = 0 ∧ (e.crowd.memory.table 1).claimed = 1 := by
  decide +kernel

end Estate

end LockFreeStack.Hazard
