import LockFreeStack.Proofs.Hazard.Account
import LockFreeStack.Proofs.Parking.Census

/-!
The end of a hazard stack, whatever has happened to it before. Its linked nodes go with their values
and its parked nodes without, each of them once.
-/

namespace LockFreeStack

variable {α : Type}

/-- A linked node is opened where its link and its value are. -/
theorem Nodes.exists_openPlain {h : Nodes α} {a b : Address} {v : α} (hn : h.below? a = some b)
    (hv : h.item? a = some v) : ∃ k, a = .node k ∧ h.openPlain? a = some (k, v, b) := by
  obtain ⟨⟨w, next⟩, hx, rfl⟩ := Option.map_eq_some_iff.mp hn
  obtain rfl : w = v := by simpa [item?, hx] using hv
  obtain ⟨k, rfl⟩ := exists_node_of_isLiveAt (isLiveAt_of_plain? hx)
  exact ⟨k, rfl, openPlain?_eq_some.mpr ⟨rfl, hx⟩⟩

namespace Memory

variable {m : Memory α} {s : Nat} {ps : List (Nat × α)} {ks : List Nat}

theorem deleteAll_nodes (nodup : ks.Nodup) (live : ∀ k ∈ ks, m.nodes.isLiveAt (.node k)) :
    m.deleteAll (ks.map fun k => (.node k, .node)) =
      ⟨{ m with nodes := m.nodes.releaseAll ks }, ks.length, burial ks⟩ := by
  induction ks generalizing m with
  | nil => rfl
  | cons k ks ih =>
    obtain ⟨hk, nodup⟩ := List.nodup_cons.mp nodup
    have hlive : m.deletable (.node k) .node = true := live k List.mem_cons_self
    have rest := ih (m := m.delete (.node k) .node) nodup fun j hj => by
      have hjk : j ≠ k := fun e => hk (e ▸ hj)
      simp [delete, Nodes.isLiveAt_release, hjk, live j (List.mem_cons_of_mem _ hj)]
    simp only [List.map_cons, deleteAll, hlive, if_true, rest]
    rfl

/-- Whatever the records publish, all nodes parked on the list go in its order. -/
theorem reclaimAll_eq {l : Nat} {es : List Nat}
    (path : Path m.entries.follow (m.list l).head (es.map some) none)
    (content : es.map (Parking.content? m.entries) = ks.map fun k => some (.node k, .node))
    (nodup : ks.Nodup) (live : ∀ k ∈ ks, m.nodes.isLiveAt (.node k)) :
    (m.reclaimAll l).memory.nodes = m.nodes.releaseAll ks ∧ (m.reclaimAll l).count = ks.length ∧
      (m.reclaimAll l).notes = burial ks := by
  have hes : es.Nodup := (path.nodup rfl).of_map _
  have calls : (m.parking l).takeAll.2 = ks.map fun k => (.node k, .node) := by
    have h := (Parking.takeAll_calls (m := m.parking l) path hes).1.trans content
    rw [← Function.comp_def some, ← List.map_map] at h
    exact List.map_injective_iff.mpr (Option.some_injective _) h
  have deleted := deleteAll_nodes (m := m.withoutEntries.setParking l (m.parking l).takeAll.1) nodup live
  rw [show m.reclaimAll l =
    (m.withoutEntries.setParking l (m.parking l).takeAll.1).deleteAll (m.parking l).takeAll.2 from rfl,
    calls, deleted]
  exact ⟨rfl, rfl, rfl⟩

/-- The nodes linked from the stack's head with their values, and those parked on its list. -/
structure Holding (m : Memory α) (s : Nat) (ps : List (Nat × α)) (ks : List Nat) : Prop where
  linked : Piled m.nodes.openPlain? (m.hazard s).head ps .null
  parked : ∃ es : List Nat, Path m.entries.follow (m.list (m.hazard s).list).head (es.map some) none ∧
    es.map (Parking.content? m.entries) = ks.map fun k => some (.node k, .node)

/-- All of them go, and nothing else. -/
theorem Holding.closing (e : m.Holding s ps ks) {log : List (Nat × Turnover)} (t : m.nodes.Tenanted log)
    (nodup : (ps.map Prod.fst ++ ks).Nodup) (live : ∀ k ∈ ps.map Prod.fst ++ ks, m.nodes.isLiveAt (.node k)) :
    Closing m.nodes (m.dropHazard s).1.nodes (m.dropHazard s).2 log ps ks
      (.hazardDropped ps.length ks.length) := by
  obtain ⟨hps, hks, apart⟩ := List.nodup_append.mp nodup
  obtain ⟨es, path, content⟩ := e.parked
  have enough := Nodes.length_le_size hps fun k hk => live k (List.mem_append_left _ hk)
  have linked := settles_plain.settles e.linked rfl hps enough
  have remains (k : Nat) (hk : k ∈ ks) : (m.nodes.releaseAll (ps.map Prod.fst)).isLiveAt (.node k) := by
    have hne : Address.node k ∉ (ps.map Prod.fst).map .node := by
      rw [List.mem_map_of_injective fun _ _ => Address.node.inj]
      exact fun h => apart k h k hk rfl
    rw [Nodes.isLiveAt, Nodes.at?_releaseAll, if_neg hne]
    exact live k (List.mem_append_right _ hk)
  obtain ⟨hnodes, hcount, hnotes⟩ := reclaimAll_eq
    (m := ({ m with nodes := m.nodes.releaseAll (ps.map Prod.fst) } : Memory α).setHead s .null)
    path content hks remains
  have after : (m.dropHazard s).1.nodes = m.nodes.releaseAll (ps.map Prod.fst ++ ks) := by
    simp only [dropHazard, linked]
    exact hnodes.trans List.foldl_append.symm
  have notes : (m.dropHazard s).2 = estate ps ++ burial ks ++ [.log (.hazardDropped ps.length ks.length)] := by
    simp only [dropHazard, linked]
    rw [hcount, hnotes]
  rw [after, notes]
  exact t.closing ps ks nodup live _

end Memory

namespace Hazard

/-- The value that a call hands over to the stack. -/
def Call.given? : Call α → Option α
  | push _ v true => some v
  | _ => none

namespace Crowd

variable {x : Crowd α} {g : Ghost} {s e : Nat} {a : Address} {vs : List α} {linked held : Nat → List Nat}
  {h : List (Moment Nat (Call α) α)}

theorem Told.account_of_rest (t : Told s x h) (rest : ∀ i, x.busy i = none) (i : Nat) :
    Account Call.Fits i h .idle := by
  obtain ⟨st, account, doing⟩ := t.accounts i
  cases doing with
  | idle => exact account
  | busy there => simp [rest i] at there

namespace Stable

theorem mem_parkedNodes (k : x.Stable g)
    (ls : Stored.Lists x.memory.entries x.memory.first (fun i => (x.role i).hand) g.keeper linked held) :
    a ∈ (x.parkedNodes (linked s)).map Prod.snd ↔ ∃ e ∈ linked s, g.stage a = .parked e s := by
  rw [parkedNodes, List.map_map, List.mem_map]
  apply exists_congr
  intro e
  apply and_congr_right
  intro he
  obtain ⟨y, hy, -, hp⟩ := k.parks_of_listed (ls.mem_linked.mp he)
  constructor
  · rintro rfl
    simpa [hy] using hp
  · intro ha
    obtain ⟨⟨z, hz, rfl⟩, -⟩ := k.stage_eq_parked.mp ha
    simp [hz]

theorem map_content (k : x.Stable g)
    (ls : Stored.Lists x.memory.entries x.memory.first (fun i => (x.role i).hand) g.keeper linked held) :
    (linked s).map (Parking.content? x.memory.entries) =
      ((x.parkedNodes (linked s)).map Prod.snd).map fun a => some (a, .node) := by
  rw [parkedNodes, List.map_map, List.map_map]
  apply List.map_congr_left
  intro e he
  obtain ⟨y, hy, hd, -⟩ := k.parks_of_listed (ls.mem_linked.mp he)
  simp [Parking.content?, hy, hd]

/-- What a stack that nobody is at work on holds. -/
theorem exists_holding (k : x.Stable g) (hs : s < x.memory.hazards.size)
    (ls : Stored.Lists x.memory.entries x.memory.first (fun i => (x.role i).hand) g.keeper linked held)
    (holds : Holds x.memory.nodes (g.chain s) vs) :
    ∃ ps ks, x.memory.Holding s ps ks ∧ (ps.map Prod.fst ++ ks).Nodup ∧
      (∀ k ∈ ps.map Prod.fst ++ ks, x.memory.nodes.isLiveAt (.node k)) ∧ ps.map Prod.snd = vs ∧
      ∀ a, a ∈ (ps.map Prod.fst ++ ks).map Address.node ↔
        g.stage a = .linked s ∨ ∃ e ∈ linked s, g.stage a = .parked e s := by
  have due := k.deletable hs ls
  have path := k.sound.placed.path s
  obtain ⟨ps, chain, hvs, piled⟩ := Piled.exists_of_path
    (fun a b v => Nodes.exists_openPlain) path holds
  rw [List.map_id'] at chain
  have places : (x.parkedNodes (linked s)).map Prod.snd ∈ Set.range (List.map Address.node) := by
    rw [Set.range_list_map]
    intro a ha
    obtain ⟨y, hy, rfl⟩ := List.mem_map.mp ha
    obtain ⟨j, hj⟩ := Nodes.exists_node_of_isLiveAt (due.live y hy)
    exact ⟨j, hj.symm⟩
  obtain ⟨ks, hks⟩ := places
  have ofLinked (a : Address) : a ∈ (ps.map Prod.fst).map Address.node ↔ g.stage a = .linked s := by
    rw [chain, k.sound.placed.linked]
  have ofParked (a : Address) : a ∈ ks.map Address.node ↔ ∃ e ∈ linked s, g.stage a = .parked e s := by
    rw [hks, k.mem_parkedNodes ls]
  have stages (a : Address) : a ∈ (ps.map Prod.fst ++ ks).map Address.node ↔
      g.stage a = .linked s ∨ ∃ e ∈ linked s, g.stage a = .parked e s := by
    rw [List.map_append, List.mem_append, ofLinked, ofParked]
  refine ⟨ps, ks, ⟨piled, ⟨linked s, ?_, ?_⟩⟩, ?_, ?_, hvs, stages⟩
  · simpa [parkedNodes, Function.comp_def] using due.path
  · rw [k.map_content ls, ← hks, List.map_map]
    rfl
  · refine List.nodup_append.mpr ⟨.of_map Address.node ?_, .of_map Address.node ?_, ?_⟩
    · rw [chain]
      exact path.nodup rfl
    · rw [hks]
      exact due.nodes
    · rintro j hj _ hk rfl
      have linkedHere := (ofLinked (.node j)).mp (List.mem_map_of_mem hj)
      obtain ⟨e, -, parkedHere⟩ := (ofParked (.node j)).mp (List.mem_map_of_mem hk)
      rw [linkedHere] at parkedHere
      cases parkedHere
  · intro j hj
    have placed : g.stage (.node j) ≠ .free := by
      obtain h | ⟨e, -, h⟩ := (stages (.node j)).mp (List.mem_map_of_mem hj) <;> simp [h]
    obtain ⟨v, hv⟩ := k.sound.placed.exists_plain placed
    have hv : x.memory.nodes.plain? (.node j) = some v := hv
    exact Nodes.isLiveAt_of_plain? hv

/-- A node that is there while nothing is in flight is linked into a stack or parked on its list. -/
theorem stage_of_rest (k : x.Stable g) (plain : x.memory.nodes.Plain) (rest : ∀ i, x.busy i = none)
    (ls : Stored.Lists x.memory.entries x.memory.first (fun i => (x.role i).hand) g.keeper linked held)
    (live : x.memory.nodes.isLiveAt a) :
    ∃ t < x.memory.hazards.size, g.stage a = .linked t ∨ ∃ e ∈ linked t, g.stage a = .parked e t := by
  have idle (i : Nat) : x.role i = {} := by
    rw [role, rest i]
    rfl
  have mem_linked {t : Nat} (h : g.stage a = .linked t) : t < x.memory.hazards.size := by
    by_contra hlt
    have none : g.chain t = [] := k.sound.placed.chain_eq_nil (by
      simp [Memory.view, Memory.hazard, Array.getElem?_eq_none (Nat.le_of_not_lt hlt)])
    have hmem := (k.sound.placed.linked a t).mpr h
    rw [none] at hmem
    cases hmem
  have mem_listed {t d : Nat} (h : d ∈ linked t) : t < x.memory.hazards.size := by
    by_contra hlt
    have path := ls.path t
    rw [show x.memory.first t = none by
      simp [Memory.first, Array.getElem?_eq_none (Nat.le_of_not_lt hlt)]] at path
    rw [Entries.eq_nil_of_path path] at h
    cases h
  cases hst : g.stage a with
  | free =>
    have hfree := (k.lies_iff (w := .free) plain ls).mpr hst
    rw [Lies, live] at hfree
    cases hfree
  | linked t => exact ⟨t, mem_linked hst, .inl rfl⟩
  | own i grade =>
    have howned := (k.sound.placed.owned i a grade).mpr hst
    rw [idle] at howned
    cases howned
  | parked d t =>
    obtain ⟨-, hk⟩ := k.stage_eq_parked.mp hst
    cases hd : g.keeper d with
    | nobody => simp [hd, Keeper.stack?] at hk
    | listed u =>
      obtain rfl : u = t := by simpa [hd, Keeper.stack?] using hk
      have hmem := ls.mem_linked.mpr hd
      exact ⟨u, mem_listed hmem, .inr ⟨d, hmem, rfl⟩⟩
    | due u i | kept u i =>
      have hmem : d ∈ held i := ls.mem_held.mpr ⟨u, by simp [hd]⟩
      have fills := ls.fills i
      rw [idle] at fills
      rw [fills.eq_nil] at hmem
      cases hmem

/-- The nodes linked into a stack hold values. -/
theorem exists_holds (k : x.Stable g) (t : Nat) : ∃ vs, Holds x.memory.nodes (g.chain t) vs := by
  suffices there : ∀ l : List Address, (∀ a ∈ l, g.stage a = .linked t) →
      ∃ vs, Holds x.memory.nodes l vs from
    there _ fun a ha => (k.sound.placed.linked a t).mp ha
  intro l
  induction l with
  | nil => exact fun _ => ⟨[], .nil⟩
  | cons a l ih =>
    intro there
    obtain ⟨y, hy⟩ := k.sound.placed.exists_plain (a := a) (by simp [there a List.mem_cons_self])
    have hy : x.memory.nodes.plain? a = some y := hy
    obtain ⟨vs, hvs⟩ := ih fun b hb => there b (List.mem_cons_of_mem _ hb)
    exact ⟨y.1 :: vs, .cons (by simp [Nodes.item?, hy]) hvs⟩

end Stable

/-- What becomes of a stack that is dropped when the moves `ms` have been made. `ps` are its linked nodes
from the top down, and `ks` those on its parked list. -/
structure Dropped (ms : List (Move α)) (s : Nat) (ps : List (Nat × α)) (ks : List Nat) : Prop where
  holding : (after ms).memory.Holding s ps ks
  closing : Closing (after ms).memory.nodes ((after ms).memory.dropHazard s).1.nodes
    ((after ms).memory.dropHazard s).2 (ledger ms) ps ks (.hazardDropped ps.length ks.length)
  values : ((run s ms).2.filterMap (Moment.given? Call.given?)).Perm
    ((run s ms).2.filterMap Moment.returned? ++ ps.map Prod.snd)
  stories : ∀ k,
    (∃ n, part k (ledger ms ++ LockFreeStack.turnovers none ((after ms).memory.dropHazard s).2) = tenancies n) ∨
      ∃ t < (after ms).memory.hazards.size, t ≠ s ∧ ∃ ps' ks', (after ms).memory.Holding t ps' ks' ∧
        k ∈ ps'.map Prod.fst ++ ks'

theorem run_fst (s : Nat) (ms : List (Move α)) : (run s ms).1 = after ms := play_fst_eq_foldl ms

theorem exists_dropped {ms : List (Move α)} {s : Nat} (rest : ∀ i, (after ms).busy i = none)
    (hs : s < (after ms).memory.hazards.size) : ∃ ps ks, Dropped ms s ps ks := by
  have told := told_run s ms
  rw [run_fst] at told
  obtain ⟨g, vs, k, holds, replays⟩ := told.content
  obtain ⟨linked, held, ls⟩ := k.sound.stored.exists_lists
  obtain ⟨ps, ks, holding, nodup, live, rfl, stages⟩ := k.exists_holding hs ls holds
  have closing := holding.closing (tenanted_after ms) nodup live
  have accounts := told.account_of_rest rest
  refine ⟨ps, ks, holding, closing, ?_, ?_⟩
  · have given := perm_given Call.given? accounts fun c es a h => by cases h <;> rfl
    have returned := perm_returned accounts fun c es a h => by cases h <;> rfl
    exact given.symm.trans (replays.perm.trans (returned.append_right _))
  · intro j
    rw [or_iff_not_imp_left]
    intro untold
    have there : ((after ms).memory.dropHazard s).1.nodes.isLiveAt (.node j) := by
      by_contra gone
      exact untold (closing.tenanted.exists_tenancies (Bool.eq_false_of_not_eq_true gone))
    obtain ⟨before, away⟩ := (closing.remains (.node j)).mp there
    obtain ⟨t, ht, stage⟩ := k.stage_of_rest (plain_after ms) rest ls before
    have hts : t ≠ s := by
      rintro rfl
      exact away ((stages _).mpr stage)
    obtain ⟨ws, hws⟩ := k.exists_holds t
    obtain ⟨ps', ks', holding', -, -, -, stages'⟩ := k.exists_holding ht ls hws
    refine ⟨t, ht, hts, ps', ks', holding', ?_⟩
    exact (List.mem_map_of_injective fun _ _ => Address.node.inj).mp ((stages' _).mpr stage)

end Crowd

end Hazard

end LockFreeStack
