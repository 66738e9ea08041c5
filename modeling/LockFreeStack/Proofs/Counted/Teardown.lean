import LockFreeStack.Proofs.Counted.Lives
import LockFreeStack.Proofs.Counted.Tenancy
import LockFreeStack.Stack.View

/-!
The end of a counted stack, whatever has happened to it before, overflows of a count included. A pop
that ends in one keeps the value that it has detached, and its node may stay behind. Nothing else is
lost.
-/

namespace LockFreeStack

variable {α : Type}

/-- A linked node is opened where what is below it and its value are. -/
theorem Nodes.exists_openCounted {h : Nodes α} {p q : Pair Address} {v : α} (hn : h.beneath? p = some q)
    (hv : h.value? p.address = some v) : ∃ k, p.address = .node k ∧ h.openCounted? p = some (k, v, q) := by
  obtain ⟨⟨w, next, n⟩, hx, rfl⟩ := Option.map_eq_some_iff.mp hn
  obtain rfl : w = v := by simpa [value?, hx] using hv
  obtain ⟨k, hk⟩ := exists_node_of_isLiveAt (isLiveAt_of_counted? hx)
  exact ⟨k, hk, openCounted?_eq_some.mpr ⟨hk, n, hx⟩⟩

namespace Counted

variable {ι : Type}

/-- The value that a call hands over to the stack. -/
def Call.given? : Call α → Option α
  | push v true => some v
  | _ => none

namespace Crowd

variable [DecidableEq ι] [Fintype ι] {x : Crowd ι α} {stage stage' : Address → Stage ι}
  {l l' : List (Pair Address)} {mv : Move ι α} {h : List (Moment ι (Call α) α)} {a : Address} {i : ι}

/-- The thread is going to add a surplus to the node's count, which ends in an overflow. -/
def Overflows (x : Crowd ι α) (i : ι) (a : Address) : Prop :=
  ∃ held v e, x.point i = some (.pop (.fold held v)) ∧ held.address = a ∧
    ((Point.pop (.fold held v)).step x.store).next = .done (.trouble (.panic e))

namespace Sound

/-- A node is lost by a pop that ends in an overflow only. -/
theorem overflows_of_lost (s : x.Sound stage l) (s' : (x.move mv).Sound stage' l')
    (leads : ∀ b, stage' b ≠ stage b → ∃ i, mv = .step i ∧ (stage b).Leads i (stage' b)) {c : UInt64}
    (lost : stage' a = .lost c) (before : ∀ c, stage a ≠ .lost c) : ∃ i, mv = .step i ∧ x.Overflows i a := by
  obtain ⟨i, rfl, t⟩ := leads a fun e => before c (e ▸ lost)
  refine ⟨i, rfl, ?_⟩
  rw [lost] at t
  generalize hst : stage a = st at t
  obtain - | - | - | - | t := t
  cases t with
  | stay => exact absurd hst (before c)
  | @lose held folds =>
    obtain ⟨p, hp, taken⟩ := Option.bind_eq_some_iff.mp (((s.stands i).taken a held.count).mp hst)
    obtain _ | _ | _ | _ | _ | q | ⟨q, v⟩ | _ | _ | _ := p <;> try cases taken
    · -- A pop that has not looked at the value yet has the node after the step as well.
      obtain ⟨v, next, n, hn, -⟩ := s.held_node i ⟨held.count, a⟩ (by rw [hp]; rfl)
      have hpoint : (x.move (.step i)).point i = some (.pop (.fold ⟨held.count, a⟩ v)) := by
        simp [Crowd.move, hp, Point.step, Pop.step, hn, Outcome.within, Next.within, set]
      have still := ((s'.stands i).taken a held.count).mpr (by rw [hpoint]; rfl)
      rw [lost] at still
      cases still
    · have folds : ¬(Pair.mk held.count a).Folds := folds
      obtain ⟨w, next, n, hn, -⟩ := s.held_node i ⟨held.count, a⟩ (by rw [hp]; rfl)
      cases hs : (Pair.mk held.count a).surplus with
      | error e => exact ⟨_, v, e, hp, rfl, Point.next_fold_of_error hs⟩
      | ok more =>
        obtain rfl : more = Int64.minValue := by
          by_contra hmin
          exact folds ⟨more, hs, hmin⟩
        exact ⟨_, v, _, hp, rfl, Point.next_fold_of_min hs hn⟩

/-- As many nodes are lost in a move as it ends operations with an overflow. -/
theorem exists_newly_lost (s : x.Sound stage l) (s' : (x.move mv).Sound stage' l')
    (leads : ∀ b, stage' b ≠ stage b → ∃ i, mv = .step i ∧ (stage b).Leads i (stage' b)) :
    ∃ new : List Address, new.length ≤ (x.moments mv).countP Moment.panics ∧
      ∀ a c, stage' a = .lost c → (∃ c, stage a = .lost c) ∨ a ∈ new := by
  by_cases h : ∃ i a, mv = .step i ∧ x.Overflows i a
  · obtain ⟨i, a, rfl, held, v, e, hp, rfl, he⟩ := h
    refine ⟨[held.address], ?_, fun b c hb => ?_⟩
    · simp [moments, hp, he, Moment.panics, Answer.isPanic]
    · by_contra! hne
      obtain ⟨j, hj, q, w, e', hq, rfl, -⟩ := s.overflows_of_lost s' leads hb hne.1
      obtain rfl := Move.step.inj hj
      obtain rfl : held = q := by
        rw [hp] at hq
        cases hq
        rfl
      exact hne.2 (List.mem_singleton_self _)
  · refine ⟨[], Nat.zero_le _, fun b c hb => .inl ?_⟩
    by_contra! hne
    obtain ⟨j, hj, o⟩ := s.overflows_of_lost s' leads hb hne
    exact h ⟨j, b, hj, o⟩

omit [DecidableEq ι] in
/-- What is linked from the head, with the places and the values. -/
theorem exists_piled (s : x.Sound stage l) {vs : List α} (hv : Holds x.store.nodes l vs) :
    ∃ (ps : List (Nat × α)) (count : UInt64),
      Piled x.store.nodes.openCounted? x.store.head ps ⟨count, .null⟩ ∧ ps.map Prod.snd = vs ∧
      (ps.map Prod.fst).Nodup ∧ ∀ a, a ∈ (ps.map Prod.fst).map Address.node ↔ ∃ c, stage a = .linked c := by
  obtain ⟨count, path⟩ := s.chain
  obtain ⟨ps, places, hvs, piled⟩ := Piled.exists_of_path (fun p q v => Nodes.exists_openCounted) path hv
  refine ⟨ps, count, piled, hvs, ?_, fun a => ?_⟩
  · apply List.Nodup.of_map Address.node
    rw [places]
    exact s.nodup_address
  · rw [places, List.mem_map]
    constructor
    · rintro ⟨p, hp, rfl⟩
      exact ⟨p.count, (s.linked p).mp hp⟩
    · rintro ⟨c, hc⟩
      exact ⟨⟨c, a⟩, (s.linked ⟨c, a⟩).mpr hc, rfl⟩

end Sound

/-- The history tells what is linked from the head, what each thread is doing, and how many nodes have
been lost. -/
structure Traced (x : Crowd ι α) (h : List (Moment ι (Call α) α)) : Prop where
  counted : x.store.nodes.AllCounted
  content : ∃ stage l vs stranded, x.Sound stage l ∧ Holds x.store.nodes l vs ∧
    Replays (h.filterMap Moment.effect?) vs ∧ (∀ a c, stage a = .lost c → a ∈ stranded) ∧
    (stranded : List Address).length ≤ h.countP Moment.panics
  accounts : ∀ i, ∃ st, Account Call.Ends i h st ∧ x.activity? i = some st

namespace Traced

omit [DecidableEq ι] in
theorem start : (start : Crowd ι α).Traced [] where
  counted := .empty
  content := ⟨_, [], [], [], sound_start, .nil, .nil, nofun, Nat.le_refl _⟩
  accounts _ := ⟨.idle, .nil, rfl⟩

theorem move (t : x.Traced h) (mv : Move ι α) : (x.move mv).Traced (h ++ x.moments mv) where
  counted := allCounted_move t.counted mv
  content := by
    obtain ⟨stage, l, vs, stranded, s, hv, hr, lost, few⟩ := t.content
    obtain ⟨stage', l', s', sh, leads⟩ := s.move mv
    obtain ⟨vs', hv', hr'⟩ := s'.content_move sh hv hr
    obtain ⟨new, hnew, lost'⟩ := s.exists_newly_lost s' leads
    refine ⟨stage', l', vs', stranded ++ new, s', hv', hr', fun a c ha => ?_, ?_⟩
    · apply List.mem_append.mpr
      apply (lost' a c ha).imp_left
      rintro ⟨c', hc⟩
      exact lost a c' hc
    · rw [List.length_append, List.countP_append]
      exact Nat.add_le_add few hnew
  accounts j := by
    obtain ⟨stage, l, vs, stranded, s, -⟩ := t.content
    obtain ⟨st, hacc, hst⟩ := t.accounts j
    refine s.account_move hacc hst mv fun p hp => ?_
    exact Point.continues_or_overflows (by simpa [activity?, hp] using hst)
      fun q hq => s.held_value_isSome hp hq

omit [DecidableEq ι] in
theorem account_of_idle (t : x.Traced h) (idle : ∀ i, x.point i = none) (i : ι) :
    Account Call.Ends i h .idle := by
  obtain ⟨st, account, hst⟩ := t.accounts i
  obtain rfl : Activity.idle = st := by simpa [activity?, idle i] using hst
  exact account

end Traced

theorem traced_run (ms : List (Move ι α)) : (run ms).1.Traced (run ms).2 :=
  play_induction Traced .start (fun _ _ mv t => t.move mv) ms

end Crowd

end Counted

namespace Memory

variable {m : Memory α} {s : Nat} {ps : List (Nat × α)} {c : UInt64} {log : List (Nat × Turnover)}

/-- All linked nodes go, and nothing else. -/
theorem closing_of_piled (linked : Piled m.nodes.openCounted? (m.pair s) ps ⟨c, .null⟩)
    (t : m.nodes.Tenanted log) (nodup : (ps.map Prod.fst).Nodup)
    (live : ∀ k ∈ ps.map Prod.fst, m.nodes.isLiveAt (.node k)) :
    Closing m.nodes (m.dropCounted s).1.nodes (m.dropCounted s).2 log ps [] (.countedDropped ps.length) := by
  have settled := settles_counted.settles linked rfl nodup (Nodes.length_le_size nodup live)
  have closing := t.closing ps [] (by simpa using nodup) (by simpa using live)
    (.countedDropped ps.length)
  rw [List.append_nil, show (burial [] : List (Note α)) = [] from rfl, List.append_nil] at closing
  simp only [dropCounted, settled]
  exact closing

end Memory

namespace Counted.Crowd

variable {ι : Type} [DecidableEq ι]

/-- What becomes of a stack that is dropped when the moves `ms` have been made, in a memory with no other
nodes. `ps` are its linked nodes from the top down. The values in `lost` and the nodes at `stranded` are
those of operations that have ended in an overflow. -/
structure Dropped (ms : List (Move ι α)) (m : Memory α) (s : Nat) (ps : List (Nat × α)) (lost : List α)
    (stranded : List Address) : Prop where
  linked : ∃ count, Piled m.nodes.openCounted? (m.pair s) ps ⟨count, .null⟩
  closing : Closing m.nodes (m.dropCounted s).1.nodes (m.dropCounted s).2 (ledger ms) ps []
    (.countedDropped ps.length)
  values : ((run ms).2.filterMap (Moment.given? Call.given?)).Perm
    ((run ms).2.filterMap Moment.returned? ++ lost ++ ps.map Prod.snd)
  stories : ∀ k, (∃ n, part k (ledger ms ++ LockFreeStack.turnovers none (m.dropCounted s).2) = tenancies n) ∨
    .node k ∈ stranded
  lost_le : lost.length ≤ (run ms).2.countP Moment.panics
  stranded_le : stranded.length ≤ (run ms).2.countP Moment.panics

theorem exists_dropped [Fintype ι] {ms : List (Move ι α)} {m : Memory α} {s : Nat}
    (store : m.store s = (run ms).1.store) (idle : ∀ i, (run ms).1.point i = none) :
    ∃ ps lost stranded, Dropped ms m s ps lost stranded := by
  have nodes : m.nodes = (run ms).1.store.nodes := congrArg Store.nodes store
  have head : m.pair s = (run ms).1.store.head := congrArg Store.head store
  have traced := traced_run ms
  obtain ⟨stage, l, vs, stranded, sound, hv, replays, lostAt, few⟩ := traced.content
  obtain ⟨ps, count, linked, rfl, nodup, linked_iff⟩ := sound.exists_piled hv
  rw [← nodes, ← head] at linked
  have live_iff (a : Address) : m.nodes.isLiveAt a ↔ stage a ≠ .free := by
    rw [nodes]
    exact sound.isLiveAt_iff traced.counted a
  have live (k : Nat) (hk : k ∈ ps.map Prod.fst) : m.nodes.isLiveAt (.node k) := by
    obtain ⟨c, hc⟩ := (linked_iff (.node k)).mp (List.mem_map_of_mem hk)
    exact (live_iff (.node k)).mpr (by simp [hc])
  have closing := Memory.closing_of_piled linked (nodes ▸ tenanted_run ms) nodup live
  have accounts := traced.account_of_idle idle
  have given := perm_given Call.given? accounts fun c es a h => by
    obtain ⟨_ | _ | _ | _⟩ | _ | _ := h <;> rfl
  obtain ⟨lost, popped, lost_le⟩ := exists_lost accounts fun c es a h => by
    obtain ⟨_ | _ | _ | _⟩ | _ | _ := h <;> simp [Effect.popped?, Answer.value?, Answer.ends?]
  refine ⟨ps, lost, stranded, ⟨count, linked⟩, closing, ?_, fun k => ?_, lost_le, few⟩
  · exact given.symm.trans (replays.perm.trans (popped.append_right _))
  · rw [or_iff_not_imp_right]
    intro away
    apply closing.tenanted.exists_tenancies
    by_contra there
    obtain ⟨before, unlinked⟩ := (closing.remains (.node k)).mp (Bool.eq_true_of_not_eq_false there)
    rw [List.append_nil, linked_iff] at unlinked
    obtain free | linked | ⟨c, hc⟩ := sound.stage_of_idle idle (.node k)
    · exact (live_iff (.node k)).mp before free
    · exact unlinked linked
    · exact away (lostAt (.node k) c hc)

end Counted.Crowd

end LockFreeStack
