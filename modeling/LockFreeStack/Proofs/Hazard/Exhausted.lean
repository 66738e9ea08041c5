import LockFreeStack.Proofs.Hazard.Exclusive
import LockFreeStack.Proofs.Hazard.Seeking
import LockFreeStack.Proofs.Slot.Later

/-!
A call that finds its table exhausted while the other threads stay where they are. It has pruned the cache of
its thread, and that is all that it has done.
-/

namespace LockFreeStack.Hazard

variable {α : Type} {m : Memory α} {me : Thread} {t : Nat} {purpose : Purpose} {a : Acquire.Point}

theorem Call.Starts.eq_lookup {c : Call α} (h : c.Starts m me (.acquire t purpose a)) : a = .lookup := by
  cases h <;> rfl

namespace Crowd

variable {ms : List (Move α)} {i k n : Nat} {c d : Call α}

/-- A call of thread `i` and its first `k` steps. -/
def attempt (i : Nat) (c : Call α) (k : Nat) : List (Move α) := .call i c :: List.replicate k (.step i)

theorem after_attempt_succ (ms : List (Move α)) (i : Nat) (c : Call α) (k : Nat) :
    after (ms ++ attempt i c (k + 1)) = (after (ms ++ attempt i c k)).move (.step i) := by
  have last : attempt i c (k + 1) = attempt i c k ++ [.step i] := by
    rw [attempt, attempt, List.replicate_succ', List.cons_append]
  rw [last, after_append_snoc]

/-- While a call is still at its acquisition, it has changed nothing but the tables and its own thread. -/
theorem searching (idle : (after ms).busy i = none)
    (h : (after (ms ++ attempt i c k)).busy i = some (d, .acquire t purpose a)) :
    c.Starts (after ms).memory ((after ms).me i) (.acquire t purpose .lookup) ∧ ∃ ts me q,
      Runs (Acquire.step (α := α) t purpose.pins) ((after ms).memory.tables, (after ms).me i) .lookup k q (ts, me)
        (.goto a) ∧
      after (ms ++ attempt i c k) =
        (after ms).set i ({ (after ms).memory with tables := ts }, me) (some (c, .acquire t purpose a)) := by
  induction k generalizing d a with
  | zero =>
    have called : after (ms ++ attempt i c 0) = (after ms).move (.call i c) := after_append_singleton ms _
    rw [called, move, idle] at h ⊢
    cases hs : c.start? (after ms).memory ((after ms).me i) with
    | none => simp [hs, idle] at h
    | some p =>
      rw [hs] at h
      obtain ⟨rfl, rfl⟩ := Prod.mk.inj (Option.some.inj (busy_set_self.symm.trans h))
      have starts := Call.starts hs
      obtain rfl := starts.eq_lookup
      exact ⟨starts, _, _, [], .stay _ _, rfl⟩
  | succ k ih =>
    rw [after_attempt_succ] at h ⊢
    generalize hy : after (ms ++ attempt i c k) = y at h ih ⊢
    cases hb : y.busy i with
    | none => simp [move, hb] at h
    | some b =>
      obtain ⟨e, p⟩ := b
      rcases ho : Operation.step (y.memory, y.me i) p with ⟨st, p' | answer | f, notes⟩ <;>
        simp only [move, hb, ho] at h ⊢
      · obtain ⟨rfl, rfl⟩ := Prod.mk.inj (Option.some.inj (busy_set_self.symm.trans h))
        -- Nothing but an acquisition leads to one.
        obtain ⟨b, rfl, hn⟩ : ∃ b, p = .acquire t purpose b ∧
            (Acquire.step (α := α) t purpose.pins (y.memory.tables, y.me i) b).next = .goto a := by
          cases Operation.leads (show _ = Next.goto (Point.acquire t purpose a) by rw [ho]) with
          | away _ _ h => exact absurd trivial h
          | acquire _ _ b _ hn => exact ⟨b, rfl, hn⟩
        obtain ⟨starts, ts, me, q, run, rfl⟩ := ih hb
        rw [me_set_self] at ho hn
        have goes : (Acquire.step (α := α) t purpose.pins (ts, me) b).next = .goto a := hn
        rcases ha : Acquire.step (α := α) t purpose.pins (ts, me) b with ⟨⟨ts', me'⟩, next, notes'⟩
        rw [ha] at goes
        obtain rfl : next = .goto a := goes
        have step : Operation.step ({ (after ms).memory with tables := ts }, me) (.acquire t purpose b) =
            ⟨({ (after ms).memory with tables := ts' }, me'), .goto (.acquire t purpose a), notes'⟩ := by
          simp only [Operation.step, ha]
        obtain ⟨rfl, -, -⟩ := Outcome.mk.inj (ho.symm.trans step)
        obtain ⟨rfl, -⟩ := Prod.mk.inj (Option.some.inj (busy_set_self.symm.trans hb))
        exact ⟨starts, ts', me', _, run.trans (.step ha (.stay _ _)), set_set ..⟩
      · simp at h
      · obtain ⟨rfl, rfl⟩ := Prod.mk.inj (Option.some.inj h)
        exact absurd (by rw [ho]) (Operation.unfaulting_acquire y.memory (y.me i) t purpose a f)

/-- Thread `i` has come from `x` to the tables `ts` and to `me`, having pruned its cache. The table `t` is as it
was, and so are all tables with handles; no entry has come into the cache and no pin. If there was nothing to
prune, nothing has changed. Acquisitions that come later are answered as they would have been, and the pruning is
all the difference that they leave. -/
structure OnlyPruned (x : Crowd α) (i t : Nat) (ts : Tables) (me : Thread) : Prop where
  pruned : (x.me i).Pruned x.memory.tables [] (x.me i).cache [] ts me
  asked : ts[t]? = x.memory.tables[t]?
  held : ∀ u, x.memory.tables.hasHandles u → ts[u]? = x.memory.tables[u]?
  entries : (me.cache.map Cached.claim).Sublist ((x.me i).cache.map Cached.claim)
  pins : ∀ c, me.isPinned c → (x.me i).isPinned c
  unchanged : (x.me i).AllLive → (x.me i).PinsHeld x.memory.tables → ts = x.memory.tables ∧ me = x.me i
  later : ∀ u pin n q ts' me' r, x.memory.tables.hasHandles u →
    Runs (Acquire.step (α := α) u pin) (x.memory.tables, x.me i) .lookup n q (ts', me') (.done r) →
    ∃ n₁ ts₁ me₁, Runs (Acquire.step (α := α) u pin) (ts, me) .lookup n₁ [] (ts₁, me₁) (.done r) ∧
      me'.Pruned ts' [] me'.cache [] ts₁ me₁

variable {x : Crowd α} {q : List (Note α)} {ts : Tables}

/-- An acquisition that finds the table exhausted. -/
theorem Orderly.onlyPruned (o : x.Orderly) (one : x.memory.tables.OneEach) (idle : x.busy i = none)
    (there : t < x.memory.tables.size) (pin : Bool)
    (run : Runs (Acquire.step (α := α) t pin) (x.memory.tables, x.me i) .lookup k q (ts, me)
      (.done (.error (.failure (.exhausted n))))) :
    n = (x.memory.table t).capacity ∧ (∀ j, ¬x.memory.tables.Vacant ⟨t, j⟩) ∧ x.OnlyPruned i t ts me := by
  have sound := o.sound idle t
  have ht := getElem?_tables there
  have lacks : (x.me i).Lacks t := by
    intro c place live hp hpt
    obtain ⟨me', run', -⟩ := Acquire.runs_reuse (α := α) pin sound live hp hpt
      fun d q hd hq hqt => o.eq_of_table one hd live hq hp (hqt.trans hpt.symm)
    cases (run.unique run').2.2.2
  obtain ⟨ts₁, me₁, pruned, sound₁, seize, full⟩ :=
    Acquire.runs_obtain (α := α) pin sound (o.token_ne_zero i) ht lacks
  obtain ⟨j, first⟩ | none := Tables.firstVacant_or_none x.memory.tables t
  · obtain ⟨_, -, run'⟩ := seize j first
    cases (run.unique run').2.2.2
  · obtain ⟨_, -, run'⟩ := full none
    obtain ⟨-, -, same, hn⟩ := run.unique run'
    obtain ⟨rfl, rfl⟩ := Prod.mk.inj same
    cases hn
    refine ⟨rfl, none, pruned, pruned.getElem?_of_lacks sound.counts lacks,
      fun u held => pruned.getElem?_of_hasHandles held, pruned.sublist, fun c => pruned.isPinned_of_isPinned,
      fun live held => (Thread.Pruned.of_held live held).unique pruned,
      fun u pin n q ts' me' r held later => ?_⟩
    exact Acquire.runs_later pin pruned (o.sound idle u) ⟨sound₁.counts, sound₁.owns, trivial⟩
      (o.token_ne_zero i) held (fun c d p q hc hd hp hq hpq => o.eq_of_table one hc hd hp hq hpq) later

/-- A call that is told that its table is exhausted. -/
theorem refused_alone (idle : (after ms).busy i = none) (h : (after (ms ++ attempt i c k)).exhausts? i = some n) :
    ∃ t ts me, c.Seeks (after ms).memory t ∧ n = ((after ms).memory.table t).capacity ∧
      (∀ j, ¬(after ms).memory.tables.Vacant ⟨t, j⟩) ∧ (after ms).OnlyPruned i t ts me ∧
      after (ms ++ attempt i c (k + 1)) =
        (after ms).set i ({ (after ms).memory with tables := ts }, me) none := by
  obtain ⟨d, t, purpose, j, hb, -⟩ := (seeking_after _).probe_of_exhausts? (orderly_after _) h
  obtain ⟨e, p, hb', done⟩ := done_of_exhausts? h
  obtain ⟨rfl, rfl⟩ := Prod.mk.inj (Option.some.inj (hb'.symm.trans hb))
  obtain ⟨starts, ts, me, q, run, here⟩ := searching idle hb
  obtain ⟨⟨seeks, there⟩, -⟩ := (seeking_after ms).starts starts
  rw [here, me_set_self] at done
  have stops : (Operation.step ({ (after ms).memory with tables := ts }, me)
      (.acquire t purpose (.claiming (.probe j)))).next = .done (.trouble (.failure (.exhausted n))) := done
  rcases ha : Acquire.step (α := α) t purpose.pins (ts, me) (.claiming (.probe j)) with
    ⟨⟨ts', me'⟩, b | (e | v) | f, notes⟩ <;> simp only [Operation.step, ha] at stops
  · cases stops
  · cases stops
    obtain ⟨hn, full, pruned⟩ :=
      (orderly_after ms).onlyPruned (oneEach_after ms) idle there purpose.pins (run.trans (.last ha))
    refine ⟨t, ts', me', seeks, hn, full, pruned, ?_⟩
    have last : Operation.step ({ (after ms).memory with tables := ts }, me)
        (.acquire t purpose (.claiming (.probe j))) =
          ⟨({ (after ms).memory with tables := ts' }, me'), .done (.trouble (.failure (.exhausted n))),
            notes⟩ := by
      simp only [Operation.step, ha]
    rw [after_attempt_succ, here]
    exact move_set_done last
  · exact absurd stops (Operation.acquired_ne_failure _ _ _ _ _)
  · cases stops

end Crowd

end LockFreeStack.Hazard
