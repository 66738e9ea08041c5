import LockFreeStack.Proofs.Runs
import LockFreeStack.Proofs.Slot.Acquire

/-!
Pruning of a cache that nobody disturbs. The pins on tables without handles go, the claims that nothing
else keeps give their records back, and the entries of dead claims are forgotten.
-/

namespace LockFreeStack

variable {α : Type} {ts ts₁ ts' : Tables} {me me₁ me' : Thread} {table i c : Nat} {pin : Bool} {place : Place}
  {e : Cached} {xs done rest : List Cached}

namespace Tables

theorem hasHandles_congr (handles : ts'.map Table.handles = ts.map Table.handles) (t : Nat) :
    ts'.hasHandles t = ts.hasHandles t := by
  have same : (ts'[t]?).map Table.handles = (ts[t]?).map Table.handles := by
    rw [← Array.getElem?_map, ← Array.getElem?_map, handles]
  have flag (o : Option Table) : o.map Table.hasHandles = (o.map Table.handles).map (decide <| · ≠ 0) := by
    rw [Option.map_map]
    rfl
  rw [hasHandles, hasHandles, flag, flag, same]

theorem handles_publish (ts : Tables) (place : Place) (a : Address) :
    (ts.publish place a).map Table.handles = ts.map Table.handles := by
  refine Array.ext_getElem? fun t => ?_
  rw [Array.getElem?_map, Array.getElem?_map, publish, Array.getElem?_modify]
  split <;> cases ts[t]? <;> rfl

theorem handles_setOwner (ts : Tables) (place : Place) (n : Nat) :
    (ts.setOwner place n).map Table.handles = ts.map Table.handles := by
  refine Array.ext_getElem? fun t => ?_
  rw [Array.getElem?_map, Array.getElem?_map, setOwner, Array.getElem?_modify]
  split <;> cases ts[t]? <;> rfl

/-- A record that is cleared and has no owner is like new. -/
theorem record?_disown_publish (ts : Tables) (place q : Place) :
    ((ts.publish place .null).setOwner place 0).record? q =
      if q = place then (ts.record? q).map fun _ => {} else ts.record? q := by
  rw [record?_setOwner, record?_publish]
  split
  · cases ts.record? q <;> rfl
  · rfl

end Tables

namespace Thread

/-- The entry pins a claim on a table that nobody has a handle to. -/
def orphans (ts : Tables) (me : Thread) (e : Cached) : Bool :=
  e.pinned && (me.place? e.claim).any fun place => !ts.hasHandles place.table

/-- The entry without its pin if that is on a table without handles. -/
def unpinned (ts : Tables) (me : Thread) (e : Cached) : Cached :=
  ⟨e.claim, e.pinned && !me.orphans ts e⟩

/-- Of the entries `xs`, which stand between `done` and `rest`, the pins on tables without handles are
gone, and so are the entries of dead claims. The claims that have died give their records back. -/
structure Pruned (ts : Tables) (me : Thread) (done xs rest : List Cached) (ts' : Tables) (me' : Thread) :
    Prop where
  token : me'.token = me.token
  slots : me'.slots = me.slots
  lent : me'.lent = me.lent
  size : me'.claims.size = me.claims.size
  places : ∀ c, me'.place? c = me.place? c
  refs : ∀ c, me'.refs c = me.refs c - xs.countP fun e => e.claim = c ∧ me.orphans ts e
  cache : me'.cache = done ++ ((xs.map (me.unpinned ts)).filter fun e => me'.isLive e.claim) ++ rest
  handles : ts'.map Table.handles = ts.map Table.handles
  records : ∀ place, ts'.record? place =
    if ∃ e ∈ xs, me.orphans ts e ∧ ¬me'.isLive e.claim ∧ me.place? e.claim = some place
    then (ts.record? place).map fun _ => {} else ts.record? place

@[simp] theorem refs_setPinned (me : Thread) (c d : Nat) (b : Bool) : (me.setPinned c b).refs d = me.refs d := rfl

@[simp] theorem refs_forget (me : Thread) (i c : Nat) : (me.forget i).refs c = me.refs c := rfl

@[simp] theorem isLive_forget (me : Thread) (i c : Nat) : (me.forget i).isLive c = me.isLive c := rfl

/-- A pin is one of the references to a claim. -/
theorem refs_unpin (hc : c < me.claims.size) (d : Nat) :
    ((me.setPinned c false).letGo c).1.refs d = me.refs d - if c = d then 1 else 0 := by
  refine (refs_setRefs _ _ _ _ (by exact hc)).trans ?_
  by_cases hd : d = c
  · simp [hd]
  · simp [hd, Ne.symm hd]

@[simp] theorem claim_unpinned (ts : Tables) (me : Thread) (e : Cached) :
    (me.unpinned ts e).claim = e.claim := rfl

theorem orphans_congr (places : ∀ c, me'.place? c = me.place? c)
    (handles : ts'.map Table.handles = ts.map Table.handles) (e : Cached) :
    me'.orphans ts' e = me.orphans ts e := by
  simp only [orphans, places, Tables.hasHandles_congr handles]

namespace Pruned

theorem nil (ts : Tables) (me : Thread) (h : me.cache = done ++ rest) : me.Pruned ts done [] rest ts me := by
  refine ⟨rfl, rfl, rfl, rfl, fun _ => rfl, fun _ => by simp, by simpa using h, rfl, fun _ => by simp⟩

/-- The first entry, and then the others. -/
theorem cons (first : me.Pruned ts done [e] (xs ++ rest) ts₁ me₁)
    (others : me₁.Pruned ts₁ (done ++ ([me.unpinned ts e].filter fun e => me₁.isLive e.claim)) xs rest ts' me')
    (apart : ∀ f ∈ xs, f.claim ≠ e.claim) : me.Pruned ts done (e :: xs) rest ts' me' := by
  have orphans (f : Cached) : me₁.orphans ts₁ f = me.orphans ts f := orphans_congr first.places first.handles f
  have unpinned : me₁.unpinned ts₁ = me.unpinned ts := by
    funext f
    simp only [Thread.unpinned, orphans]
  have none : xs.countP (fun f => f.claim = e.claim ∧ me.orphans ts f) = 0 :=
    List.countP_eq_zero.mpr fun f hf => by simp [apart f hf]
  have live : me'.isLive e.claim = me₁.isLive e.claim := by
    simp only [isLive, others.refs, orphans, none, Nat.sub_zero]
  refine ⟨others.token.trans first.token, others.slots.trans first.slots, others.lent.trans first.lent,
    others.size.trans first.size, fun c => (others.places c).trans (first.places c), fun c => ?_, ?_,
    others.handles.trans first.handles, fun place => ?_⟩
  · rw [others.refs, first.refs, Nat.sub_sub, List.countP_cons, List.countP_cons, List.countP_nil]
    simp only [orphans]
    congr 1
    omega
  · rw [others.cache, unpinned, List.map_cons, List.filter_cons, List.filter_cons, List.filter_nil]
    simp only [claim_unpinned, live]
    by_cases hl : me₁.isLive e.claim <;> simp [hl]
  · rw [others.records, first.records]
    simp only [orphans, first.places, List.mem_cons, List.not_mem_nil, or_false, exists_eq_left,
      exists_eq_or_imp, live]
    by_cases h₁ : me.orphans ts e ∧ ¬me₁.isLive e.claim ∧ me.place? e.claim = some place <;>
      by_cases h₂ : ∃ f ∈ xs, me.orphans ts f ∧ ¬me'.isLive f.claim ∧ me.place? f.claim = some place
    · rw [if_pos h₁, if_pos h₂, if_pos (.inl h₁)]
      cases ts.record? place <;> rfl
    · rw [if_pos h₁, if_neg h₂, if_pos (.inl h₁)]
    · rw [if_neg h₁, if_pos h₂, if_pos (.inr h₂)]
    · rw [if_neg h₁, if_neg h₂, if_neg (not_or.mpr ⟨h₁, h₂⟩)]

section Entry

variable (here : me.cache = done ++ e :: rest)

include here

/-- A live entry without a pin on a table that nobody has is left alone. -/
theorem kept (h : me.orphans ts e = false) (live : me.isLive e.claim) : me.Pruned ts done [e] rest ts me where
  token := rfl
  slots := rfl
  lent := rfl
  size := rfl
  places _ := rfl
  refs c := by simp [h]
  cache := by simp [here, unpinned, h, live]
  handles := rfl
  records place := by simp [h]

/-- The entry of a dead claim is forgotten. -/
theorem forgotten (h : me.orphans ts e = false) (dead : ¬me.isLive e.claim) :
    me.Pruned ts done [e] rest ts (me.forget done.length) where
  token := rfl
  slots := rfl
  lent := rfl
  size := rfl
  places _ := rfl
  refs c := by simp [h]
  cache := by
    have erased : (me.forget done.length).cache = done ++ rest := by
      simp [forget, here, List.eraseIdx_append_of_length_le]
    simp [erased, dead]
  handles := rfl
  records place := by simp [h]

/-- The cache after a pin has been given up. -/
theorem cache_unpin (k : me.Counts none) :
    ((me.setPinned e.claim false).letGo e.claim).1.cache = done ++ ⟨e.claim, false⟩ :: rest := by
  have nodup := k.nodup
  rw [here, List.map_append, List.map_cons, List.nodup_middle, List.nodup_cons] at nodup
  have others (l : List Cached) (hl : ∀ f ∈ l, f ∈ done ++ rest) :
      (l.map fun f => if f.claim = e.claim then { f with pinned := false } else f) = l := by
    refine (List.map_congr_left fun f hf => if_neg fun hfe => nodup.1 ?_).trans (List.map_id l)
    rw [← List.map_append]
    exact hfe ▸ List.mem_map_of_mem (hl f hf)
  show me.cache.map _ = _
  rw [here, List.map_append, List.map_cons, others done (by simp_all), others rest (by simp_all)]
  simp

/-- The pin goes, and something else keeps the claim. -/
theorem spared (k : me.Counts none) (h : me.orphans ts e)
    (live : ((me.setPinned e.claim false).letGo e.claim).1.isLive e.claim) :
    me.Pruned ts done [e] rest ts ((me.setPinned e.claim false).letGo e.claim).1 where
  token := rfl
  slots := rfl
  lent := rfl
  size := by simp [letGo, setRefs, setPinned]
  places c := place?_letGo ..
  refs c := by
    rw [refs_unpin (k.known e (by simp [here]))]
    simp [h]
  cache := by simp [cache_unpin here k, unpinned, h, live]
  handles := rfl
  records place := by simp [live]

/-- The pin goes, and the record of the claim with it. -/
theorem released (k : me.Counts none) (h : me.orphans ts e) (hplace : me.place? e.claim = some place)
    (dead : ¬((me.setPinned e.claim false).letGo e.claim).1.isLive e.claim) :
    me.Pruned ts done [e] rest ((ts.publish place .null).setOwner place 0)
      (((me.setPinned e.claim false).letGo e.claim).1.forget done.length) where
  token := rfl
  slots := rfl
  lent := rfl
  size := by simp [forget, letGo, setRefs, setPinned]
  places c := place?_letGo ..
  refs c := by
    rw [refs_forget, refs_unpin (k.known e (by simp [here]))]
    simp [h]
  cache := by
    have erased : (((me.setPinned e.claim false).letGo e.claim).1.forget done.length).cache = done ++ rest := by
      rw [forget, cache_unpin here k]
      simp [List.eraseIdx_append_of_length_le]
    simp [erased, dead]
  handles := by rw [Tables.handles_setOwner, Tables.handles_publish]
  records q := by
    rw [Tables.record?_disown_publish]
    exact if_congr (by simp [h, hplace, dead, eq_comm (a := q)]) rfl rfl

end Entry

end Pruned

end Thread

namespace Acquire

/-- An acquisition is sound at each point of its run. -/
theorem Sound.runs {p p' : Point} {n : Nat} {q : List (Note α)} (s : Sound table ts me p) (h0 : me.token ≠ 0)
    (h : Runs (Acquire.step table pin) (ts, me) p n q (ts', me') (.goto p')) : Sound table ts' me' p' := by
  generalize hst : (ts, me) = st at h
  generalize hst' : (ts', me') = st' at h
  generalize ho : Next.goto p' = o at h
  induction h generalizing ts me with
  | stay =>
    obtain rfl := Next.goto.inj ho
    obtain ⟨rfl, rfl⟩ := Prod.mk.inj (hst.trans hst'.symm)
    exact s
  | step h _ ih =>
    subst hst
    have keeps : Keeps _ _ _ (Acquire.step (α := α) table pin _ _) := s.step h0
    rw [h] at keeps
    exact ih keeps.next (by rw [keeps.token]; exact h0) rfl hst' ho
  | last h =>
    subst hst hst' ho
    have keeps : Keeps _ _ _ (Acquire.step (α := α) table pin _ _) := s.step h0
    rw [h] at keeps
    exact keeps.next

/-- One entry of the cache. -/
theorem runs_entry (pin : Bool) (s : Sound table ts me (.prune done.length))
    (here : me.cache = done ++ e :: rest) : ∃ n ts' me', n ≤ 3 ∧
      Runs (step (α := α) table pin) (ts, me) (.prune done.length) n [] (ts', me')
        (.goto (.prune (done ++ ([me.unpinned ts e].filter fun e => me'.isLive e.claim)).length)) ∧
      me.Pruned ts done [e] rest ts' me' := by
  have he : me.cache[done.length]? = some e := by simp [here]
  have hmem : e ∈ me.cache := by simp [here]
  obtain ⟨place, hplace⟩ : ∃ place, me.place? e.claim = some place :=
    ⟨_, by rw [Thread.place?, Array.getElem?_eq_getElem (s.counts.known e hmem)]; rfl⟩
  have orphans : me.orphans ts e = (e.pinned && !ts.hasHandles place.table) := by simp [Thread.orphans, hplace]
  have step : step (α := α) table pin (ts, me) (.prune done.length) =
      ⟨(ts, (Acquire.prune ts me done.length).1), .goto (Acquire.prune ts me done.length).2, []⟩ := rfl
  simp only [Acquire.prune, he, hplace] at step
  have kept (live : me.isLive e.claim) (h : me.orphans ts e = false)
      (step : Acquire.step (α := α) table pin (ts, me) (.prune done.length) =
        ⟨(ts, me), .goto (.prune (done.length + 1)), []⟩) : ∃ n ts' me', n ≤ 3 ∧
      Runs (Acquire.step (α := α) table pin) (ts, me) (.prune done.length) n [] (ts', me')
        (.goto (.prune (done ++ ([me.unpinned ts e].filter fun e => me'.isLive e.claim)).length)) ∧
      me.Pruned ts done [e] rest ts' me' :=
    ⟨1, ts, me, by omega, by simpa [live] using Runs.quietly step rfl, .kept here h live⟩
  by_cases hp : e.pinned
  · have live : me.isLive e.claim := (s.counts.unpin hmem hp).isLive_of_eq_some
    by_cases hh : ts.hasHandles place.table
    · exact kept live (by simp [orphans, hh]) (by simp [step, hp, hh])
    · have h : me.orphans ts e := by simp [orphans, hp, hh]
      simp only [hp, hh, if_true] at step
      by_cases last : ((me.setPinned e.claim false).letGo e.claim).2
      · have dead : ¬((me.setPinned e.claim false).letGo e.claim).1.isLive e.claim :=
          fun hl => ((Thread.isLive_letGo live _).mp hl).2 ⟨rfl, last⟩
        refine ⟨3, _, _, le_rfl, ?_, .released here s.counts h hplace dead⟩
        simp only [last, if_true] at step
        rw [List.filter_eq_nil_iff.mpr (by simpa using dead), List.append_nil]
        exact .quiet step rfl (.quiet rfl rfl (.quietly rfl rfl))
      · have live' : ((me.setPinned e.claim false).letGo e.claim).1.isLive e.claim :=
          (Thread.isLive_letGo live _).mpr ⟨live, fun h => last h.2⟩
        refine ⟨1, ts, _, by omega, ?_, .spared here s.counts h live'⟩
        simp only [last] at step
        simpa [live'] using Runs.quietly step rfl
  · by_cases hl : me.isLive e.claim
    · exact kept hl (by simp [orphans, hp]) (by simp [step, hp, hl])
    · refine ⟨1, ts, me.forget done.length, by omega, ?_, .forgotten here (by simp [orphans, hp]) hl⟩
      have forgets := step.trans (by simp [hp, hl] :
        _ = (⟨(ts, me.forget done.length), .goto (.prune done.length), []⟩ : Outcome _ _ _ α))
      simpa [hl] using Runs.quietly forgets rfl

/-- The entries from some place of the cache on. -/
theorem runs_prune (pin : Bool) (s : Sound table ts me (.prune done.length)) (h0 : me.token ≠ 0)
    (here : me.cache = done ++ xs) :
    ∃ n ts' me', n ≤ 3 * xs.length + 1 ∧
      Runs (step (α := α) table pin) (ts, me) (.prune done.length) n [] (ts', me')
        (.goto (.claiming Claiming.start)) ∧
      Sound table ts' me' (.claiming Claiming.start) ∧ me.Pruned ts done xs [] ts' me' := by
  induction xs generalizing ts me done with
  | nil =>
    have step : step (α := α) table pin (ts, me) (.prune done.length) =
        ⟨(ts, me), .goto (.claiming Claiming.start), []⟩ := by
      simp [Acquire.step, Acquire.prune, here]
    exact ⟨1, ts, me, by omega, .quietly step rfl, ⟨s.counts, s.owns, s.fitting⟩,
      .nil ts me (by simpa using here)⟩
  | cons e xs ih =>
    obtain ⟨k, ts₁, me₁, hk, first, pruned⟩ := runs_entry (α := α) pin s here
    have apart (f : Cached) (hf : f ∈ xs) : f.claim ≠ e.claim := by
      have nodup := s.counts.nodup
      rw [here, List.map_append, List.map_cons] at nodup
      rintro he
      exact (List.nodup_cons.mp (List.nodup_append.mp nodup).2.1).1 (he ▸ List.mem_map_of_mem hf)
    obtain ⟨n, ts', me', hn, others, sound, pruned'⟩ :=
      ih (s.runs h0 first) (by rw [pruned.token]; exact h0) pruned.cache
    refine ⟨k + n, ts', me', by simp; omega, first.trans others, sound, ?_⟩
    exact .cons (by simpa using pruned) pruned' apart

end Acquire

end LockFreeStack
