import LockFreeStack.Proofs.Slot.Prune
import Mathlib.Data.Nat.Find

/-!
An acquisition that nobody disturbs, from its beginning to its end. It comes to the live claim that the
thread has on the table, or else prunes the cache and claims the first record that nobody owns, if there
is one.
-/

namespace LockFreeStack

variable {α : Type} {ts ts₁ ts' : Tables} {tb : Table} {me me₁ me' : Thread} {table c k : Nat} {pin : Bool}
  {place : Place} {r : Record} {e : Cached}

namespace Tables

/-- Nobody owns the record. -/
def Vacant (ts : Tables) (place : Place) : Prop := ∃ r, ts.record? place = some r ∧ r.owner = 0

/-- The first record of the table that nobody owns. -/
structure FirstVacant (ts : Tables) (table k : Nat) : Prop where
  vacant : ts.Vacant ⟨table, k⟩
  taken : ∀ j < k, ¬ts.Vacant ⟨table, j⟩

theorem record?_of_table (ht : ts[table]? = some tb) (k : Nat) : ts.record? ⟨table, k⟩ = tb.records[k]? := by
  simp only [record?, ht]

/-- A table is its records and the number of its handles. -/
theorem getElem?_of_records (handles : ts'.map Table.handles = ts.map Table.handles)
    (records : ∀ k, ts'.record? ⟨table, k⟩ = ts.record? ⟨table, k⟩) : ts'[table]? = ts[table]? := by
  have handles' : (ts'[table]?).map Table.handles = (ts[table]?).map Table.handles := by
    rw [← Array.getElem?_map, ← Array.getElem?_map, handles]
  cases ht : ts[table]? with
  | none => simpa [ht] using handles'
  | some tb =>
    obtain ⟨tb', ht', same⟩ := Option.map_eq_some_iff.mp (handles'.trans (congrArg _ ht))
    have records' : tb'.records = tb.records := Array.ext_getElem? fun k => by
      rw [← record?_of_table ht', ← record?_of_table ht, records]
    rw [ht']
    cases tb'
    cases tb
    simp_all

/-- A record that is there and is not vacant. -/
theorem exists_owned (ht : ts[table]? = some tb) (hk : k < tb.capacity) (h : ¬ts.Vacant ⟨table, k⟩) :
    ∃ r, tb.records[k]? = some r ∧ r.owner ≠ 0 := by
  have hr : tb.records[k]? = some tb.records[k] := Array.getElem?_eq_getElem hk
  exact ⟨_, hr, fun ho => h ⟨_, (record?_of_table ht k).trans hr, ho⟩⟩

/-- There is a first vacant record, or none is vacant. -/
theorem firstVacant_or_none (ts : Tables) (table : Nat) :
    (∃ k, ts.FirstVacant table k) ∨ ∀ k, ¬ts.Vacant ⟨table, k⟩ := by
  classical
  by_cases h : ∃ k, ts.Vacant ⟨table, k⟩
  · exact .inl ⟨Nat.find h, Nat.find_spec h, fun j hj => Nat.find_min h hj⟩
  · exact .inr (not_exists.mp h)

end Tables

namespace Thread

/-- The thread with a new claim, which a pin of its cache keeps too if it is to. -/
def obtain (me : Thread) (place : Place) (pin : Bool) : Thread :=
  { me with
    claims := me.claims.push ⟨place, if pin then 2 else 1⟩
    cache := me.cache ++ [⟨me.claims.size, pin⟩] }

theorem place?_obtain (me : Thread) (place : Place) (pin : Bool) (d : Nat) :
    (me.obtain place pin).place? d = if d = me.claims.size then some place else me.place? d := by
  simp only [place?, obtain, Array.getElem?_push]
  by_cases h : d = me.claims.size <;> simp [h]

theorem isLive_obtain (me : Thread) (place : Place) (pin : Bool) (d : Nat) :
    (me.obtain place pin).isLive d ↔ me.isLive d ∨ d = me.claims.size := by
  simp only [isLive_iff, refs, obtain, Array.getElem?_push]
  by_cases h : d = me.claims.size
  · cases pin <;> simp [h]
  · simp [h]

/-- A new claim is not pinned yet. -/
theorem pin_enter (k : me.Counts none) (place : Place) (pin : Bool) :
    (if pin then (me.enter place).pin me.claims.size else me.enter place) = me.obtain place pin := by
  have fresh (e : Cached) (he : e ∈ me.cache) : e.claim ≠ me.claims.size := Nat.ne_of_lt (k.known e he)
  have same : me.cache.map (fun e => if e.claim = me.claims.size then { e with pinned := true } else e) =
      me.cache :=
    (List.map_congr_left fun e he => if_neg (fresh e he)).trans (List.map_id _)
  have unpinned : (me.enter place).isPinned me.claims.size = false := by
    simpa [isPinned, enter] using fun e he h => absurd h (fresh e he)
  cases pin with
  | false => rfl
  | true =>
    simp only [if_true, Thread.pin, unpinned, Bool.false_eq_true, if_false]
    have counted : (me.claims.push ⟨place, 1⟩).modify me.claims.size (fun x => { x with refs := 2 }) =
        me.claims.push ⟨place, 2⟩ := by
      refine Array.ext_getElem? fun j => ?_
      rw [Array.getElem?_modify, Array.getElem?_push, Array.getElem?_push]
      by_cases hj : me.claims.size = j
      · simp [hj]
      · simp [hj, Ne.symm hj]
    simp [keep, setRefs, setPinned, enter, refs, obtain, same, counted]

end Thread

namespace Acquire

section Claim

variable (ht : ts[table]? = some tb)

include ht

/-- A thread that owns no record of the table finds out so. -/
theorem runs_check (pin : Bool) (foreign : ∀ (k : Nat) (r : Record), tb.records[k]? = some r → r.owner ≠ me.token)
    {i d : Nat} (hd : i + d = tb.capacity) :
    Runs (α := α) (step table pin) (ts, me) (.claiming (.check i)) (d + 1) [] (ts, me)
      (.goto (.claiming (.probe 0))) := by
  induction d generalizing i with
  | zero =>
    have hnone : tb.records[i]? = none := Array.getElem?_eq_none (Nat.le_of_eq hd.symm)
    have check : step (α := α) table pin (ts, me) (.claiming (.check i)) =
        ⟨(ts, me), .goto (.claiming (.probe 0)), []⟩ := by
      simp [step, ht, Claiming.step, hnone]
    exact .quietly check rfl
  | succ d ih =>
    have hlt : i < tb.records.size := by
      have : tb.capacity = tb.records.size := rfl
      omega
    have hr : tb.records[i]? = some tb.records[i] := Array.getElem?_eq_getElem hlt
    have check : step (α := α) table pin (ts, me) (.claiming (.check i)) =
        ⟨(ts, me), .goto (.claiming (.check (i + 1))), []⟩ := by
      simp [step, ht, Claiming.step, hr, foreign i _ hr]
    exact .quiet check rfl (ih (by omega))

/-- Records that have owners are passed over. -/
theorem runs_probe (pin : Bool) (h0 : me.token ≠ 0) {i d : Nat}
    (taken : ∀ j < d, ∃ r, tb.records[i + j]? = some r ∧ r.owner ≠ 0) :
    Runs (α := α) (step table pin) (ts, me) (.claiming (.probe i)) d [] (ts, me)
      (.goto (.claiming (.probe (i + d)))) := by
  induction d generalizing i with
  | zero => exact .stay _ _
  | succ d ih =>
    obtain ⟨r, hr, ho⟩ := taken 0 (Nat.succ_pos d)
    have probe : step (α := α) table pin (ts, me) (.claiming (.probe i)) =
        ⟨(ts, me), .goto (.claiming (.probe (i + 1))), []⟩ := by
      simp [step, ht, Claiming.step, show tb.records[i]? = some r from hr, h0, ho]
    rw [← Nat.add_assoc, Nat.add_right_comm]
    exact .quiet probe rfl (ih fun j hj => by
      rw [Nat.add_right_comm]
      exact taken (j + 1) (by omega))

/-- The record found without an owner is seized. -/
theorem runs_seize (pin : Bool) (counts : me.Counts none) (h0 : me.token ≠ 0) (hr : tb.records[k]? = some r)
    (ho : r.owner = 0) :
    Runs (α := α) (step table pin) (ts, me) (.claiming (.probe k)) 2 []
      (ts.setOwner ⟨table, k⟩ me.token, me.obtain ⟨table, k⟩ pin) (.done (.ok me.claims.size)) := by
  have probe : step (α := α) table pin (ts, me) (.claiming (.probe k)) =
      ⟨(ts, me), .goto (.claiming (.seize k)), []⟩ := by
    simp [step, ht, Claiming.step, hr, h0, ho]
  have seize : step (α := α) table pin (ts, me) (.claiming (.seize k)) =
      ⟨(ts.setOwner ⟨table, k⟩ me.token, me.obtain ⟨table, k⟩ pin), .done (.ok me.claims.size),
        [.log (.claimed k me.token)]⟩ := by
    simp [step, ht, Claiming.step, hr, ho, Tables.set_setOwner ht, ← Thread.pin_enter counts]
  exact .quiet probe rfl (.quietly seize rfl)

theorem runs_exhausted (me : Thread) (pin : Bool) :
    Runs (α := α) (step table pin) (ts, me) (.claiming (.probe tb.capacity)) 1 [] (ts, me)
      (.done (.error (.failure (.exhausted tb.capacity)))) := by
  have hnone : tb.records[tb.capacity]? = none := Array.getElem?_eq_none (Nat.le_refl _)
  have probe : step (α := α) table pin (ts, me) (.claiming (.probe tb.capacity)) =
      ⟨(ts, me), .done (.error (.failure (.exhausted tb.capacity))),
        [.log (.exhausted tb.capacity me.token)]⟩ := by
    simp [step, ht, Claiming.step, hnone]
  exact .quietly probe rfl

end Claim

end Acquire

namespace Thread

/-- One more reference to the claim, and its pin if it is to be pinned and is not yet. -/
structure Reused (me : Thread) (c : Nat) (pin : Bool) (me' : Thread) : Prop where
  token : me'.token = me.token
  slots : me'.slots = me.slots
  lent : me'.lent = me.lent
  size : me'.claims.size = me.claims.size
  places : ∀ d, me'.place? d = me.place? d
  refs : ∀ d, me'.refs d = me.refs d + if d = c then (if pin ∧ ¬me.isPinned c then 2 else 1) else 0
  cache : me'.cache =
    if pin then me.cache.map fun e => if e.claim = c then { e with pinned := true } else e else me.cache

theorem reused_keep (hc : c < me.claims.size) : me.Reused c false (me.keep c) where
  token := rfl
  slots := rfl
  lent := rfl
  size := by simp [keep, setRefs]
  places d := place?_keep ..
  refs d := by
    rw [keep, refs_setRefs _ _ _ _ hc]
    by_cases hd : d = c <;> simp [hd]
  cache := rfl

theorem reused_pin (k : me.Counts none) (hc : c < me.claims.size) : me.Reused c true ((me.keep c).pin c) := by
  have kept : (me.keep c).isPinned c = me.isPinned c := rfl
  have refs (d : Nat) : (me.keep c).refs d = me.refs d + if d = c then 1 else 0 := by
    rw [keep, refs_setRefs _ _ _ _ hc]
    by_cases hd : d = c <;> simp [hd]
  have size : (me.keep c).claims.size = me.claims.size := by simp [keep, setRefs]
  by_cases hp : me.isPinned c
  · have same : me.cache.map (fun e => if e.claim = c then { e with pinned := true } else e) = me.cache := by
      refine (List.map_congr_left fun e he => ?_).trans (List.map_id _)
      split
      · rename_i hec
        obtain ⟨f, hf, hfc⟩ := List.any_eq_true.mp hp
        obtain ⟨hfc, pinned⟩ : f.claim = c ∧ f.pinned := by simpa using hfc
        obtain rfl := List.inj_on_of_nodup_map k.nodup he hf (hec.trans hfc.symm)
        simp [← pinned]
      · rfl
    rw [Thread.pin, if_pos (kept.trans hp)]
    exact ⟨rfl, rfl, rfl, size, fun d => place?_keep .., fun d => by simp [refs, hp],
      by simp [same, keep, setRefs]⟩
  · rw [Thread.pin, if_neg fun h => hp (kept.symm.trans h)]
    refine ⟨rfl, rfl, rfl, by simp [keep, setRefs, setPinned], fun d => ?_, fun d => ?_, rfl⟩
    · exact (place?_keep (me.keep c) c d).trans (place?_keep ..)
    · rw [refs_setPinned, keep, refs_setRefs _ _ _ _ (size.symm ▸ hc), refs, refs]
      by_cases hd : d = c <;> simp [hd, hp]

end Thread

namespace Thread.Pruned

variable (p : me.Pruned ts [] me.cache [] ts₁ me₁)

include p

/-- A table on which the thread has no live claim is left alone. -/
theorem getElem?_of_lacks (k : me.Counts none) (lacks : me.Lacks table) : ts₁[table]? = ts[table]? := by
  refine Tables.getElem?_of_records p.handles fun j => (p.records ⟨table, j⟩).trans (if_neg ?_)
  rintro ⟨e, he, orphan, -, hplace⟩
  have pinned : e.pinned := (Bool.and_eq_true_iff.mp orphan).1
  exact lacks e.claim _ (k.unpin he pinned).isLive_of_eq_some hplace rfl

end Thread.Pruned

namespace Acquire

/-- The live claim on the table is found. -/
theorem runs_reuse (pin : Bool) (s : Sound table ts me .lookup) (live : me.isLive c)
    (at_ : me.place? c = some place) (ht : place.table = table)
    (one : ∀ d q, me.isLive d → me.place? d = some q → q.table = table → d = c) :
    ∃ me', Runs (α := α) (step table pin) (ts, me) .lookup 1 [] (ts, me') (.done (.ok c)) ∧
      me.Reused c pin me' := by
  have found : me.claimOn? table = some c := by
    cases h : me.claimOn? table with
    | none => exact absurd ht (Thread.lacks_of_claimOn? s.counts h c place live at_)
    | some d =>
      obtain ⟨hd, q, hq, hqt⟩ := Thread.claimOn?_eq_some h
      rw [one d q hd hq hqt]
  have step : step (α := α) table pin (ts, me) .lookup =
      ⟨(ts, if pin then (me.keep c).pin c else me.keep c), .done (.ok c), []⟩ := by
    simp [Acquire.step, found]
  refine ⟨_, .quietly step rfl, ?_⟩
  have hc := Thread.lt_size_of_isLive live
  cases pin with
  | false => exact Thread.reused_keep hc
  | true => exact Thread.reused_pin s.counts hc

/-- Without a live claim on the table the cache is pruned, and the first record without an owner claimed. -/
theorem runs_obtain (pin : Bool) (s : Sound table ts me .lookup) (h0 : me.token ≠ 0) (ht : ts[table]? = some tb)
    (lacks : me.Lacks table) : ∃ ts₁ me₁, me.Pruned ts [] me.cache [] ts₁ me₁ ∧
      Sound table ts₁ me₁ (.claiming Claiming.start) ∧
      (∀ k, ts.FirstVacant table k → ∃ n ≤ patience ts me table,
        Runs (α := α) (step table pin) (ts, me) .lookup n []
          (ts₁.setOwner ⟨table, k⟩ me.token, me₁.obtain ⟨table, k⟩ pin) (.done (.ok me.claims.size))) ∧
      ((∀ k, ¬ts.Vacant ⟨table, k⟩) → ∃ n ≤ patience ts me table,
        Runs (α := α) (step table pin) (ts, me) .lookup n [] (ts₁, me₁)
          (.done (.error (.failure (.exhausted tb.capacity))))) := by
  have missing : me.claimOn? table = none := by
    cases h : me.claimOn? table with
    | none => rfl
    | some c =>
      obtain ⟨hc, q, hq, hqt⟩ := Thread.claimOn?_eq_some h
      exact absurd hqt (lacks c q hc hq)
  have lookup : step (α := α) table pin (ts, me) .lookup = ⟨(ts, me), .goto (.prune 0), []⟩ := by
    simp [step, missing]
  have begun : Sound table ts me (.prune ([] : List Cached).length) := ⟨s.counts, s.owns, lacks⟩
  obtain ⟨n, ts₁, me₁, hn, prune, sound, pruned⟩ :=
    runs_prune (α := α) pin begun h0 (List.nil_append me.cache).symm
  have ht₁ : ts₁[table]? = some tb := (pruned.getElem?_of_lacks s.counts lacks).trans ht
  have foreign (j : Nat) (r : Record) (hr : tb.records[j]? = some r) : r.owner ≠ me₁.token := fun ho => by
    obtain ⟨d, hd, hq⟩ := (sound.owns.owner ⟨table, j⟩ r ((Tables.record?_of_table ht₁ j).trans hr) ho).resolve_left
      (by simp [Point.site?])
    exact sound.fitting d _ hd hq rfl
  have check := runs_check (α := α) ht₁ pin foreign (Nat.zero_add tb.capacity)
  have h0' : me₁.token ≠ 0 := pruned.token.symm ▸ h0
  have enough (j : Nat) (hj : j ≤ tb.capacity) : n + (tb.capacity + 1) + (j + 2) + 1 ≤ patience ts me table := by
    simp only [patience, ht, Option.map_some, Option.getD_some, Claiming.patience]
    omega
  have begin_ (j : Nat) (taken : ∀ l < j, ¬ts.Vacant ⟨table, l⟩) (hj : j ≤ tb.capacity) :
      Runs (α := α) (step table pin) (ts, me) .lookup (n + (tb.capacity + 1) + j + 1) [] (ts₁, me₁)
        (.goto (.claiming (.probe j))) := by
    have owned : ∀ l < j, ∃ r, tb.records[0 + l]? = some r ∧ r.owner ≠ 0 := fun l hl => by
      rw [Nat.zero_add]
      exact Tables.exists_owned ht (by omega) (taken l hl)
    have probe := runs_probe (α := α) ht₁ pin h0' owned
    rw [Nat.zero_add] at probe
    exact .quiet lookup rfl ((prune.trans check).trans probe)
  refine ⟨ts₁, me₁, pruned, sound, fun k first => ?_, fun full => ?_⟩
  · obtain ⟨⟨r, hr, ho⟩, taken⟩ := first
    rw [Tables.record?_of_table ht] at hr
    have hk : k < tb.capacity := (Array.getElem?_eq_some_iff.mp hr).1
    have run := (begin_ k taken hk.le).trans (runs_seize ht₁ pin sound.counts h0' hr ho)
    rw [pruned.token, pruned.size] at run
    exact ⟨_, by have := enough k hk.le; omega, run⟩
  · have run := (begin_ tb.capacity (fun l _ => full l) le_rfl).trans (runs_exhausted ht₁ me₁ pin)
    exact ⟨_, by have := enough tb.capacity le_rfl; omega, run⟩

end Acquire

end LockFreeStack
