import LockFreeStack.Proofs.Hazard.Exclusive
import LockFreeStack.Proofs.Slot.Later

/-!
The slot cache of a thread, in every state that the threads come to, and what a search for a claim that
nobody disturbs does to it.
-/

namespace LockFreeStack

variable {α : Type} {i c : Nat}

namespace Hazard.Crowd

variable {x : Crowd α}

theorem Orderly.nodup_liveTables (o : x.Orderly) (one : x.memory.tables.OneEach) (i : Nat) :
    (x.me i).liveTables.Nodup := by
  have k := (o.seated i).counts
  refine List.Nodup.map_on (fun e he f hf htable => ?_) (k.nodup.of_map.filter _)
  obtain ⟨he, hel⟩ := List.mem_filter.mp he
  obtain ⟨hf, hfl⟩ := List.mem_filter.mp hf
  obtain ⟨p, hp⟩ := Thread.exists_place hel
  obtain ⟨q, hq⟩ := Thread.exists_place hfl
  exact List.inj_on_of_nodup_map k.nodup he hf
    (o.eq_of_table one hel hfl hp hq (by simpa [hp, hq] using htable))

/-- Between its operations a thread has the slots that it holds by a name and those that it has lent. -/
theorem hasSlot_iff_of_idle (idle : x.busy i = none) :
    x.HasSlot i c ↔ (x.me i).slots.count c + (x.me i).lent.count c ≠ 0 := by
  have point : x.point i = none := by simp [Crowd.point, idle]
  have named : (∃ name, (name, c) ∈ (x.me i).slots.entries) ↔ 0 < (x.me i).slots.count c := by
    simp [Directory.count, List.countP_pos_iff]
  have lent : c ∈ (x.me i).lent ↔ 0 < (x.me i).lent.count c := List.count_pos_iff.symm
  simp only [HasSlot, point, Option.bind_none, reduceCtorEq, or_false, named, lent]
  omega

/-- In every cache the live entries are of different tables. An acquisition that nobody disturbs comes to the
live claim on its table if the thread has one, and changes nothing but the references to that claim.
Otherwise the pins on tables without handles go, with the records that no slot keeps, and so do the
entries of dead claims; then the first record that nobody owns becomes the thread's. After that all
entries are live, and all pins on tables that somebody has a handle to. -/
theorem acquire_alone (ms : List (Move α)) :
    (∀ i, ((after ms).me i).liveTables.Nodup) ∧
    ∀ i table pin, (after ms).busy i = none → table < (after ms).memory.tables.size →
      let ts := (after ms).memory.tables
      let me := (after ms).me i
      let Ends := fun ts' me' r => ∃ n ≤ Acquire.patience ts me table,
        Runs (Acquire.step (α := α) table pin) (ts, me) .lookup n [] (ts', me') (.done r)
      (∀ c place, me.isLive c → me.place? c = some place → place.table = table →
        ∃ me', Ends ts me' (.ok c) ∧ me.Reused c pin me') ∧
      (me.Lacks table → ∃ ts₁ me₁, me.Pruned ts [] me.cache [] ts₁ me₁ ∧
        (∀ e ∈ me.cache, me.orphans ts e → (me₁.isLive e.claim ↔ (after ms).HasSlot i e.claim)) ∧
        (∀ k, ts.FirstVacant table k →
          let ts' := ts₁.setOwner ⟨table, k⟩ me.token
          let me' := me₁.obtain ⟨table, k⟩ pin
          Ends ts' me' (.ok me.claims.size) ∧ me'.AllLive ∧ (ts.hasHandles table → me'.PinsHeld ts')) ∧
        ((∀ k, ¬ts.Vacant ⟨table, k⟩) →
          Ends ts₁ me₁ (.error (.failure (.exhausted ((after ms).memory.table table).capacity))))) := by
  have o := orderly_after ms
  have one := oneEach_after ms
  refine ⟨o.nodup_liveTables one, fun i table pin idle there => ?_⟩
  intro ts me Ends
  have sound : Acquire.Sound table ts me .lookup := o.sound idle table
  have ht : ts[table]? = some ((after ms).memory.table table) := getElem?_tables there
  refine ⟨fun c place live hp hpt => ?_, fun lacks => ?_⟩
  · obtain ⟨me', run, reused⟩ := Acquire.runs_reuse (α := α) pin sound live hp hpt
      fun d q hd hq hqt => o.eq_of_table one hd live hq hp (hqt.trans hpt.symm)
    exact ⟨me', ⟨1, by unfold Acquire.patience; omega, run⟩, reused⟩
  · obtain ⟨ts₁, me₁, pruned, sound₁, seize, full⟩ :=
      Acquire.runs_obtain (α := α) pin sound (o.token_ne_zero i) ht lacks
    refine ⟨ts₁, me₁, pruned, fun e he orphan => ?_, fun k first => ⟨seize k first, ?_, fun handles => ?_⟩, full⟩
    · rw [Thread.isLive_iff, pruned.refs_of_orphans sound.counts he orphan, hasSlot_iff_of_idle idle]
    · exact pruned.allLive.obtain
    · exact pruned.pinsHeld.obtain sound₁.counts ((Tables.hasHandles_congr pruned.handles table).trans handles) _

/-- Thread 0 has a pin on a registry that nobody has any more, and there is another one. -/
def stranded : List (Move Unit) :=
  [.change (.registry 1), .call 0 (.lend 0)] ++ List.replicate 6 (.step 0) ++
    [.call 0 .takeBack, .step 0, .change (.unhandle 0), .change (.registry 1)]

theorem acquire_alone_stranded :
    let ts := (after stranded).memory.tables
    let me := (after stranded).me 0
    (after stranded).busy 0 = none ∧ 1 < ts.size ∧ me.Lacks 1 ∧ ts.FirstVacant 1 0 ∧
      ts.record? ⟨0, 0⟩ = some ⟨1, .null⟩ ∧
      ∃ n ts' me', Runs (Acquire.step (α := Unit) 1 true) (ts, me) .lookup n [] (ts', me') (.done (.ok 1)) ∧
        me'.AllLive ∧ me'.PinsHeld ts' ∧ ts'.record? ⟨0, 0⟩ = some {} := by
  intro ts me
  have idle : (after stranded).busy 0 = none := by decide +kernel
  have there : 1 < ts.size := by decide +kernel
  have lacks : me.Lacks 1 :=
    Thread.lacks_of_claimOn? ((orderly_after stranded).seated 0).counts (by decide +kernel)
  have first : ts.FirstVacant 1 0 := ⟨⟨{}, by decide +kernel, rfl⟩, fun j hj => absurd hj (Nat.not_lt_zero j)⟩
  obtain ⟨-, alone⟩ := acquire_alone stranded
  obtain ⟨-, fresh⟩ := alone 0 1 true idle there
  obtain ⟨ts₁, me₁, pruned, kept, seize, -⟩ := fresh lacks
  obtain ⟨⟨n, -, run⟩, live, held⟩ := seize 0 first
  refine ⟨idle, there, lacks, first, by decide +kernel, n, _, _, run, live, held (by decide +kernel), ?_⟩
  have orphan : me.orphans ts ⟨0, true⟩ := by decide +kernel
  have dead : ¬me₁.isLive 0 := by
    rw [kept ⟨0, true⟩ (by decide +kernel) orphan, hasSlot_iff_of_idle idle]
    decide +kernel
  rw [Tables.record?_setOwner, if_neg (by decide), pruned.records,
    if_pos ⟨⟨0, true⟩, by decide +kernel, orphan, dead, by decide +kernel⟩]
  decide +kernel

end Hazard.Crowd

end LockFreeStack
