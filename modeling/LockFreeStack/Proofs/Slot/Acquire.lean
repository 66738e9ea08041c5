import LockFreeStack.Proofs.Slot.Ownership
import LockFreeStack.Slot.Acquire

/-!
An acquisition, whatever other threads do to their records meanwhile: it ends with a live claim on
the table asked for and one reference to it, or it finds the table exhausted.
-/

namespace LockFreeStack

variable {α : Type} {ts ts' : Tables} {me me' : Thread} {table c i : Nat} {pin : Bool} {place : Place}

namespace Thread

/-- The thread has no live claim on the table. -/
def Lacks (me : Thread) (table : Nat) : Prop :=
  ∀ c place, me.isLive c → me.place? c = some place → place.table ≠ table

theorem Lacks.mono (h : me.Lacks table) (live : ∀ c, me'.isLive c → me.isLive c)
    (places : ∀ c, me'.place? c = me.place? c) : me'.Lacks table :=
  fun c place hc hp => h c place (live c hc) (places c ▸ hp)

theorem claimOn?_eq_some (h : me.claimOn? table = some c) :
    me.isLive c ∧ ∃ place, me.place? c = some place ∧ place.table = table := by
  obtain ⟨e, he, rfl⟩ := Option.map_eq_some_iff.mp h
  have hp := List.find?_some he
  simp only [Bool.and_eq_true, beq_iff_eq, Option.map_eq_some_iff] at hp
  exact hp

theorem lacks_of_claimOn? {o : Option Nat} (k : me.Counts o) (h : me.claimOn? table = none) :
    me.Lacks table := by
  rintro c place hc hp rfl
  obtain ⟨e, he, rfl⟩ := List.mem_map.mp (k.cached c hc)
  have hf := List.find?_eq_none.mp (Option.map_eq_none_iff.mp h) e he
  simp [hc, hp] at hf

end Thread

theorem Tables.set_setOwner {ts : Tables} {table : Nat} {t : Table} (ht : ts[table]? = some t) (i n : Nat) :
    ts.setIfInBounds table (t.setOwner i n) = ts.setOwner ⟨table, i⟩ n := by
  have hlt := (Array.getElem?_eq_some_iff.mp ht).1
  refine Array.ext_getElem? fun j => ?_
  rw [Array.getElem?_setIfInBounds, Tables.setOwner, Array.getElem?_modify]
  by_cases hj : table = j
  · subst hj
    rw [if_pos rfl, if_pos rfl, if_pos hlt, ht]
    rfl
  · simp [hj]

namespace Acquire

def Point.site? : Point → Option Place
  | .releasing _ place _ => some place
  | _ => none

/-- What a thread at this point knows of its own claims and cache. -/
def Point.Fitting (table : Nat) (me : Thread) : Point → Prop
  | .lookup => True
  | .prune _ | .claiming _ => me.Lacks table
  | .releasing i _ _ =>
    me.Lacks table ∧ ∃ e, me.cache[i]? = some e ∧ ¬e.pinned ∧ ¬me.isLive e.claim

structure Sound (table : Nat) (ts : Tables) (me : Thread) (p : Point) : Prop where
  counts : me.Counts none
  owns : Owns ts me p.site?
  fitting : p.Fitting table me

/-- A live claim on the table, with a reference in the hands of the operation. -/
structure Success (table : Nat) (ts : Tables) (me : Thread) (c : Nat) : Prop where
  counts : me.Counts (some c)
  owns : Owns ts me none
  place : ∃ place, me.place? c = some place ∧ place.table = table

/-- The outcome of a step of a thread whose records before it were those of `ts`. -/
structure Keeps (table : Nat) (ts : Tables) (token : Nat)
    (o : Outcome (Tables × Thread) Point (Except Trouble Nat) α) : Prop where
  leaves : ts.Leaves o.memory.1 token
  token : o.memory.2.token = token
  next : match o.next with
    | .goto q => Sound table o.memory.1 o.memory.2 q
    | .done (.ok c) => Success table o.memory.1 o.memory.2 c
    | .done (.error e) =>
      o.memory.2.Counts none ∧ Owns o.memory.1 o.memory.2 none ∧ ∃ n, e = .failure (.exhausted n)
    | .fault _ => False

namespace Sound

theorem lookup (s : Sound table ts me .lookup) :
    Keeps table ts me.token (step (α := α) table pin (ts, me) .lookup) := by
  cases h : me.claimOn? table with
  | none =>
    simp only [step, h]
    exact ⟨.refl _ _, rfl, s.counts, s.owns, Thread.lacks_of_claimOn? s.counts h⟩
  | some c =>
    obtain ⟨hc, place, hp, ht⟩ := Thread.claimOn?_eq_some h
    have kept := s.counts.keep hc
    have hc' := (Thread.isLive_keep hc c).mpr hc
    simp only [step, h]
    cases pin with
    | false =>
      exact ⟨.refl _ _, rfl, kept, s.owns.congr rfl (Thread.isLive_keep hc) fun d _ => by simp,
        place, by simpa using hp, ht⟩
    | true =>
      refine ⟨.refl _ _, Thread.token_pin .., kept.pin,
        s.owns.congr (Thread.token_pin ..) (fun d => ?_) fun d _ => by simp, place, by simpa using hp, ht⟩
      exact (Thread.isLive_pin hc' d).trans (Thread.isLive_keep hc d)

/-- The pin on a claim goes, and with the last reference the claim. -/
theorem unpin {e : Cached} (s : Sound table ts me (.prune i)) (he : me.cache[i]? = some e)
    (hp : e.pinned) (hplace : me.place? e.claim = some place) :
    Sound table ts ((me.setPinned e.claim false).letGo e.claim).1
      (if ((me.setPinned e.claim false).letGo e.claim).2 then .releasing i place .clear
        else .prune (i + 1)) := by
  have hmem := List.mem_of_getElem? he
  have hcounts := s.counts.unpin hmem hp
  have hlive : (me.setPinned e.claim false).isLive e.claim := hcounts.isLive_of_eq_some
  have live := Thread.isLive_letGo hlive
  have lacks : ((me.setPinned e.claim false).letGo e.claim).1.Lacks table :=
    s.fitting.mono (fun d hd => ((live d).mp hd).1) fun d => Thread.place?_letGo ..
  have unpinned : Owns ts (me.setPinned e.claim false) none :=
    s.owns.congr rfl (fun _ => Iff.rfl) fun _ _ => rfl
  have owns := unpinned.letGo hlive hplace
  by_cases hlast : ((me.setPinned e.claim false).letGo e.claim).2
  · rw [if_pos hlast] at owns ⊢
    refine ⟨hcounts.letGo, owns, lacks, { e with pinned := false }, ?_, by simp,
      fun hd => ((live _).mp hd).2 ⟨rfl, hlast⟩⟩
    show ((me.cache.map _)[i]?) = _
    rw [List.getElem?_map, he]
    simp
  · rw [if_neg hlast] at owns ⊢
    exact ⟨hcounts.letGo, owns, lacks⟩

theorem prune (s : Sound table ts me (.prune i)) :
    Sound table ts (Acquire.prune ts me i).1 (Acquire.prune ts me i).2 ∧
      (Acquire.prune ts me i).1.token = me.token := by
  unfold Acquire.prune
  cases he : me.cache[i]? with
  | none => exact ⟨⟨s.counts, s.owns, s.fitting⟩, rfl⟩
  | some e =>
    have hmem := List.mem_of_getElem? he
    have forgotten (hp : ¬e.pinned) (hd : ¬me.isLive e.claim) : Sound table ts (me.forget i) (.prune i) :=
      ⟨s.counts.forget he hp hd, s.owns.congr rfl (fun _ => Iff.rfl) fun _ _ => rfl, s.fitting⟩
    simp only
    cases hplace : me.place? e.claim with
    | none =>
      have hd : ¬me.isLive e.claim := fun h => by
        obtain ⟨place, hp⟩ := Thread.exists_place h
        rw [hplace] at hp
        cases hp
      exact ⟨forgotten (fun hp => hd (s.counts.unpin hmem hp).isLive_of_eq_some) hd, rfl⟩
    | some place =>
      simp only
      by_cases hp : e.pinned
      · by_cases hh : ts.hasHandles place.table
        · rw [if_pos hp, if_pos hh]
          exact ⟨⟨s.counts, s.owns, s.fitting⟩, rfl⟩
        · have hs := s.unpin he hp hplace
          rw [if_pos hp, if_neg hh]
          by_cases hlast : ((me.setPinned e.claim false).letGo e.claim).2
          · rw [if_pos hlast] at hs ⊢
            exact ⟨hs, rfl⟩
          · rw [if_neg hlast] at hs ⊢
            exact ⟨hs, rfl⟩
      · by_cases hd : me.isLive e.claim
        · rw [if_neg hp, if_pos hd]
          exact ⟨⟨s.counts, s.owns, s.fitting⟩, rfl⟩
        · rw [if_neg hp, if_neg hd]
          exact ⟨forgotten hp hd, rfl⟩

theorem releasing {q : Release.Point} (s : Sound table ts me (.releasing i place q))
    (h0 : me.token ≠ 0) :
    Keeps table ts me.token (step (α := α) table pin (ts, me) (.releasing i place q)) := by
  obtain ⟨lacks, e, he, hp, hd⟩ := s.fitting
  obtain ⟨⟨r, hr, ho⟩, -⟩ := s.owns.returned place rfl
  cases q with
  | clear => exact ⟨.publish hr ho .null, rfl, s.counts, s.owns.publish .., lacks, e, he, hp, hd⟩
  | disown =>
    exact ⟨.setOwner hr (.inl ho) (.inr rfl), rfl, s.counts.forget he hp hd,
      (s.owns.disown h0).congr rfl (fun _ => Iff.rfl) fun _ _ => rfl, lacks⟩

/-- A record of a table that the thread has just found without an owner. -/
theorem seize {t : Table} {r : Record} (s : Sound table ts me (.claiming (.seize i)))
    (h0 : me.token ≠ 0) (ht : ts[table]? = some t) (hr : t.records[i]? = some r) (ho : r.owner = 0) :
    Keeps table ts me.token (step (α := α) table pin (ts, me) (.claiming (.seize i))) := by
  have hrec : ts.record? ⟨table, i⟩ = some r := by rw [Tables.record?, ht]; exact hr
  have entered := s.counts.enter ⟨table, i⟩
  have hc := entered.isLive_of_eq_some
  have owned : Owns (ts.setOwner ⟨table, i⟩ me.token) (me.enter ⟨table, i⟩) none :=
    s.owns.seize hrec ho h0 rfl (Thread.isLive_enter me ⟨table, i⟩) (Thread.place?_enter me ⟨table, i⟩)
  have hplace : (me.enter ⟨table, i⟩).place? me.claims.size = some ⟨table, i⟩ := by
    rw [Thread.place?_enter, if_pos rfl]
  have leaves : ts.Leaves (ts.setOwner ⟨table, i⟩ me.token) me.token :=
    .setOwner hrec (.inr ho) (.inl rfl)
  simp only [step, ht, Claiming.step, hr, ho, ↓reduceIte, Tables.set_setOwner ht]
  cases pin with
  | false => exact ⟨leaves, rfl, entered, owned, ⟨table, i⟩, hplace, rfl⟩
  | true =>
    exact ⟨leaves, Thread.token_pin .., entered.pin,
      owned.congr (Thread.token_pin ..) (Thread.isLive_pin hc) fun d _ => Thread.place?_pin ..,
      ⟨table, i⟩, by rw [← hplace]; exact Thread.place?_pin .., rfl⟩

theorem claiming {q : Claiming.Point} (s : Sound table ts me (.claiming q)) (h0 : me.token ≠ 0) :
    Keeps table ts me.token (step (α := α) table pin (ts, me) (.claiming q)) := by
  have goto (q' : Claiming.Point) : Sound table ts me (.claiming q') := ⟨s.counts, s.owns, s.fitting⟩
  cases ht : ts[table]? with
  | none =>
    simp only [step, ht]
    exact ⟨.refl _ _, rfl, s.counts, s.owns, 0, rfl⟩
  | some t =>
    cases q with
    | check i =>
      cases hr : t.records[i]? with
      | none =>
        simp only [step, ht, Claiming.step, hr]
        exact ⟨.refl _ _, rfl, goto _⟩
      | some r =>
        -- A record of the thread's own would belong to a live claim on the table.
        have hne : r.owner ≠ me.token := by
          intro ho
          have hrec : ts.record? ⟨table, i⟩ = some r := by rw [Tables.record?, ht]; exact hr
          obtain ⟨c, hc, hp⟩ := (s.owns.owner _ r hrec ho).resolve_left (by simp [Point.site?])
          exact s.fitting c _ hc hp rfl
        simp only [step, ht, Claiming.step, hr, hne, ↓reduceIte]
        exact ⟨.refl _ _, rfl, goto _⟩
    | probe i =>
      cases hr : t.records[i]? with
      | none =>
        simp only [step, ht, Claiming.step, hr]
        exact ⟨.refl _ _, rfl, s.counts, s.owns, _, rfl⟩
      | some r =>
        by_cases ho : r.owner = 0 <;> simp only [step, ht, Claiming.step, hr, h0, ho, ↓reduceIte] <;>
          exact ⟨.refl _ _, rfl, goto _⟩
    | seize i =>
      cases hr : t.records[i]? with
      | none =>
        simp only [step, ht, Claiming.step, hr]
        exact ⟨.refl _ _, rfl, goto _⟩
      | some r =>
        by_cases ho : r.owner = 0
        · exact s.seize h0 ht hr ho
        · simp only [step, ht, Claiming.step, hr, ho, ↓reduceIte]
          exact ⟨.refl _ _, rfl, goto _⟩

theorem step {p : Point} (s : Sound table ts me p) (h0 : me.token ≠ 0) :
    Keeps table ts me.token (Acquire.step (α := α) table pin (ts, me) p) := by
  cases p with
  | lookup => exact s.lookup
  | prune i => exact ⟨.refl _ _, s.prune.2, s.prune.1⟩
  | releasing i place q => exact s.releasing h0
  | claiming q => exact s.claiming h0

end Sound

end Acquire

end LockFreeStack
