import LockFreeStack.Proofs.Hazard.Leads

/-!
What a step does to the claims and the pins of its thread. Claims are made by seizing a record only.
Pins are set by an acquisition that asks for them, and go in an exit or when the cache is pruned.
-/

namespace LockFreeStack

variable {α : Type} {m : Memory α} {ts : Tables} {me me' me'' : Thread} {p q : Point α} {c d i : Nat}
  {e : Cached}

namespace Thread

theorem isLive_of_letGo (h : (me.letGo c).1.isLive d) : me.isLive d := by
  rw [isLive_iff] at h ⊢
  intro h0
  refine h ?_
  simp only [letGo, setRefs, refs, Array.getElem?_modify]
  split
  · rename_i hd
    subst hd
    unfold refs at h0
    cases hc : me.claims[c]? with
    | none => rfl
    | some x =>
      have h0 : x.refs = 0 := by simpa [hc] using h0
      simp [h0]
  · exact h0

theorem isPinned_pin (hc : c ∈ me.cache.map Cached.claim) :
    (me.pin c).isPinned d ↔ me.isPinned d ∨ d = c := by
  unfold pin
  split
  · rename_i h
    exact ⟨.inl, fun hd => hd.elim id fun hd => hd ▸ h⟩
  · obtain ⟨e, he, rfl⟩ := List.mem_map.mp hc
    simp only [isPinned, setPinned, List.any_eq_true, List.mem_map, Bool.and_eq_true, beq_iff_eq]
    constructor
    · rintro ⟨_, ⟨f, hf, rfl⟩, hfd, hp⟩
      by_cases hfe : f.claim = e.claim
      · rw [if_pos hfe] at hfd
        exact .inr (hfd.symm.trans hfe)
      · rw [if_neg hfe] at hfd hp
        exact .inl ⟨f, hf, hfd, hp⟩
    · rintro (⟨f, hf, rfl, hp⟩ | rfl)
      · refine ⟨_, ⟨f, hf, rfl⟩, ?_⟩
        split
        · exact ⟨rfl, rfl⟩
        · exact ⟨rfl, hp⟩
      · exact ⟨_, ⟨e, he, rfl⟩, by simp⟩

theorem isPinned_unpin : (me.setPinned c false).isPinned d ↔ me.isPinned d ∧ d ≠ c := by
  rw [isPinned_iff, isPinned_iff]
  by_cases h : d = c
  · simp [h, pins_unpin]
  · simp [pins_setPinned_of_ne h, h]

theorem isPinned_forget (he : me.cache[i]? = some e) (hp : ¬e.pinned) :
    (me.forget i).isPinned d ↔ me.isPinned d := by
  obtain ⟨l₁, l₂, hc, hf⟩ := exists_append_of_getElem? he
  simp only [isPinned, forget]
  rw [hf, hc]
  simp [hp]

theorem isPinned_enter (place : Place) : (me.enter place).isPinned d ↔ me.isPinned d := by
  simp [isPinned, enter]

end Thread

/-- The thread after the next step, as far as its claims and pins go. -/
inductive Tenure (ts : Tables) (me : Thread) (p : Point α) (me' : Thread) : Prop
  | keeps (places : ∀ d, me'.place? d = me.place? d) (live : ∀ d, me'.isLive d → me.isLive d)
    (pins : ∀ d, me'.isPinned d ↔ me.isPinned d)
  | found (t : Nat) (purpose : Purpose) (c : Nat) (point : p = .acquire t purpose .lookup)
    (done : (Acquire.step (α := α) t purpose.pins (ts, me) .lookup).next = .done (.ok c))
    (places : ∀ d, me'.place? d = me.place? d) (live : ∀ d, me'.isLive d → me.isLive d)
    (pins : ∀ d, me'.isPinned d ↔ me.isPinned d ∨ purpose.pins ∧ d = c)
  | made (t : Nat) (purpose : Purpose) (k : Nat) (point : p = .acquire t purpose (.claiming (.seize k)))
    (done : (Acquire.step (α := α) t purpose.pins (ts, me) (.claiming (.seize k))).next =
      .done (.ok me.claims.size))
    (places : ∀ d, me'.place? d = if d = me.claims.size then some ⟨t, k⟩ else me.place? d)
    (live : ∀ d, me'.isLive d ↔ me.isLive d ∨ d = me.claims.size)
    (pins : ∀ d, me'.isPinned d ↔ me.isPinned d ∨ purpose.pins ∧ d = me.claims.size)
  | pruned (t : Nat) (purpose : Purpose) (i c : Nat) (place : Place) (point : p = .acquire t purpose (.prune i))
    (at_ : me.place? c = some place) (handles : ts.hasHandles place.table = false)
    (places : ∀ d, me'.place? d = me.place? d) (live : ∀ d, me'.isLive d → me.isLive d)
    (pins : ∀ d, me'.isPinned d ↔ me.isPinned d ∧ d ≠ c)
  | exits (point : p = .exit) (places : ∀ d, me'.place? d = me.place? d)
    (live : ∀ d, me'.isLive d → me.isLive d) (pins : ∀ d, me'.isPinned d → me.isPinned d)

namespace Tenure

theorem same (claims : me'.claims = me.claims) (cache : me'.cache = me.cache) : Tenure ts me p me' := by
  refine .keeps (fun d => ?_) (fun d => ?_) fun d => ?_
  · rw [Thread.place?, claims]; rfl
  · rw [Thread.isLive, Thread.refs, claims]; exact id
  · rw [Thread.isPinned, cache]; rfl

/-- What the thread knows apart from its claims and its cache is no matter. -/
theorem congr (h : Tenure ts me p me') (claims : me''.claims = me'.claims) (cache : me''.cache = me'.cache) :
    Tenure ts me p me'' := by
  have places (d : Nat) : me''.place? d = me'.place? d := by rw [Thread.place?, claims]; rfl
  have live (d : Nat) : me''.isLive d = me'.isLive d := by
    rw [Thread.isLive, Thread.refs, claims]; rfl
  have pins (d : Nat) : me''.isPinned d = me'.isPinned d := by rw [Thread.isPinned, cache]; rfl
  cases h with
  | keeps a b c => exact .keeps (by simpa only [places]) (by simpa only [live]) (by simpa only [pins])
  | found t purpose c point done a b e =>
    exact .found t purpose c point done (by simpa only [places]) (by simpa only [live]) (by simpa only [pins])
  | made t purpose k point done a b e =>
    exact .made t purpose k point done (by simpa only [places]) (by simpa only [live]) (by simpa only [pins])
  | pruned t purpose i c place point at_ handles a b e =>
    exact .pruned t purpose i c place point at_ handles (by simpa only [places]) (by simpa only [live])
      (by simpa only [pins])
  | exits point a b e => exact .exits point (by simpa only [places]) (by simpa only [live]) (by simpa only [pins])

end Tenure

namespace Acquire

variable {t : Nat} {purpose : Purpose}

theorem free_of_done {pin : Bool} {k : Nat}
    (h : (step (α := α) t pin (ts, me) (.claiming (.seize k))).next = .done (.ok c)) :
    ∃ r, ts.record? ⟨t, k⟩ = some r ∧ r.owner = 0 := by
  cases ht : ts[t]? with
  | none => simp [step, ht] at h
  | some tb =>
    cases hr : tb.records[k]? with
    | none => simp [step, ht, Claiming.step, hr] at h
    | some r =>
      refine ⟨r, by simpa only [Tables.record?, ht] using hr, ?_⟩
      by_contra ho
      simp [step, ht, Claiming.step, hr, ho] at h

theorem tenure_lookup (counts : me.Counts none) :
    Tenure (α := α) ts me (.acquire t purpose .lookup)
      (step (α := α) t purpose.pins (ts, me) .lookup).memory.2 := by
  cases h : me.claimOn? t with
  | none =>
    simp only [step, h]
    exact .same rfl rfl
  | some c =>
    obtain ⟨hc, -⟩ := Thread.claimOn?_eq_some h
    have known : c ∈ (me.keep c).cache.map Cached.claim := counts.cached c hc
    have done : (step (α := α) t purpose.pins (ts, me) .lookup).next = .done (.ok c) := by
      simp only [step, h]
    refine .found t purpose c rfl done (fun d => ?_) (fun d hd => ?_) fun d => ?_
    · simp only [step, h]
      cases purpose.pins <;> simp
    · simp only [step, h] at hd
      refine (Thread.isLive_keep hc d).mp ?_
      cases hpins : purpose.pins <;> rw [hpins] at hd
      · exact hd
      · exact (Thread.isLive_pin ((Thread.isLive_keep hc c).mpr hc) d).mp hd
    · have keep : (me.keep c).isPinned d = me.isPinned d := rfl
      simp only [step, h]
      cases purpose.pins with
      | false => simp [keep]
      | true => simp [Thread.isPinned_pin known, keep]

theorem tenure_prune (counts : me.Counts none) (i : Nat) :
    Tenure (α := α) ts me (.acquire t purpose (.prune i)) (prune ts me i).1 := by
  unfold prune
  cases he : me.cache[i]? with
  | none => exact .same rfl rfl
  | some e =>
    have hmem := List.mem_of_getElem? he
    have forgotten (hp : ¬e.pinned) : Tenure (α := α) ts me (.acquire t purpose (.prune i)) (me.forget i) :=
      .keeps (fun _ => rfl) (fun _ => id) fun _ => Thread.isPinned_forget he hp
    simp only
    cases hplace : me.place? e.claim with
    | none =>
      refine forgotten fun hp => ?_
      obtain ⟨place, h⟩ := Thread.exists_place (counts.unpin hmem hp).isLive_of_eq_some
      cases hplace.symm.trans h
    | some place =>
      simp only
      by_cases hp : e.pinned
      · rw [if_pos hp]
        by_cases hh : ts.hasHandles place.table
        · rw [if_pos hh]
          exact .same rfl rfl
        · rw [if_neg hh]
          have unpinned : Tenure (α := α) ts me (.acquire t purpose (.prune i))
              ((me.setPinned e.claim false).letGo e.claim).1 :=
            .pruned t purpose i e.claim place rfl hplace (by simpa using hh) (fun d => Thread.place?_letGo ..)
              (fun d hd => Thread.isLive_of_letGo hd) fun d => Thread.isPinned_unpin
          by_cases hlast : ((me.setPinned e.claim false).letGo e.claim).2
          · rw [if_pos hlast]
            exact unpinned
          · rw [if_neg hlast]
            exact unpinned
      · rw [if_neg hp]
        split
        · exact .same rfl rfl
        · exact forgotten hp

theorem tenure_seize {k : Nat} {tb : Table} {r : Record} (counts : me.Counts none) (ht : ts[t]? = some tb)
    (hr : tb.records[k]? = some r) (ho : r.owner = 0) :
    Tenure (α := α) ts me (.acquire t purpose (.claiming (.seize k)))
      (step (α := α) t purpose.pins (ts, me) (.claiming (.seize k))).memory.2 := by
  have entered := counts.enter ⟨t, k⟩
  have known := entered.cached _ entered.isLive_of_eq_some
  have done : (step (α := α) t purpose.pins (ts, me) (.claiming (.seize k))).next =
      .done (.ok me.claims.size) := by
    simp only [step, ht, Claiming.step, hr, ho, ↓reduceIte]
  refine .made t purpose k rfl done (fun d => ?_) (fun d => ?_) fun d => ?_ <;>
    simp only [step, ht, Claiming.step, hr, ho, ↓reduceIte]
  · rw [← Thread.place?_enter]
    cases purpose.pins <;> simp
  · rw [← Thread.isLive_enter me ⟨t, k⟩ d]
    cases purpose.pins with
    | false => rfl
    | true => exact Thread.isLive_pin entered.isLive_of_eq_some d
  · cases purpose.pins with
    | false => simp [Thread.isPinned_enter]
    | true => simp [Thread.isPinned_pin known, Thread.isPinned_enter]

theorem tenure_claiming (counts : me.Counts none) (a : Claiming.Point) :
    Tenure (α := α) ts me (.acquire t purpose (.claiming a))
      (step (α := α) t purpose.pins (ts, me) (.claiming a)).memory.2 := by
  cases ht : ts[t]? with
  | none =>
    simp only [step, ht]
    exact .same rfl rfl
  | some tb =>
    cases a with
    | check k =>
      simp only [step, ht, Claiming.step]
      cases tb.records[k]? with
      | none => exact .same rfl rfl
      | some r => by_cases ho : r.owner = me.token <;> simp only [ho, ↓reduceIte] <;> exact .same rfl rfl
    | probe k =>
      simp only [step, ht, Claiming.step]
      cases tb.records[k]? with
      | none => exact .same rfl rfl
      | some r =>
        by_cases h0 : me.token = 0 <;> by_cases ho : r.owner = 0 <;> simp only [h0, ho, ↓reduceIte] <;>
          exact .same rfl rfl
    | seize k =>
      cases hr : tb.records[k]? with
      | none =>
        simp only [step, ht, Claiming.step, hr]
        exact .same rfl rfl
      | some r =>
        by_cases ho : r.owner = 0
        · exact tenure_seize counts ht hr ho
        · simp only [step, ht, Claiming.step, hr, ho, ↓reduceIte]
          exact .same rfl rfl

theorem tenure_step (purpose : Purpose) {a : Point} (s : Sound t ts me a) :
    Tenure (α := α) ts me (.acquire t purpose a) (step (α := α) t purpose.pins (ts, me) a).memory.2 := by
  cases a with
  | lookup => exact tenure_lookup s.counts
  | prune i => exact tenure_prune s.counts i
  | releasing i place a =>
    obtain ⟨-, e, he, hp, -⟩ := s.fitting
    cases a with
    | clear => exact .same rfl rfl
    | disown => exact .keeps (fun _ => rfl) (fun _ => id) fun _ => Thread.isPinned_forget he hp
  | claiming a => exact tenure_claiming s.counts a

end Acquire

namespace Operation

theorem memory_letGo (m : Memory α) (me : Thread) (c : Nat) (answer : Answer α) :
    (letGo m me c answer).memory = (m, (me.letGo c).1) := by
  have pair : me.letGo c = ((me.letGo c).1, (me.letGo c).2) := rfl
  unfold letGo
  rw [pair]
  cases me.place? c <;> cases (me.letGo c).2 <;> rfl

theorem memory_giveUp (m : Memory α) (me : Thread) (c : Nat) :
    (giveUp m me c).memory = (m, (me.letGo c).1) := by
  have pair : me.letGo c = ((me.letGo c).1, (me.letGo c).2) := rfl
  unfold giveUp
  rw [pair]
  cases me.place? c <;> cases (me.letGo c).2 <;> rfl

theorem claims_acquired (m : Memory α) (me : Thread) (c : Nat) (purpose : Purpose) :
    (acquired m me c purpose).memory.2.claims = me.claims ∧
      (acquired m me c purpose).memory.2.cache = me.cache := by
  cases purpose with
  | register name =>
    simp only [acquired]
    split <;> exact ⟨rfl, rfl⟩
  | lend => exact ⟨rfl, rfl⟩
  | pop s =>
    simp only [acquired]
    split <;> exact ⟨rfl, rfl⟩

/-- A reference goes that is no pin. -/
theorem tenure_letGo (me me' : Thread) (c : Nat) (claims : me'.claims = me.claims)
    (cache : me'.cache = me.cache) (answer : Answer α) :
    Tenure ts me p (letGo m me' c answer).memory.2 := by
  have live : ∀ d, (me.letGo c).1.isLive d → me.isLive d := fun d hd => Thread.isLive_of_letGo hd
  have mine : Tenure ts me p (me.letGo c).1 :=
    .keeps (fun d => Thread.place?_letGo ..) live fun d => Iff.rfl
  rw [memory_letGo]
  refine mine.congr ?_ cache
  simp only [Thread.letGo, Thread.setRefs, Thread.refs, claims]

theorem tenure_exit (m : Memory α) (me : Thread) :
    Tenure (α := α) ts me .exit (exit m me).memory.2 := by
  -- Giving up a reference to `c`, whatever is left in the cache of what was there.
  have give {me' : Thread} (c : Nat) (claims : me'.claims = me.claims) (cache : me'.cache ⊆ me.cache) :
      Tenure (α := α) ts me .exit (giveUp m me' c).memory.2 := by
    have places (d : Nat) : me'.place? d = me.place? d := by rw [Thread.place?, claims]; rfl
    have live (d : Nat) : me'.isLive d = me.isLive d := by rw [Thread.isLive, Thread.refs, claims]; rfl
    rw [memory_giveUp]
    refine .exits rfl (fun d => (Thread.place?_letGo ..).trans (places d))
      (fun d hd => live d ▸ Thread.isLive_of_letGo hd) fun d hd => ?_
    obtain ⟨e, he, hp⟩ := List.any_eq_true.mp hd
    exact List.any_eq_true.mpr ⟨e, cache he, hp⟩
  rw [exit_eq]
  rcases hs : me.slots.entries with _ | ⟨⟨name, c⟩, rest⟩
  · rcases hc : me.cache with _ | ⟨e, rest⟩
    · exact .same rfl rfl
    · by_cases hp : e.pinned
      · simp only [if_pos hp]
        exact give e.claim rfl (by simp [hc])
      · simp only [if_neg hp]
        refine .exits rfl (fun _ => rfl) (fun _ => id) fun d hd => ?_
        obtain ⟨f, hf, hp⟩ := List.any_eq_true.mp hd
        exact List.any_eq_true.mpr ⟨f, by rw [hc]; exact List.mem_cons_of_mem e hf, hp⟩
  · exact give c rfl (List.Subset.refl _)

theorem tenure_acquire {t : Nat} {purpose : Purpose} {a : Acquire.Point}
    (s : Seated m.tables me (some (.acquire t purpose a : Point α))) :
    Tenure m.tables me (.acquire t purpose a : Point α) (step (m, me) (.acquire t purpose a)).memory.2 := by
  have sound : Acquire.Sound t m.tables me a := ⟨s.counts, s.owns, s.fitting _ rfl⟩
  have tenure := Acquire.tenure_step (α := α) purpose sound
  obtain ⟨ts, me', b, notes, ha, h⟩ | ⟨ts, me', e, notes, ha, h⟩ | ⟨ts, me', c, notes, ha, h, -⟩ :=
    acquire_cases m me t purpose a <;> rw [ha] at tenure <;> rw [h]
  · exact tenure
  · exact tenure
  · obtain ⟨claims, cache⟩ := claims_acquired { m with tables := ts } me' c purpose
    exact tenure.congr claims cache

theorem tenure_step (s : Seated m.tables me (some p)) :
    Tenure m.tables me p (step (m, me) p).memory.2 := by
  cases p with
  | acquire t purpose a => exact tenure_acquire s
  | dropSlot name =>
    simp only [step]
    cases me.slots.get? name with
    | none => exact .same rfl rfl
    | some c => exact tenure_letGo me { me with slots := me.slots.erase name } c rfl rfl .ok
  | takeBack =>
    simp only [step]
    cases me.lent with
    | nil => exact .same rfl rfl
    | cons c rest => exact tenure_letGo me { me with lent := rest } c rfl rfl .ok
  | letGo c answer => exact tenure_letGo me me c rfl rfl answer
  | exit => exact tenure_exit m me
  | popWith stack c =>
    simp only [step]
    repeat' split
    all_goals exact .same rfl rfl
  | publish c a =>
    simp only [step]
    split <;> exact .same rfl rfl
  | hazardPush | hazardPop | drain | release | exitRelease => exact .same rfl rfl
  | _ => exact (s.fitting _ rfl).elim

end Operation

namespace Tenure

theorem places (h : Tenure ts me p me') {place : Place} (hp : me.place? d = some place) :
    me'.place? d = some place := by
  cases h with
  | made t purpose k point done places =>
    have hd : d ≠ me.claims.size := by
      rintro rfl
      simp [Thread.place?] at hp
    rw [places, if_neg hd, hp]
  | keeps places | found _ _ _ _ _ places | pruned _ _ _ _ _ _ _ _ places | exits _ places =>
    rw [places, hp]

/-- A claim begins with the seizure of its record. -/
theorem live_cases (h : Tenure ts me p me') (hd : me'.isLive d) :
    me.isLive d ∨ ∃ t purpose k, p = .acquire t purpose (.claiming (.seize k)) ∧ d = me.claims.size ∧
      me'.place? d = some ⟨t, k⟩ ∧
      (Acquire.step (α := α) t purpose.pins (ts, me) (.claiming (.seize k))).next = .done (.ok d) := by
  cases h with
  | made t purpose k point done places live =>
    refine ((live d).mp hd).imp_right ?_
    rintro rfl
    exact ⟨t, purpose, k, point, rfl, by rw [places, if_pos rfl], done⟩
  | keeps _ live | found _ _ _ _ _ _ live | pruned _ _ _ _ _ _ _ _ _ live | exits _ _ live =>
    exact .inl (live d hd)

end Tenure

end LockFreeStack
