import LockFreeStack.Proofs.Hazard.Inheritance
import LockFreeStack.Proofs.Hazard.Occupied
import LockFreeStack.Proofs.Hazard.Tenure
import LockFreeStack.Proofs.Hazard.Verdicts
import Mathlib.Data.Set.Card

/-!
What keeps a claim: the slots that its thread has of it, and its pin. The record belongs to the thread as
long as one of them is there, and with the last one the thread begins to give it back.
-/

namespace LockFreeStack

variable {α : Type} {m : Memory α} {ts : Tables} {me : Thread} {p q : Point α} {place : Place} {t : Nat}
  {purpose : Purpose} {a : Acquire.Point}

namespace Point

/-- A record on its way back has its owner reset next, or its address cleared and then its owner reset. -/
theorem clears_or_disowns (m : Memory α) (me : Thread) (h : p.site? = some place) :
    (p.store? me = some (place, .null) ∧
      ∃ q, (Operation.step (m, me) p).next = .goto q ∧ q.disown? = some place) ∨
    p.disown? = some place := by
  cases p with
  | acquire t purpose a =>
    cases a with
    | releasing i place' q =>
      cases h
      cases q with
      | clear => exact .inl ⟨rfl, _, rfl, rfl⟩
      | disown => exact .inr rfl
    | _ => cases h
  | release place' q answer =>
    cases h
    cases q with
    | clear => exact .inl ⟨rfl, _, rfl, rfl⟩
    | disown => exact .inr rfl
  | exitRelease place' q =>
    cases h
    cases q with
    | clear => exact .inl ⟨rfl, _, rfl, rfl⟩
    | disown => exact .inr rfl
  | _ => cases h

theorem site?_of_disown? (h : p.disown? = some place) : p.site? = some place := by
  unfold disown? at h
  split at h <;> cases h <;> rfl

end Point

namespace Operation

theorem unfaulting_disown (h : p.disown? = some place) (f : Fault) : (step (m, me) p).next ≠ .fault f := by
  unfold Point.disown? at h
  split at h
  case h_4 => cases h
  all_goals exact nofun

theorem giveUp_ne (m : Memory α) (me : Thread) (c : Nat) : (giveUp m me c).next.point? ≠ none := by
  unfold giveUp
  split <;> exact nofun

/-- A thread that has exited has neither slots nor a cache. -/
theorem exit_over (h : (exit m me).next.point? = none) :
    (exit m me).memory.2.slots.entries = [] ∧ (exit m me).memory.2.cache = [] ∧
      (exit m me).memory.2.lent = me.lent := by
  rw [exit_eq] at h ⊢
  rcases hs : me.slots.entries with _ | ⟨⟨name, c⟩, rest⟩
  · rcases hc : me.cache with _ | ⟨e, rest⟩
    · exact ⟨hs, hc, rfl⟩
    · simp only [hs, hc] at h
      split at h
      · exact absurd h (giveUp_ne _ _ _)
      · cases h
  · simp only [hs] at h
    exact absurd h (giveUp_ne _ _ _)

end Operation

namespace Acquire

theorem isPinned_of_done {c : Nat} (counts : me.Counts none)
    (h : (step (α := α) t true (ts, me) a).next = .done (.ok c)) :
    (step (α := α) t true (ts, me) a).memory.2.isPinned c := by
  cases a with
  | lookup =>
    cases hc : me.claimOn? t with
    | none => simp [step, hc] at h
    | some d =>
      have known : d ∈ (me.keep d).cache.map Cached.claim := counts.cached d (Thread.claimOn?_eq_some hc).1
      simp only [step, hc] at h ⊢
      cases h
      exact (Thread.isPinned_pin known).mpr (.inr rfl)
  | prune i => cases h
  | releasing i place q => cases q <;> cases h
  | claiming q =>
    cases ht : ts[t]? with
    | none => simp [step, ht] at h
    | some tb =>
      rcases hq : Claiming.step (α := α) tb me.token q with ⟨tb', q' | (e | k) | f, notes⟩ <;>
        simp only [step, ht, hq] at h ⊢ <;> cases h
      have entered := counts.enter ⟨t, k⟩
      exact (Thread.isPinned_pin (entered.cached _ entered.isLive_of_eq_some)).mpr (.inr rfl)

end Acquire

namespace Seated

/-- The claim that an acquisition ends with is on the table asked for. -/
theorem verdict?_of_done {c : Nat} (s : Seated m.tables me (some (.acquire t purpose a : Point α)))
    (h0 : me.token ≠ 0) (done : (Acquire.step (α := α) t purpose.pins (m.tables, me) a).next = .done (.ok c)) :
    ∃ k, (Point.acquire t purpose a : Point α).verdict? t m me = some (.ok k) ∧
      (Operation.step (m, me) (.acquire t purpose a)).memory.2.place? c = some ⟨t, k⟩ := by
  have keeps : Acquire.Keeps t m.tables me.token
      (Acquire.step (α := α) t purpose.pins (m.tables, me) a) := s.sound.step h0
  obtain ⟨ts, me', b, notes, ha, -⟩ | ⟨ts, me', e, notes, ha, -⟩ | ⟨ts, me', d, notes, ha, h, -⟩ :=
    Operation.acquire_cases m me t purpose a <;> rw [ha] at done keeps <;> cases done
  obtain ⟨⟨u, k⟩, hp, rfl⟩ := keeps.next.place
  refine ⟨k, by simp only [Point.verdict?, ↓reduceIte, ha, hp, Option.map_some], ?_⟩
  rw [h, Thread.place?, (Operation.claims_acquired _ me' c purpose).1]
  exact hp

theorem done_of_verdict? {k : Nat} (h : (Point.acquire t purpose a : Point α).verdict? t m me = some (.ok k)) :
    ∃ c, (Acquire.step (α := α) t purpose.pins (m.tables, me) a).next = .done (.ok c) := by
  simp only [Point.verdict?, ↓reduceIte] at h
  obtain ⟨ts, me', b, notes, ha, -⟩ | ⟨ts, me', e, notes, ha, -⟩ | ⟨ts, me', c, notes, ha, -⟩ :=
    Operation.acquire_cases m me t purpose a <;> rw [ha] at h ⊢
  · cases h
  · cases h
  · exact ⟨c, rfl⟩

end Seated

namespace Hazard.Crowd

variable {x : Crowd α} {i c k : Nat} {mv : Move α} {call : Call α}

/-- The record that thread `i` is giving back. -/
def returns? (x : Crowd α) (i : Nat) : Option Place := (x.point i).bind Point.site?

/-- Thread `i` begins to give the record back with its next step, which clears the address. -/
def Clears (x : Crowd α) (i : Nat) (place : Place) : Prop :=
  x.returns? i = some place ∧ x.stores? i = some (place, .null)

/-- Something keeps the claim `c` of thread `i`. -/
def Keeps (x : Crowd α) (i c : Nat) : Prop := x.HasSlot i c ∨ (x.me i).isPinned c

namespace Orderly

theorem isLive_iff_keeps (o : x.Orderly) : (x.me i).isLive c ↔ x.Keeps i c := by
  have counts := (o.seated i).counts
  constructor
  · intro h
    by_cases hand : (x.point i).bind Point.hand? = some c
    · exact .inl (.inr (.inr hand))
    · have uses : (x.me i).uses c ≠ 0 := by
        have refs := counts.refs c
        rw [if_neg hand, Nat.add_zero] at refs
        exact refs ▸ Thread.isLive_iff.mp h
      by_cases slot : (x.me i).slots.count c = 0
      · by_cases lent : (x.me i).lent.count c = 0
        · exact .inr (Thread.isPinned_iff.mpr (by unfold Thread.uses at uses; omega))
        · exact .inl (.inr (.inl (List.count_pos_iff.mp (Nat.pos_of_ne_zero lent))))
      · obtain ⟨⟨name, d⟩, he, hd⟩ := List.countP_pos_iff.mp (Nat.pos_of_ne_zero slot)
        obtain rfl : d = c := by simpa using hd
        exact .inl (.inl ⟨name, he⟩)
  · rintro (h | h)
    · exact o.isLive_of_hasSlot h
    · have pins := Thread.isPinned_iff.mp h
      exact counts.isLive_of_uses (by unfold Thread.uses; omega)

/-- A thread owns the records of the claims that are kept, and the one that it is giving back. -/
theorem owner_iff (o : x.Orderly) : (∃ r, x.memory.tables.record? place = some r ∧ r.owner = i + 1) ↔
    (∃ c, x.Keeps i c ∧ (x.me i).place? c = some place) ∨ x.returns? i = some place := by
  have owns := (o.seated i).owns
  have token := o.token i
  constructor
  · rintro ⟨r, hr, owner⟩
    obtain h | ⟨c, hc, hp⟩ := owns.owner place r hr (owner.trans token.symm)
    · exact .inr h
    · exact .inl ⟨c, o.isLive_iff_keeps.mp hc, hp⟩
  · rintro (⟨c, hc, hp⟩ | h)
    · obtain ⟨r, hr, owner⟩ := owns.claimed c place (o.isLive_iff_keeps.mpr hc) hp
      exact ⟨r, hr, owner.trans token⟩
    · obtain ⟨⟨r, hr, owner⟩, -⟩ := owns.returned place h
      exact ⟨r, hr, owner.trans token⟩

theorem returned (o : x.Orderly) (h : x.returns? i = some place) (hc : x.Keeps i c) :
    (x.me i).place? c ≠ some place :=
  ((o.seated i).owns.returned place h).2 c (o.isLive_iff_keeps.mpr hc)

/-- A kept claim has been kept before, unless its record was free. -/
theorem keeps_of_move (o : x.Orderly) {r : Record} (h : (x.move mv).Keeps i c)
    (hp : ((x.move mv).me i).place? c = some place) (hr : x.memory.tables.record? place = some r)
    (owned : r.owner ≠ 0) : x.Keeps i c ∧ (x.me i).place? c = some place := by
  have live := (o.move mv).isLive_iff_keeps.mpr h
  obtain same | ⟨rfl, call, p, hb, hme⟩ := x.me_move i mv
  · rw [same] at live hp
    exact ⟨o.isLive_iff_keeps.mp live, hp⟩
  · rw [hme] at live hp
    have tenure := Operation.tenure_step (o.seated_of_busy hb)
    obtain live | ⟨t, purpose, k, rfl, -, hk, done⟩ := tenure.live_cases live
    · obtain ⟨place', hp'⟩ := Thread.exists_place live
      obtain rfl := Option.some.inj ((tenure.places hp').symm.trans hp)
      exact ⟨o.isLive_iff_keeps.mp live, hp'⟩
    · obtain rfl := Option.some.inj (hk.symm.trans hp)
      obtain ⟨r', hr', free⟩ := Acquire.free_of_done done
      exact absurd free (Option.some.inj (hr.symm.trans hr') ▸ owned)

/-- A record is given back by the step with which the last keeper of its claim goes. -/
theorem clears_of_lost (o : x.Orderly) (kept : x.Keeps i c) (hp : (x.me i).place? c = some place)
    (lost : ¬(x.move mv).Keeps i c) : mv = .step i ∧ (x.move mv).Clears i place := by
  have o' := o.move mv
  obtain same | ⟨rfl, call, p, hb, -⟩ := x.me_move i mv
  · refine absurd (o'.isLive_iff_keeps.mp ?_) lost
    rw [same]
    exact o.isLive_iff_keeps.mpr kept
  obtain ⟨r, hr, owner⟩ := o.owner_iff.mpr (.inl ⟨c, kept, hp⟩)
  have still : ∃ r, (x.move (.step i)).memory.tables.record? place = some r ∧ r.owner = i + 1 := by
    obtain ⟨r', hr', changes⟩ := record_move o (.step i) hr
    refine ⟨r', hr', ?_⟩
    cases changes with
    | same | store => exact owner
    | disown j move h =>
      cases move
      obtain ⟨p, hp', h⟩ := Option.bind_eq_some_iff.mp h
      have site : x.returns? i = some place := by rw [returns?, hp']; exact Point.site?_of_disown? h
      exact absurd hp (o.returned site kept)
    | seize j _ _ free => omega
  refine ⟨rfl, ?_⟩
  obtain ⟨d, kept', hp'⟩ | site := o'.owner_iff.mp still
  · -- A claim with the same record can only be the same claim.
    obtain ⟨before, hd⟩ := o.keeps_of_move kept' hp' hr (by omega)
    obtain rfl := (o.seated i).owns.distinct d c place (o.isLive_iff_keeps.mpr before)
      (o.isLive_iff_keeps.mpr kept) hd hp
    exact absurd kept' lost
  · refine ⟨site, ?_⟩
    obtain ⟨q, hq, hs⟩ := Option.bind_eq_some_iff.mp site
    rw [stores?, hq]
    obtain ⟨clears, -⟩ | disowns := Point.clears_or_disowns x.memory _ hs
    · exact clears
    exfalso
    -- It is not the owner that goes first.
    have moves := x.moves (.step i)
    generalize x.move (.step i) = y at moves lost hq
    cases moves with
    | stay => exact lost kept
    | step i call p busy =>
      simp only [point_set_self, Option.map_map] at hq
      replace hq : (Operation.step (x.memory, x.me i) p).next.point? = some q := by simpa using hq
      obtain ⟨before, -⟩ := (Operation.leads_of_point? hq).cleared_of_disown? disowns
      have site : x.returns? i = some place := by rw [returns?, point_of_busy busy]; exact before
      exact o.returned site kept hp

theorem disowns_of_clears (o : x.Orderly) (h : x.Clears i place) :
    (x.move (.step i)).disowns? i = some place ∧ ∃ r,
      (x.move (.step i)).memory.tables.record? place = some r ∧ r.owner = i + 1 ∧ r.published = .null := by
  obtain ⟨site, store⟩ := h
  obtain ⟨r, hr, owner⟩ := o.owner_iff.mpr (.inr site)
  obtain ⟨p, hp, hs⟩ := Option.bind_eq_some_iff.mp site
  obtain ⟨call, hb⟩ := exists_busy hp
  rw [stores?, hp] at store
  obtain ⟨-, q, hq, disowns⟩ | disowns := Point.clears_or_disowns x.memory (x.me i) hs
  case inr => cases (Point.store?_of_disown? disowns).symm.trans store
  obtain ⟨r', hr', alters⟩ := (Operation.stores_step x.memory (x.me i) p).alters hr
  rw [move_step hb fun f hf => by rw [hq] at hf; cases hf]
  refine ⟨by simp [disowns?, hq, Next.point?, disowns], r', hr', ?_⟩
  cases alters with
  | same h => exact absurd store (h _)
  | store b h =>
    obtain ⟨-, rfl⟩ := Prod.mk.inj (Option.some.inj (h.symm.trans store))
    exact ⟨owner, rfl⟩
  | disown h => cases (Point.store?_of_disown? h).symm.trans store
  | seize h => cases (Point.store?_of_claiming? h).symm.trans store

theorem vacant_of_disowns (o : x.Orderly) (clean : x.Clean) (h : x.disowns? i = some place) :
    (x.move (.step i)).memory.tables.record? place = some ⟨0, .null⟩ := by
  obtain ⟨p, hp, disowns⟩ := Option.bind_eq_some_iff.mp h
  obtain ⟨call, hb⟩ := exists_busy hp
  have site : x.returns? i = some place := by rw [returns?, hp]; exact Point.site?_of_disown? disowns
  obtain ⟨r, hr, -⟩ := o.owner_iff.mpr (.inr site)
  have null := clean.leaving i place r h hr
  obtain ⟨r', hr', alters⟩ := (Operation.stores_step x.memory (x.me i) p).alters hr
  rw [move_step hb (Operation.unfaulting_disown disowns)]
  refine hr'.trans (congrArg some ?_)
  cases alters with
  | same _ h => exact absurd disowns h
  | store b h => cases (Point.store?_of_disown? disowns).symm.trans h
  | disown => rw [← null]
  | seize h => cases (Point.disown?_of_claiming? h).symm.trans disowns

/-- A pin is set by the end of an acquisition that asks for it. -/
theorem pinned_by (o : x.Orderly) (loose : ¬(x.me i).isPinned c) (h : ((x.move mv).me i).isPinned c) :
    mv = .step i ∧ ∃ call t purpose a k, x.busy i = some (call, .acquire t purpose a) ∧ purpose.pins ∧
      (Point.acquire t purpose a : Point α).verdict? t x.memory (x.me i) = some (.ok k) ∧
      ((x.move mv).me i).place? c = some ⟨t, k⟩ := by
  obtain same | ⟨rfl, call, p, hb, hme⟩ := x.me_move i mv
  · exact absurd (same ▸ h) loose
  · have s := o.seated_of_busy hb
    rw [hme] at h ⊢
    refine ⟨rfl, call, ?_⟩
    cases Operation.tenure_step s with
    | keeps _ _ pins => exact absurd ((pins c).mp h) loose
    | found t purpose d point done _ _ pins =>
      subst point
      obtain ⟨hpins, rfl⟩ := ((pins c).mp h).resolve_left loose
      obtain ⟨k, verdict, hk⟩ := s.verdict?_of_done (o.token_ne_zero i) done
      exact ⟨t, purpose, _, k, hb, hpins, verdict, hk⟩
    | made t purpose j point done _ _ pins =>
      subst point
      obtain ⟨hpins, rfl⟩ := ((pins c).mp h).resolve_left loose
      obtain ⟨k, verdict, hk⟩ := s.verdict?_of_done (o.token_ne_zero i) done
      exact ⟨t, purpose, _, k, hb, hpins, verdict, hk⟩
    | pruned _ _ _ _ _ _ _ _ _ _ pins => exact absurd ((pins c).mp h).1 loose
    | exits _ _ _ pins => exact absurd (pins c h) loose

/-- Such an acquisition always sets a pin. -/
theorem pins (o : x.Orderly) (hb : x.busy i = some (call, .acquire t purpose a)) (hpins : purpose.pins)
    (h : (Point.acquire t purpose a : Point α).verdict? t x.memory (x.me i) = some (.ok k)) :
    ∃ c, ((x.move (.step i)).me i).isPinned c ∧ ((x.move (.step i)).me i).place? c = some ⟨t, k⟩ := by
  have s := o.seated_of_busy hb
  obtain ⟨c, done⟩ := Seated.done_of_verdict? h
  obtain ⟨k', h', hk⟩ := s.verdict?_of_done (o.token_ne_zero i) done
  obtain rfl : k' = k := by cases h'.symm.trans h; rfl
  rw [move_step hb (Operation.unfaulting_acquire _ _ _ _ _), me_set_self]
  refine ⟨c, ?_, hk⟩
  obtain ⟨ts, me', b, notes, ha, -⟩ | ⟨ts, me', e, notes, ha, -⟩ | ⟨ts, me', d, notes, ha, hs, -⟩ :=
    Operation.acquire_cases x.memory (x.me i) t purpose a
  · rw [ha] at done
    cases done
  · rw [ha] at done
    cases done
  · rw [hpins] at ha done
    have pinned := Acquire.isPinned_of_done s.counts done
    rw [ha] at pinned
    rw [hs, Thread.isPinned, (Operation.claims_acquired _ me' d purpose).2]
    exact pinned

/-- A pin goes in the exit of its thread, or when that looks for a new claim and the table of the pinned
one has no handles. -/
theorem unpinned_by (o : x.Orderly) (h : (x.me i).isPinned c) (loose : ¬((x.move mv).me i).isPinned c) :
    mv = .step i ∧ (x.point i = some .exit ∨
      ∃ t purpose j place, x.point i = some (.acquire t purpose (.prune j)) ∧ (x.me i).Lacks t ∧
        (x.me i).place? c = some place ∧ x.memory.tables.hasHandles place.table = false) := by
  obtain same | ⟨rfl, call, p, hb, hme⟩ := x.me_move i mv
  · exact absurd (same ▸ h) loose
  · have s := o.seated_of_busy hb
    have tenure := Operation.tenure_step s
    rw [hme] at loose
    rw [point_of_busy hb]
    refine ⟨rfl, ?_⟩
    cases tenure with
    | keeps _ _ pins => exact absurd ((pins c).mpr h) loose
    | found _ _ _ _ _ _ _ pins => exact absurd ((pins c).mpr (.inl h)) loose
    | made _ _ _ _ _ _ _ pins => exact absurd ((pins c).mpr (.inl h)) loose
    | pruned t purpose j d place point hp handles _ _ pins =>
      subst point
      obtain rfl : c = d := by
        by_contra hcd
        exact loose ((pins c).mpr ⟨h, hcd⟩)
      exact .inr ⟨t, purpose, j, place, rfl, s.fitting _ rfl, hp, handles⟩
    | exits point => exact .inl (congrArg some point)

/-- Nothing is kept by a thread that has exited. -/
theorem none_kept_of_exit (o : x.Orderly) (hb : x.busy i = some (call, .exit))
    (idle : (x.move (.step i)).busy i = none) (c : Nat) : ¬(x.move (.step i)).Keeps i c := by
  have s := o.seated_of_busy hb
  have moves := x.moves (.step i)
  generalize x.move (.step i) = y at moves idle
  cases moves with
  | stay => cases hb.symm.trans idle
  | step i call' p busy =>
    obtain ⟨rfl, rfl⟩ := Prod.mk.inj (Option.some.inj (hb.symm.trans busy))
    have ended : (Operation.exit x.memory (x.me i)).next.point? = none := by
      simpa [Crowd.set, Operation.step] using idle
    obtain ⟨slots, cache, lent⟩ := Operation.exit_over ended
    have lent := lent.trans (s.fitting _ rfl)
    rintro ((⟨name, h⟩ | h | h) | h)
    · simp [Operation.step, slots] at h
    · simp [Operation.step, lent] at h
    · simp [Operation.step, ended] at h
    · simp [Operation.step, Thread.isPinned, cache] at h

/-- The records of a table that are owned are those of the claims that are kept there. -/
theorem encard_keeps (o : x.Orderly) (settled : ∀ i, x.returns? i = none) (t : Nat) :
    {ic : Nat × Nat | x.Keeps ic.1 ic.2 ∧ ∃ k, (x.me ic.1).place? ic.2 = some ⟨t, k⟩}.encard =
      (x.memory.table t).claimed := by
  have owned (i k : Nat) : (∃ r, x.memory.tables.record? ⟨t, k⟩ = some r ∧ r.owner = i + 1) ↔
      ∃ c, x.Keeps i c ∧ (x.me i).place? c = some ⟨t, k⟩ := by
    rw [o.owner_iff, settled i]
    simp
  let index (ic : Nat × Nat) : Nat := (((x.me ic.1).place? ic.2).map Place.index).getD 0
  have index_eq {i c k : Nat} (h : (x.me i).place? c = some ⟨t, k⟩) : index (i, c) = k := by simp [index, h]
  have apart : Set.InjOn index
      {ic : Nat × Nat | x.Keeps ic.1 ic.2 ∧ ∃ k, (x.me ic.1).place? ic.2 = some ⟨t, k⟩} := by
    rintro ⟨i, c⟩ ⟨hc, k, hp⟩ ⟨j, d⟩ ⟨hd, l, hq⟩ he
    rw [index_eq hp, index_eq hq] at he
    subst he
    obtain ⟨r, hr, owner⟩ := (owned i k).mpr ⟨c, hc, hp⟩
    obtain ⟨r', hr', owner'⟩ := (owned j k).mpr ⟨d, hd, hq⟩
    obtain rfl := Option.some.inj (hr.symm.trans hr')
    obtain rfl : i = j := by omega
    obtain rfl := (o.seated i).owns.distinct c d _ (o.isLive_iff_keeps.mpr hc) (o.isLive_iff_keeps.mpr hd) hp hq
    rfl
  have image : index '' {ic : Nat × Nat | x.Keeps ic.1 ic.2 ∧ ∃ k, (x.me ic.1).place? ic.2 = some ⟨t, k⟩} =
      x.memory.occupied t := by
    ext k
    rw [Set.mem_image, Finset.mem_coe, Memory.mem_occupied]
    constructor
    · rintro ⟨⟨i, c⟩, ⟨hc, l, hp⟩, rfl⟩
      obtain ⟨r, hr, owner⟩ := (owned i l).mpr ⟨c, hc, hp⟩
      exact ⟨r, by rw [index_eq hp]; exact hr, by omega⟩
    · rintro ⟨r, hr, h0⟩
      obtain ⟨i, hi⟩ := Nat.exists_eq_succ_of_ne_zero h0
      obtain ⟨c, hc, hp⟩ := (owned i k).mp ⟨r, hr, hi⟩
      exact ⟨(i, c), ⟨hc, k, hp⟩, index_eq hp⟩
  rw [← apart.encard_image, image, Set.encard_coe_eq_coe_finsetCard, Memory.card_occupied]

end Orderly

end Hazard.Crowd

end LockFreeStack
