import LockFreeStack.Proofs.Slot.Obtain

/-!
A cache that has been pruned, and the acquisitions that come later. They come to what they would have come
to without the pruning, and afterwards it is the only difference still.
-/

namespace LockFreeStack

variable {α : Type} {ts ts₁ ts₂ ts' : Tables} {tb : Table} {me me₁ me₂ me' : Thread} {table c k n : Nat}
  {pin : Bool} {place : Place} {e : Cached} {xs done rest : List Cached} {q : List (Note α)}
  {r : Except Trouble Nat}

namespace Thread

/-- The tables of the live entries of the cache. -/
def liveTables (me : Thread) : List (Option Nat) :=
  (me.cache.filter fun e => me.isLive e.claim).map fun e => (me.place? e.claim).map Place.table

/-- All entries of the cache are live. -/
def AllLive (me : Thread) : Prop := ∀ e ∈ me.cache, me.isLive e.claim

/-- All pins of the cache are on tables that somebody has a handle to. -/
def PinsHeld (ts : Tables) (me : Thread) : Prop :=
  ∀ e ∈ me.cache, e.pinned → ∀ place, me.place? e.claim = some place → ts.hasHandles place.table

/-- No pin on a table that somebody has a handle to goes. -/
theorem orphans_of_hasHandles (hp : me.place? e.claim = some place) (held : ts.hasHandles place.table) :
    me.orphans ts e = false := by
  simp [orphans, hp, held]

theorem countP_orphans_of_hasHandles (hp : me.place? c = some place) (held : ts.hasHandles place.table) :
    me.cache.countP (fun e => e.claim = c ∧ me.orphans ts e) = 0 := by
  refine List.countP_eq_zero.mpr fun e _ => ?_
  by_cases hec : e.claim = c
  · simp [orphans_of_hasHandles (hec ▸ hp) held]
  · simp [hec]

namespace Pruned

variable (p : me.Pruned ts [] me.cache [] ts₁ me₁)

include p

/-- The entries that are left. -/
theorem mem_cache : e ∈ me₁.cache ↔ (∃ f ∈ me.cache, me.unpinned ts f = e) ∧ me₁.isLive e.claim := by
  simp [p.cache]

theorem allLive : me₁.AllLive := fun _ he => (p.mem_cache.mp he).2

theorem pinsHeld : me₁.PinsHeld ts₁ := by
  intro e he pinned place hplace
  obtain ⟨⟨f, -, rfl⟩, -⟩ := p.mem_cache.mp he
  rw [p.places] at hplace
  have hplace : me.place? f.claim = some place := hplace
  obtain ⟨hp, kept⟩ : f.pinned ∧ me.orphans ts f = false := by simpa [unpinned] using pinned
  rw [Tables.hasHandles_congr p.handles]
  simpa [orphans, hp, hplace] using kept

/-- A pin that is taken away was one reference to the claim. -/
theorem refs_of_orphans (k : me.Counts none) (he : e ∈ me.cache) (h : me.orphans ts e) :
    me₁.refs e.claim = me.slots.count e.claim + me.lent.count e.claim := by
  have pinned : e.pinned := (Bool.and_eq_true_iff.mp h).1
  have one : me.pins e.claim = 1 :=
    le_antisymm (pins_le_one k.nodup _) (List.countP_pos_iff.mpr ⟨e, he, by simp [pinned]⟩)
  have gone : me.cache.countP (fun f => f.claim = e.claim ∧ me.orphans ts f) = 1 := by
    refine le_antisymm (one ▸ List.countP_mono_left fun f _ hf => ?_)
      (List.countP_pos_iff.mpr ⟨e, he, by simp [h]⟩)
    obtain ⟨hc, ho⟩ : f.claim = e.claim ∧ me.orphans ts f := by simpa using hf
    simpa using ⟨hc, (Bool.and_eq_true_iff.mp ho).1⟩
  have refs := k.refs e.claim
  rw [uses, one] at refs
  rw [p.refs, gone, refs]
  simp

/-- No entry comes in and no pin. -/
theorem sublist : (me₁.cache.map Cached.claim).Sublist (me.cache.map Cached.claim) := by
  have claims : (me.cache.map (me.unpinned ts)).map Cached.claim = me.cache.map Cached.claim := by
    rw [List.map_map]
    rfl
  rw [p.cache, List.nil_append, List.append_nil, ← claims]
  exact List.filter_sublist.map _

theorem isPinned_of_isPinned (h : me₁.isPinned c) : me.isPinned c := by
  obtain ⟨e, he, hc⟩ := List.any_eq_true.mp h
  obtain ⟨⟨f, hf, rfl⟩, -⟩ := p.mem_cache.mp he
  obtain ⟨hfc, pinned⟩ : f.claim = c ∧ (me.unpinned ts f).pinned := by simpa using hc
  have hp : f.pinned := (Bool.and_eq_true_iff.mp pinned).1
  exact List.any_eq_true.mpr ⟨f, hf, by simp [hfc, hp]⟩

/-- A table that somebody has a handle to is left alone. -/
theorem getElem?_of_hasHandles (held : ts.hasHandles table) : ts₁[table]? = ts[table]? := by
  refine Tables.getElem?_of_records p.handles fun j => (p.records ⟨table, j⟩).trans (if_neg ?_)
  rintro ⟨e, he, orphan, -, hplace⟩
  simp [orphans, hplace, held] at orphan

/-- So are the references to a claim on such a table. -/
theorem refs_of_hasHandles (hp : me.place? c = some place) (held : ts.hasHandles place.table) :
    me₁.refs c = me.refs c := by
  rw [p.refs, countP_orphans_of_hasHandles hp held, Nat.sub_zero]

/-- And so is its pin. -/
theorem isPinned_of_hasHandles (live : me.isLive c) (hp : me.place? c = some place)
    (held : ts.hasHandles place.table) : me₁.isPinned c = me.isPinned c := by
  have live₁ : me₁.isLive c := by rwa [isLive, p.refs_of_hasHandles hp held]
  refine Bool.eq_iff_iff.mpr ⟨p.isPinned_of_isPinned, fun h => ?_⟩
  obtain ⟨e, he, hc⟩ := List.any_eq_true.mp h
  obtain ⟨rfl, hpin⟩ : e.claim = c ∧ e.pinned := by simpa using hc
  have kept : (me.unpinned ts e).pinned := by simp [unpinned, hpin, orphans_of_hasHandles hp held]
  exact List.any_eq_true.mpr ⟨_, p.mem_cache.mpr ⟨⟨e, he, rfl⟩, live₁⟩, by simp [kept]⟩

end Pruned

/-- A thread is told by its claims, its cache and its slots. -/
theorem eq_of_claims (token : me₂.token = me₁.token) (slots : me₂.slots = me₁.slots) (lent : me₂.lent = me₁.lent)
    (size : me₂.claims.size = me₁.claims.size) (places : ∀ c, me₂.place? c = me₁.place? c)
    (refs : ∀ c, me₂.refs c = me₁.refs c) (cache : me₂.cache = me₁.cache) : me₂ = me₁ := by
  have claims : me₂.claims = me₁.claims := by
    refine Array.ext size fun j h₂ h₁ => ?_
    have hp := places j
    have hr := refs j
    simp only [place?, Thread.refs, Array.getElem?_eq_getElem h₂, Array.getElem?_eq_getElem h₁, Option.map_some,
      Option.some.injEq, Option.getD_some] at hp hr
    cases h : me₂.claims[j]
    cases h' : me₁.claims[j]
    simp_all
  cases me₁
  cases me₂
  simp_all

/-- There is one way to prune a cache. -/
theorem Pruned.unique (p : me.Pruned ts done xs rest ts₁ me₁) (p' : me.Pruned ts done xs rest ts₂ me₂) :
    ts₂ = ts₁ ∧ me₂ = me₁ := by
  have refs (c : Nat) : me₂.refs c = me₁.refs c := (p'.refs c).trans (p.refs c).symm
  have live : me₂.isLive = me₁.isLive := funext fun c => by rw [isLive, isLive, refs]
  have handles : ts₂.map Table.handles = ts₁.map Table.handles := p'.handles.trans p.handles.symm
  refine ⟨Array.ext_getElem? fun t => Tables.getElem?_of_records handles fun k => ?_, ?_⟩
  · rw [p'.records, p.records, live]
  · exact eq_of_claims (p'.token.trans p.token.symm) (p'.slots.trans p.slots.symm) (p'.lent.trans p.lent.symm)
      (p'.size.trans p.size.symm) (fun c => (p'.places c).trans (p.places c).symm) refs
      (by rw [p'.cache, p.cache, live])

/-- There is nothing to prune where all entries are live and all pins on tables with handles. -/
theorem Pruned.of_held (live : me.AllLive) (held : me.PinsHeld ts) : me.Pruned ts [] me.cache [] ts me := by
  have kept (e : Cached) (he : e ∈ me.cache) : me.orphans ts e = false := by
    cases hp : e.pinned with
    | false => simp [orphans, hp]
    | true =>
      cases hplace : me.place? e.claim with
      | none => simp [orphans, hplace]
      | some place => simp [orphans, hplace, held e he hp place hplace]
  have same : me.cache.map (me.unpinned ts) = me.cache :=
    (List.map_congr_left fun e he => by simp [unpinned, kept e he]).trans (List.map_id _)
  refine ⟨rfl, rfl, rfl, rfl, fun _ => rfl, fun c => ?_, ?_, rfl, fun place => ?_⟩
  · rw [List.countP_eq_zero.mpr fun e he => by simp [kept e he], Nat.sub_zero]
  · rw [same, List.filter_eq_self.mpr live]
    simp
  · rw [if_neg]
    rintro ⟨e, he, orphan, -⟩
    simp [kept e he] at orphan

/-- The entry with a pin, if it is of the claim `c` and that is to be pinned. -/
def pinnedAt (c : Nat) (pin : Bool) (e : Cached) : Cached :=
  if pin ∧ e.claim = c then { e with pinned := true } else e

@[simp] theorem claim_pinnedAt (c : Nat) (pin : Bool) (e : Cached) : (pinnedAt c pin e).claim = e.claim := by
  unfold pinnedAt
  split <;> rfl

theorem Reused.map_cache (u : me.Reused c pin me') : me'.cache = me.cache.map (pinnedAt c pin) := by
  rw [u.cache]
  cases pin with
  | false => exact (List.map_id _).symm.trans (List.map_congr_left fun e _ => by simp [pinnedAt])
  | true => simp [pinnedAt]

/-- One more reference to a claim on a table with handles, and pruning is the only difference still. -/
theorem Pruned.reused (p : me.Pruned ts [] me.cache [] ts₁ me₁) (live : me.isLive c)
    (hp : me.place? c = some place) (held : ts.hasHandles place.table) (u : me.Reused c pin me')
    (u₁ : me₁.Reused c pin me₂) : me'.Pruned ts [] me'.cache [] ts₁ me₂ := by
  have live₁ : me₁.isLive c := by rwa [isLive, p.refs_of_hasHandles hp held]
  have kept {e : Cached} (hec : e.claim = c) : me.orphans ts e = false := orphans_of_hasHandles (hec ▸ hp) held
  have same (e : Cached) : me'.orphans ts e = me.orphans ts e := orphans_congr u.places rfl e
  have orphans (e : Cached) : me'.orphans ts (pinnedAt c pin e) = me.orphans ts e := by
    rw [same]
    by_cases hec : e.claim = c
    · rw [kept hec, kept ((claim_pinnedAt c pin e).trans hec)]
    · simp [pinnedAt, hec]
  have unpinned (e : Cached) : me'.unpinned ts (pinnedAt c pin e) = pinnedAt c pin (me.unpinned ts e) := by
    by_cases hec : pin ∧ e.claim = c
    · simp [Thread.unpinned, same, pinnedAt, hec, kept (e := ⟨c, true⟩) rfl]
    · simp [Thread.unpinned, same, pinnedAt, hec]
  have isLive (d : Nat) : me₂.isLive d = me₁.isLive d := by
    by_cases hd : d = c
    · rw [hd, live₁]
      exact (isLive_iff ..).mpr (by rw [u₁.refs, if_pos rfl]; split <;> omega)
    · simp [Thread.isLive, u₁.refs, hd]
  refine ⟨u₁.token.trans (p.token.trans u.token.symm), u₁.slots.trans (p.slots.trans u.slots.symm),
    u₁.lent.trans (p.lent.trans u.lent.symm), u₁.size.trans (p.size.trans u.size.symm),
    fun d => (u₁.places d).trans ((p.places d).trans (u.places d).symm), fun d => ?_, ?_, p.handles, fun q => ?_⟩
  · rw [u₁.refs, u.refs, p.refs, p.isPinned_of_hasHandles live hp held, u.map_cache, List.countP_map]
    simp only [Function.comp_def, claim_pinnedAt, orphans]
    by_cases hd : d = c
    · rw [hd, countP_orphans_of_hasHandles hp held, Nat.sub_zero, Nat.sub_zero]
    · simp only [hd, if_false, Nat.add_zero]
  · have maps : (me.cache.map (pinnedAt c pin)).map (me'.unpinned ts) =
        (me.cache.map (me.unpinned ts)).map (pinnedAt c pin) := by
      simp only [List.map_map, Function.comp_def, unpinned]
    rw [u₁.map_cache, p.cache, u.map_cache, maps]
    simp only [List.nil_append, List.append_nil, List.filter_map, Function.comp_def, claim_pinnedAt, isLive,
      claim_unpinned]
  · rw [p.records, u.map_cache]
    simp only [List.mem_map, exists_exists_and_eq_and, orphans, claim_pinnedAt, isLive, u.places]

theorem mem_obtain : e ∈ (me.obtain place pin).cache ↔ e ∈ me.cache ∨ e = ⟨me.claims.size, pin⟩ := by
  simp [obtain]

theorem AllLive.obtain (h : me.AllLive) : (me.obtain place pin).AllLive := fun e he => by
  rw [isLive_obtain]
  obtain he | rfl := mem_obtain.mp he
  · exact .inl (h e he)
  · exact .inr rfl

theorem PinsHeld.obtain (h : me.PinsHeld ts) (k : me.Counts none) (handles : ts.hasHandles place.table)
    (n : Nat) : (me.obtain place pin).PinsHeld (ts.setOwner place n) := by
  intro e he pinned q hq
  rw [Tables.hasHandles_congr (Tables.handles_setOwner ..)]
  rw [place?_obtain] at hq
  obtain he | rfl := mem_obtain.mp he
  · rw [if_neg (Nat.ne_of_lt (k.known e he))] at hq
    exact h e he pinned q hq
  · rw [if_pos rfl] at hq
    exact Option.some.inj hq ▸ handles

end Thread

namespace Tables

theorem exists_of_hasHandles (h : ts.hasHandles table) : ∃ tb, ts[table]? = some tb := by
  cases ht : ts[table]? with
  | none => simp [hasHandles, ht] at h
  | some tb => exact ⟨tb, rfl⟩

theorem vacant_congr (h : ts'[table]? = ts[table]?) (k : Nat) : ts'.Vacant ⟨table, k⟩ ↔ ts.Vacant ⟨table, k⟩ := by
  simp only [Vacant, record?, h]

end Tables

namespace Acquire

/-- After a pruning an acquisition on a table with handles comes to the same answer as without it. -/
theorem runs_later (pin : Bool) (p : me.Pruned ts [] me.cache [] ts₁ me₁) (s : Sound table ts me .lookup)
    (s₁ : Sound table ts₁ me₁ .lookup) (h0 : me.token ≠ 0) (held : ts.hasHandles table)
    (one : ∀ c d p q, me.isLive c → me.isLive d → me.place? c = some p → me.place? d = some q →
      p.table = q.table → c = d)
    (h : Runs (α := α) (step table pin) (ts, me) .lookup n q (ts', me') (.done r)) :
    ∃ n₁ ts₁' me₁', Runs (α := α) (step table pin) (ts₁, me₁) .lookup n₁ [] (ts₁', me₁') (.done r) ∧
      me'.Pruned ts' [] me'.cache [] ts₁' me₁' := by
  have live {d : Nat} (hd : me₁.isLive d) : me.isLive d := by
    rw [Thread.isLive_iff, p.refs] at hd
    exact (Thread.isLive_iff ..).mpr (by omega)
  cases hc : me.claimOn? table with
  | some c =>
    obtain ⟨hl, place, hp, rfl⟩ := Thread.claimOn?_eq_some hc
    obtain ⟨me₂, run, reused⟩ := runs_reuse (α := α) pin s hl hp rfl fun d q hd hq hqt =>
      one d c q place hd hl hq hp hqt
    obtain ⟨-, -, same, rfl⟩ := h.unique run
    obtain ⟨rfl, rfl⟩ := Prod.mk.inj same
    have hl₁ : me₁.isLive c := by rwa [Thread.isLive, p.refs_of_hasHandles hp held]
    obtain ⟨me₃, run₁, reused₁⟩ := runs_reuse (α := α) pin s₁ hl₁ ((p.places c).trans hp) rfl fun d q hd hq hqt =>
      one d c q place (live hd) hl ((p.places d).symm.trans hq) hp hqt
    exact ⟨1, ts₁, me₃, run₁, p.reused hl hp held reused reused₁⟩
  | none =>
    have lacks := Thread.lacks_of_claimOn? s.counts hc
    obtain ⟨tb, ht⟩ := Tables.exists_of_hasHandles held
    have table₁ := p.getElem?_of_hasHandles held
    have held₁ : ts₁.hasHandles table := (Tables.hasHandles_congr p.handles table).trans held
    obtain ⟨ts₂, me₂, p₂, -, seize, full⟩ := runs_obtain (α := α) pin s h0 ht lacks
    obtain ⟨rfl, rfl⟩ := p.unique p₂
    obtain ⟨ts₃, me₃, p₃, -, seize₁, full₁⟩ :=
      runs_obtain (α := α) pin s₁ (p.token.symm ▸ h0) (table₁.trans ht) (lacks.mono (fun _ => live) p.places)
    -- There is nothing left to prune.
    obtain ⟨rfl, rfl⟩ := (Thread.Pruned.of_held p.allLive p.pinsHeld).unique p₃
    obtain ⟨k, first⟩ | none := Tables.firstVacant_or_none ts table
    · obtain ⟨m, -, run⟩ := seize k first
      obtain ⟨-, -, same, rfl⟩ := h.unique run
      obtain ⟨rfl, rfl⟩ := Prod.mk.inj same
      obtain ⟨m₁, -, run₁⟩ := seize₁ k
        ⟨(Tables.vacant_congr table₁ k).mpr first.vacant, fun j hj h => first.taken j hj
          ((Tables.vacant_congr table₁ j).mp h)⟩
      rw [p.token, p.size] at run₁
      exact ⟨m₁, _, _, run₁, .of_held p.allLive.obtain (p.pinsHeld.obtain s₁.counts held₁ _)⟩
    · obtain ⟨m, -, run⟩ := full none
      obtain ⟨-, -, same, rfl⟩ := h.unique run
      obtain ⟨rfl, rfl⟩ := Prod.mk.inj same
      obtain ⟨m₁, -, run₁⟩ := full₁ fun k h => none k ((Tables.vacant_congr table₁ k).mp h)
      exact ⟨m₁, _, _, run₁, .of_held p.allLive p.pinsHeld⟩

end Acquire

end LockFreeStack
