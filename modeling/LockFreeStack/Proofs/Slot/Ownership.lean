import LockFreeStack.Proofs.Slot.References
import LockFreeStack.Slot.Release

/-!
The records that a thread owns. They are those of its live claims and, while a record is given back,
that one. Other threads leave them alone.
-/

namespace LockFreeStack

variable {ts ts' : Tables} {me me' : Thread} {site : Option Place} {place : Place} {r : Record}
  {token : Nat} {c : Nat} {a : Address}

/-- Every record of another owner stays as it is, and nobody else comes to own one. -/
def Tables.Leaves (ts ts' : Tables) (token : Nat) : Prop :=
  ∀ place r, r.owner ≠ 0 → r.owner ≠ token → (ts'.record? place = some r ↔ ts.record? place = some r)

namespace Tables.Leaves

theorem refl (ts : Tables) (token : Nat) : ts.Leaves ts token := fun _ _ _ _ => Iff.rfl

theorem trans {ts'' : Tables} (h : ts.Leaves ts' token) (h' : ts'.Leaves ts'' token) :
    ts.Leaves ts'' token :=
  fun place r h0 ht => (h' place r h0 ht).trans (h place r h0 ht)

theorem publish (h : ts.record? place = some r) (hr : r.owner = token) (a : Address) :
    ts.Leaves (ts.publish place a) token := by
  intro q r' h0 ht
  rw [record?_publish]
  by_cases hq : q = place
  · subst hq
    simp only [↓reduceIte, h, Option.map_some, Option.some.injEq]
    constructor
    · rintro rfl
      exact absurd hr ht
    · rintro rfl
      exact absurd hr ht
  · rw [if_neg hq]

theorem setOwner (h : ts.record? place = some r) (hr : r.owner = token ∨ r.owner = 0) {n : Nat}
    (hn : n = token ∨ n = 0) : ts.Leaves (ts.setOwner place n) token := by
  intro q r' h0 ht
  rw [record?_setOwner]
  by_cases hq : q = place
  · subst hq
    simp only [↓reduceIte, h, Option.map_some, Option.some.injEq]
    constructor
    · rintro rfl
      obtain rfl | rfl := hn
      · exact absurd rfl ht
      · exact absurd rfl h0
    · rintro rfl
      obtain hr | hr := hr
      · exact absurd hr ht
      · exact absurd hr h0
  · rw [if_neg hq]

end Tables.Leaves

/-- The thread owns the records of its live claims, one for each, and the one on its way back. -/
structure Owns (ts : Tables) (me : Thread) (site : Option Place) : Prop where
  claimed : ∀ c place, me.isLive c → me.place? c = some place →
    ∃ r, ts.record? place = some r ∧ r.owner = me.token
  distinct : ∀ c d place, me.isLive c → me.isLive d → me.place? c = some place →
    me.place? d = some place → c = d
  owner : ∀ place r, ts.record? place = some r → r.owner = me.token →
    site = some place ∨ ∃ c, me.isLive c ∧ me.place? c = some place
  returned : ∀ place, site = some place →
    (∃ r, ts.record? place = some r ∧ r.owner = me.token) ∧ ∀ c, me.isLive c → me.place? c ≠ some place

namespace Owns

theorem other (o : Owns ts me site) (h : ts.Leaves ts' token) (h0 : me.token ≠ 0)
    (ht : me.token ≠ token) : Owns ts' me site := by
  have same {place : Place} {r : Record} (hr : r.owner = me.token) :
      ts'.record? place = some r ↔ ts.record? place = some r :=
    h place r (hr ▸ h0) (hr ▸ ht)
  refine ⟨fun c place hc hp => ?_, o.distinct, fun place r hr ho => ?_, fun place hs => ⟨?_, ?_⟩⟩
  · obtain ⟨r, hr, ho⟩ := o.claimed c place hc hp
    exact ⟨r, (same ho).mpr hr, ho⟩
  · exact o.owner place r ((same ho).mp hr) ho
  · obtain ⟨r, hr, ho⟩ := (o.returned place hs).1
    exact ⟨r, (same ho).mpr hr, ho⟩
  · exact (o.returned place hs).2

/-- What the thread knows otherwise does not matter. -/
theorem congr (o : Owns ts me site) (token : me'.token = me.token)
    (live : ∀ c, me'.isLive c ↔ me.isLive c) (places : ∀ c, me.isLive c → me'.place? c = me.place? c) :
    Owns ts me' site := by
  refine ⟨fun c place hc hp => ?_, fun c d place hc hd hp hq => ?_, fun place r hr ho => ?_,
    fun place hs => ⟨?_, fun c hc => ?_⟩⟩
  · rw [live] at hc
    rw [places c hc] at hp
    rw [token]
    exact o.claimed c place hc hp
  · rw [live] at hc hd
    rw [places c hc] at hp
    rw [places d hd] at hq
    exact o.distinct c d place hc hd hp hq
  · refine (o.owner place r hr (token ▸ ho)).imp_right fun ⟨c, hc, hp⟩ => ⟨c, (live c).mpr hc, ?_⟩
    rw [places c hc, hp]
  · rw [token]
    exact (o.returned place hs).1
  · rw [live] at hc
    rw [places c hc]
    exact (o.returned place hs).2 c hc

/-- Publishing does not change owners. -/
theorem publish (o : Owns ts me site) (q : Place) (a : Address) : Owns (ts.publish q a) me site := by
  have keep {place : Place} (h : ∃ r, ts.record? place = some r ∧ r.owner = me.token) :
      ∃ r, (ts.publish q a).record? place = some r ∧ r.owner = me.token := by
    obtain ⟨r, hr, ho⟩ := h
    rw [Tables.record?_publish, hr]
    by_cases hq : place = q
    · exact ⟨{ r with published := a }, by rw [if_pos hq]; rfl, ho⟩
    · exact ⟨r, by rw [if_neg hq], ho⟩
  refine ⟨fun c place hc hp => keep (o.claimed c place hc hp), o.distinct, fun place r hr ho => ?_,
    fun place hs => ⟨keep (o.returned place hs).1, (o.returned place hs).2⟩⟩
  rw [Tables.record?_publish] at hr
  by_cases hq : place = q
  · rw [if_pos hq] at hr
    obtain ⟨r', hr', rfl⟩ := Option.map_eq_some_iff.mp hr
    exact o.owner place r' hr' ho
  · rw [if_neg hq] at hr
    exact o.owner place r hr ho

/-- A claim dies, and its record is on its way back. -/
theorem lose (o : Owns ts me none) (hc : me.isLive c) (hp : me.place? c = some place)
    (token : me'.token = me.token) (live : ∀ d, me'.isLive d ↔ me.isLive d ∧ d ≠ c)
    (places : ∀ d, me'.place? d = me.place? d) : Owns ts me' (some place) := by
  refine ⟨fun d q hd hq => ?_, fun d e q hd he hq hq' => ?_, fun q r hr ho => ?_, ?_⟩
  · rw [live] at hd
    rw [places] at hq
    rw [token]
    exact o.claimed d q hd.1 hq
  · rw [live] at hd he
    rw [places] at hq hq'
    exact o.distinct d e q hd.1 he.1 hq hq'
  · obtain ⟨d, hd, hq⟩ := (o.owner q r hr (token ▸ ho)).resolve_left (by simp)
    by_cases hdc : d = c
    · subst hdc
      exact .inl (hp.symm.trans hq)
    · exact .inr ⟨d, (live d).mpr ⟨hd, hdc⟩, by rw [places, hq]⟩
  · rintro q ⟨⟩
    refine ⟨by rw [token]; exact o.claimed c place hc hp, fun d hd hq => ?_⟩
    rw [live] at hd
    rw [places] at hq
    exact hd.2 (o.distinct d c place hd.1 hc hq hp)

/-- A reference to a claim goes, and with the last one the claim. -/
theorem letGo (o : Owns ts me none) (hc : me.isLive c) (hp : me.place? c = some place) :
    Owns ts (me.letGo c).1 (if (me.letGo c).2 then some place else none) := by
  have live := Thread.isLive_letGo hc
  by_cases hlast : (me.letGo c).2
  · rw [if_pos hlast]
    refine o.lose hc hp rfl (fun d => ?_) fun d => Thread.place?_letGo ..
    rw [live]
    exact and_congr_right fun _ => not_congr (and_iff_left hlast)
  · rw [if_neg hlast]
    refine o.congr rfl (fun d => ?_) fun d _ => Thread.place?_letGo ..
    rw [live]
    exact and_iff_left fun h => hlast h.2

theorem disown (o : Owns ts me (some place)) (h0 : me.token ≠ 0) :
    Owns (ts.setOwner place 0) me none := by
  have hne {c : Nat} {q : Place} (hc : me.isLive c) (hq : me.place? c = some q) : q ≠ place := by
    rintro rfl
    exact (o.returned q rfl).2 c hc hq
  refine ⟨fun c q hc hq => ?_, o.distinct, fun q r hr ho => ?_, by simp⟩
  · rw [Tables.record?_setOwner, if_neg (hne hc hq)]
    exact o.claimed c q hc hq
  · rw [Tables.record?_setOwner] at hr
    by_cases hq : q = place
    · rw [if_pos hq] at hr
      obtain ⟨r', -, rfl⟩ := Option.map_eq_some_iff.mp hr
      exact absurd ho.symm h0
    · rw [if_neg hq] at hr
      refine .inr ((o.owner q r hr ho).resolve_left ?_)
      exact fun h => hq (Option.some.inj h).symm

/-- A record that nobody owns becomes that of a new claim. -/
theorem seize (o : Owns ts me none) (hr : ts.record? place = some r) (ho : r.owner = 0)
    (h0 : me.token ≠ 0) (token : me'.token = me.token)
    (live : ∀ d, me'.isLive d ↔ me.isLive d ∨ d = me.claims.size)
    (places : ∀ d, me'.place? d = if d = me.claims.size then some place else me.place? d) :
    Owns (ts.setOwner place me.token) me' none := by
  have hold {d : Nat} {q : Place} (hd : me.isLive d) (hq : me.place? d = some q) : q ≠ place := by
    rintro rfl
    obtain ⟨r', hr', ho'⟩ := o.claimed d q hd hq
    rw [hr] at hr'
    obtain rfl := Option.some.inj hr'
    exact h0 (ho'.symm.trans ho)
  have hcases {d : Nat} {q : Place} (hd : me'.isLive d) (hq : me'.place? d = some q) :
      d = me.claims.size ∧ q = place ∨ me.isLive d ∧ me.place? d = some q ∧ q ≠ place := by
    rw [places] at hq
    by_cases hds : d = me.claims.size
    · rw [if_pos hds] at hq
      exact .inl ⟨hds, (Option.some.inj hq).symm⟩
    · rw [if_neg hds] at hq
      have hd' := ((live d).mp hd).resolve_right hds
      exact .inr ⟨hd', hq, hold hd' hq⟩
  refine ⟨fun d q hd hq => ?_, fun d e q hd he hq hq' => ?_, fun q r' hr' ho' => ?_, by simp⟩
  · rw [Tables.record?_setOwner, token]
    obtain ⟨-, rfl⟩ | ⟨hd', hq', hne⟩ := hcases hd hq
    · exact ⟨_, by rw [if_pos rfl, hr]; rfl, rfl⟩
    · rw [if_neg hne]
      exact o.claimed d q hd' hq'
  · obtain ⟨rfl, rfl⟩ | ⟨hd', hq₁, hne⟩ := hcases hd hq <;>
      obtain ⟨rfl, hqp⟩ | ⟨he', hq₂, hne'⟩ := hcases he hq'
    · rfl
    · exact absurd rfl hne'
    · exact absurd hqp hne
    · exact o.distinct d e q hd' he' hq₁ hq₂
  · rw [Tables.record?_setOwner] at hr'
    by_cases hq : q = place
    · exact .inr ⟨me.claims.size, (live _).mpr (.inr rfl), by rw [places, if_pos rfl, hq]⟩
    · rw [if_neg hq] at hr'
      obtain ⟨d, hd, hp⟩ := (o.owner q r' hr' (token ▸ ho')).resolve_left (by simp)
      refine .inr ⟨d, (live d).mpr (.inl hd), ?_⟩
      rw [places, if_neg (Nat.ne_of_lt (Thread.lt_size_of_isLive hd)), hp]

end Owns

end LockFreeStack
