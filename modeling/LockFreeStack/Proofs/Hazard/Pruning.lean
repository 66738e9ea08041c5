import LockFreeStack.Proofs.Hazard.Moves

/-!
The search of a thread that makes a new claim through its cache. Behind it no pins are left on tables
that nobody has a handle to.
-/

namespace LockFreeStack

variable {α : Type} {ts : Tables} {me me' : Thread} {t u i k c : Nat} {e : Cached} {place : Place}

/-- No pin on the table `u` stands at the place `k` of the cache. -/
def Thread.NoPin (me : Thread) (u k : Nat) : Prop :=
  ∀ e, me.cache[k]? = some e → e.pinned → ∀ place, me.place? e.claim = some place → place.table ≠ u

namespace Thread.NoPin

theorem mono (h : me.NoPin u k)
    (cache : ∀ e, me'.cache[k]? = some e → e.pinned → me.cache[k]? = some e)
    (places : ∀ c, me'.place? c = me.place? c) : me'.NoPin u k :=
  fun e he hp place hplace => h e (cache e he hp) hp place (places e.claim ▸ hplace)

/-- Taking a pin away adds none. -/
theorem unpin (h : me.NoPin u k) (c : Nat) : ((me.setPinned c false).letGo c).1.NoPin u k := by
  refine h.mono (fun e he hp => ?_) fun d => Thread.place?_letGo ..
  obtain ⟨f, hf, rfl⟩ : ∃ f, me.cache[k]? = some f ∧
      (if f.claim = c then { f with pinned := false } else f) = e := by
    simpa [letGo, setRefs, setPinned] using he
  by_cases hc : f.claim = c
  · simp [hc] at hp
  · rw [if_neg hc]
    exact hf

theorem forget (h : me.NoPin u k) (hk : k < i) : (me.forget i).NoPin u k :=
  h.mono (fun e he _ => by rwa [Thread.forget, List.getElem?_eraseIdx_of_lt hk] at he) fun _ => rfl

end Thread.NoPin

namespace Acquire

/-- What the search has come by so far. -/
def Point.Searched (u : Nat) (me : Thread) : Point → Prop
  | lookup => True
  | prune i | releasing i _ _ => ∀ k < i, me.NoPin u k
  | claiming _ => ∀ k, me.NoPin u k

theorem searched_prune (h : (Point.prune i).Searched u me) (dead : ts.hasHandles u = false) :
    (prune ts me i).2.Searched u (prune ts me i).1 := by
  unfold prune
  cases he : me.cache[i]? with
  | none =>
    intro k
    by_cases hk : k < i
    · exact h k hk
    · intro e hk'
      rw [List.getElem?_eq_none ((List.getElem?_eq_none_iff.mp he).trans (Nat.le_of_not_lt hk))] at hk'
      cases hk'
  | some e =>
    have forgotten : (Point.prune i).Searched u (me.forget i) := fun k hk => (h k hk).forget hk
    have next (here : me.NoPin u i) : (Point.prune (i + 1)).Searched u me := fun k hk => by
      obtain hk | rfl := Nat.lt_succ_iff_lt_or_eq.mp hk
      · exact h k hk
      · exact here
    simp only
    cases hplace : me.place? e.claim with
    | none => exact forgotten
    | some place =>
      simp only
      by_cases hp : e.pinned
      · rw [if_pos hp]
        by_cases hh : ts.hasHandles place.table
        · rw [if_pos hh]
          refine next fun e' he' _ place' hplace' hu => ?_
          obtain rfl := Option.some.inj (he.symm.trans he')
          obtain rfl := Option.some.inj (hplace.symm.trans hplace')
          exact Bool.false_ne_true (dead.symm.trans (hu ▸ hh))
        · rw [if_neg hh]
          have unpinned : ∀ k < i + 1, ((me.setPinned e.claim false).letGo e.claim).1.NoPin u k := by
            intro k hk
            obtain hk | rfl := Nat.lt_succ_iff_lt_or_eq.mp hk
            · exact (h k hk).unpin e.claim
            · intro e' he' hp'
              simp only [Thread.letGo, Thread.setRefs, Thread.setPinned, List.getElem?_map, he, Option.map_some,
                ↓reduceIte, Option.some.injEq] at he'
              subst he'
              cases hp'
          by_cases hlast : ((me.setPinned e.claim false).letGo e.claim).2
          · rw [if_pos hlast]
            exact fun k hk => unpinned k (Nat.lt_succ_of_lt hk)
          · rw [if_neg hlast]
            exact unpinned
      · rw [if_neg hp]
        by_cases hl : me.isLive e.claim
        · rw [if_pos hl]
          refine next fun e' he' hp' => ?_
          obtain rfl := Option.some.inj (he.symm.trans he')
          exact absurd hp' hp
        · rw [if_neg hl]
          exact forgotten

theorem searched_step {pin : Bool} {a b : Point} (h : a.Searched u me) (dead : ts.hasHandles u = false)
    (hn : (step (α := α) t pin (ts, me) a).next = .goto b) :
    b.Searched u (step (α := α) t pin (ts, me) a).memory.2 := by
  cases a with
  | lookup =>
    simp only [step] at hn ⊢
    split at hn <;> cases hn
    exact fun k hk => absurd hk (Nat.not_lt_zero k)
  | prune i =>
    obtain rfl : (prune ts me i).2 = b := Next.goto.inj hn
    exact searched_prune h dead
  | releasing i place q =>
    cases q with
    | clear =>
      cases hn
      exact h
    | disown =>
      cases hn
      exact fun k hk => (h k hk).forget hk
  | claiming q =>
    cases ht : ts[t]? with
    | none => simp [step, ht] at hn
    | some tb =>
      simp only [step, ht] at hn ⊢
      rcases hq : Claiming.step (α := α) tb me.token q with ⟨tb', q' | (e | j) | f, notes⟩ <;>
        rw [hq] at hn <;> cases hn
      exact h

end Acquire

namespace Hazard.Crowd

variable {x : Crowd α} {purpose : Purpose} {call : Call α} {a b : Acquire.Point}

theorem searched_move (hb : x.busy i = some (call, .acquire t purpose a))
    (h : a.Searched u (x.me i)) (dead : x.memory.tables.hasHandles u = false) (mv : Move α)
    (hb' : (x.move mv).busy i = some (call, .acquire t purpose b)) : b.Searched u ((x.move mv).me i) := by
  by_cases hmv : mv = .step i
  · subst hmv
    rw [move_step hb (Operation.unfaulting_acquire _ _ _ _ _)] at hb' ⊢
    rw [me_set_self]
    obtain ⟨q, hq, he⟩ : ∃ q, (Operation.step (x.memory, x.me i) (.acquire t purpose a)).next.point? = some q ∧
        (call, q) = (call, .acquire t purpose b) := by
      simpa [set] using hb'
    cases he
    obtain ⟨ts, me', b', notes, ha, hs⟩ | ⟨ts, me', e, notes, ha, hs⟩ | ⟨ts, me', d, notes, ha, -, hs⟩ :=
      Operation.acquire_cases x.memory (x.me i) t purpose a <;> rw [hs] at hq
    · cases hq
      have searched : b.Searched u
          (Acquire.step (α := α) t purpose.pins (x.memory.tables, x.me i) a).memory.2 :=
        Acquire.searched_step h dead (by rw [ha])
      rw [ha] at searched
      rw [hs]
      exact searched
    · cases hq
    · cases purpose <;> simp only [Operation.acquired] at hq
      · split at hq <;> cases hq
      · cases hq
      · split at hq <;> cases hq
  · obtain ⟨same, hme⟩ := acquiring_move hb hmv
    cases same.symm.trans hb'
    rw [hme]
    exact h

/-- Whoever claims a record has no pin on the table left. -/
theorem unpinned_of_searched {q : Claiming.Point} (h : (Acquire.Point.claiming q).Searched u (x.me i))
    (pinned : (x.me i).isPinned c) (hp : (x.me i).place? c = some place) : place.table ≠ u := by
  obtain ⟨e, he, hc⟩ := List.any_eq_true.mp pinned
  obtain ⟨rfl, hpin⟩ : e.claim = c ∧ e.pinned := by simpa using hc
  obtain ⟨k, hk⟩ := List.mem_iff_getElem?.mp he
  exact h k e hk hpin place hp

end Hazard.Crowd

end LockFreeStack
