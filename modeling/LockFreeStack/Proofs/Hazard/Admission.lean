import LockFreeStack.Proofs.Hazard.Crowding
import LockFreeStack.Proofs.Hazard.Occupied
import LockFreeStack.Proofs.Hazard.Tenure
import LockFreeStack.Proofs.Hazard.Verdicts

/-!
A rush for the records of a table while none is given back. As many threads as there were free records
come by one each, whatever the order of their steps, and the others find the table exhausted.
-/

namespace LockFreeStack

variable {α : Type} {m : Memory α} {ts : Tables} {me : Thread} {p : Point α} {t k : Nat}

/-- A thread comes by a claim on a table with the end of an acquisition only. -/
theorem Seated.lacks_or_verdict? (s : Seated m.tables me (some p)) (lacks : me.Lacks t) :
    (Operation.step (m, me) p).memory.2.Lacks t ∨ ∃ v, p.verdict? t m me = some v := by
  refine or_iff_not_imp_right.mpr fun waits c place hc hp ht => ?_
  have tenure := Operation.tenure_step s
  obtain hc | ⟨u, purpose, j, rfl, -, hj, done⟩ := tenure.live_cases hc
  · obtain ⟨place', hp'⟩ := Thread.exists_place hc
    obtain rfl := Option.some.inj ((tenure.places hp').symm.trans hp)
    exact lacks c place' hc hp' ht
  · obtain rfl := Option.some.inj (hj.symm.trans hp)
    obtain rfl : u = t := ht
    obtain ⟨r, hr, ho⟩ := Acquire.free_of_done done
    exact waits ⟨_, verdict?_seize rfl hr ho⟩

namespace Hazard

def Move.isStepOf (i : Nat) : Move α → Bool
  | step j => j = i
  | _ => false

theorem Move.eq_of_isStepOf {mv : Move α} {i : Nat} (h : mv.isStepOf i) : mv = .step i := by
  cases mv <;> simp_all [isStepOf]

namespace Crowd

variable {x : Crowd α} {i : Nat} {c : Call α} {ms ds d : List (Move α)} {mv : Move α} {I : Finset Nat}
  {v : Except Trouble Nat} {r : Record}

/-- The end of an acquisition on the table, and whose it was. -/
def verdicts (t : Nat) (x : Crowd α) : Move α → List (Nat × Except Trouble Nat)
  | .step i => (((x.point i).bind (Point.verdict? t x.memory (x.me i))).map (i, ·)).toList
  | _ => []

/-- How the first acquisition of thread `i` on the table ends during the moves `ds`, if it does. -/
def outcome? (t : Nat) (ms ds : List (Move α)) (i : Nat) : Option (Except Trouble Nat) :=
  (play move (verdicts t) (after ms) ds).2.lookup i

theorem outcome?_snoc (ds : List (Move α)) (mv : Move α) :
    outcome? t ms (ds ++ [mv]) i =
      (outcome? t ms ds i).or ((verdicts t (after (ms ++ ds)) mv).lookup i) := by
  have here : (play move (verdicts t) (after ms) ds).1 = after (ms ++ ds) := by
    rw [play_fst_eq_foldl]
    exact List.foldl_append.symm
  rw [outcome?, play_snoc, List.lookup_append, here]
  rfl

theorem outcome?_keeps (h : outcome? t ms ds i = some v) (mv : Move α) :
    outcome? t ms (ds ++ [mv]) i = some v := by
  rw [outcome?_snoc, h, Option.some_or]

theorem outcome?_step (waits : outcome? t ms ds i = none) (hb : (after (ms ++ ds)).busy i = some (c, p))
    (hv : p.verdict? t (after (ms ++ ds)).memory ((after (ms ++ ds)).me i) = some v) :
    outcome? t ms (ds ++ [.step i]) i = some v := by
  rw [outcome?_snoc, waits, Option.none_or]
  simp [verdicts, point_of_busy hb, hv]

theorem outcome?_cases (h : outcome? t ms (ds ++ [mv]) i = some v) :
    outcome? t ms ds i = some v ∨ outcome? t ms ds i = none ∧ mv = .step i ∧
      ∃ c p, (after (ms ++ ds)).busy i = some (c, p) ∧
        p.verdict? t (after (ms ++ ds)).memory ((after (ms ++ ds)).me i) = some v := by
  rw [outcome?_snoc] at h
  cases ho : outcome? t ms ds i with
  | some w =>
    rw [ho, Option.some_or] at h
    exact .inl h
  | none =>
    rw [ho, Option.none_or] at h
    cases mv with
    | step j =>
      simp only [verdicts] at h
      generalize after (ms ++ ds) = x at h ⊢
      cases hv : (x.point j).bind (Point.verdict? t x.memory (x.me j)) with
      | none => simp [hv] at h
      | some w =>
        obtain ⟨p, hp, hw⟩ := Option.bind_eq_some_iff.mp hv
        obtain ⟨c, hb⟩ := exists_busy hp
        simp only [hv, Option.map_some, Option.toList_some, List.lookup_cons, List.lookup_nil] at h
        split at h
        · rename_i hji
          obtain rfl := eq_of_beq hji
          exact .inr ⟨rfl, rfl, c, p, hb, h ▸ hw⟩
        · cases h
    | _ => cases h

/-- The step that ends the acquisition. -/
theorem exists_verdict? (h : outcome? t ms ds i = some v) : ∃ d c p, d ++ [.step i] <+: ds ∧
    (after (ms ++ d)).busy i = some (c, p) ∧
    p.verdict? t (after (ms ++ d)).memory ((after (ms ++ d)).me i) = some v := by
  induction ds using List.reverseRecOn with
  | nil => cases h
  | append_singleton ds mv ih =>
    obtain h | ⟨-, rfl, c, p, hb, hv⟩ := outcome?_cases h
    · obtain ⟨d, c, p, hd, h⟩ := ih h
      exact ⟨d, c, p, hd.trans (List.prefix_append ds [mv]), h⟩
    · exact ⟨ds, c, p, List.prefix_refl _, hb, hv⟩

theorem exhausts?_of_verdict? {n : Nat} (hb : x.busy i = some (c, p))
    (hv : p.verdict? t x.memory (x.me i) = some (.error (.failure (.exhausted n)))) : x.exhausts? i = some n := by
  have hn := Operation.next_of_verdict? hv
  rw [exhausts?, point_of_busy hb]
  simp only [Option.bind_some, hn]

theorem lacks_move (o : x.Orderly) (lacks : (x.me i).Lacks t) (mv : Move α) :
    ((x.move mv).me i).Lacks t ∨ mv = .step i ∧ ∃ c p v, x.busy i = some (c, p) ∧
      p.verdict? t x.memory (x.me i) = some v := by
  obtain same | ⟨rfl, c, p, hb, hme⟩ := x.me_move i mv
  · exact .inl (same ▸ lacks)
  · rw [hme]
    exact ((o.seated_of_busy hb).lacks_or_verdict? lacks).imp_right fun ⟨v, hv⟩ => ⟨rfl, c, p, v, hb, hv⟩

/-- A record that is not given back keeps its owner. -/
theorem owner_move (o : x.Orderly) (kept : ∀ i, mv = .step i → ∀ k, x.disowns? i ≠ some ⟨t, k⟩)
    (hr : x.memory.tables.record? ⟨t, k⟩ = some r) (h0 : r.owner ≠ 0) :
    ∃ r', (x.move mv).memory.tables.record? ⟨t, k⟩ = some r' ∧ r'.owner = r.owner := by
  obtain ⟨r', hr', changes⟩ := record_move o mv hr
  refine ⟨r', hr', ?_⟩
  cases changes with
  | same | store => rfl
  | disown i move h => exact absurd h (kept i move k)
  | seize i _ _ free => exact absurd free h0

/-- The threads `I` come for claims on the table `t`, of which they have none yet. Each makes its call and
gets to the end of its acquisition, or at least takes the steps that one is given. Nobody else seizes a
record of the table meanwhile, and none is given back. -/
structure Rush (ms ds : List (Move α)) (t : Nat) (I : Finset Nat) : Prop where
  there : t < (after ms).memory.tables.size
  lacks : ∀ i ∈ I, ((after ms).me i).Lacks t
  outside : ∀ i ∈ I, ∀ a, (after ms).claims? i ≠ some (t, a)
  only : ∀ d i, d ++ [.step i] <+: ds → ∀ k, (after (ms ++ d)).claims? i = some (t, .seize k) → i ∈ I
  kept : ∀ d i, d ++ [.step i] <+: ds → ∀ k, (after (ms ++ d)).disowns? i ≠ some ⟨t, k⟩
  calls : ∀ i ∈ I, ∃ d c rest, d ++ .call i c :: rest = ds ∧ (after (ms ++ d)).busy i = none ∧
    c.Seeks (after (ms ++ d)).memory t ∧
    ((∀ purpose a, (after (ms ++ ds)).busy i ≠ some (c, .acquire t purpose a)) ∨
      Acquire.patience (after (ms ++ d)).memory.tables ((after (ms ++ d)).me i) t ≤
        rest.countP (·.isStepOf i))

/-- In the middle of a rush. What a thread has passed on its way is owned. -/
structure Rushing (ms d : List (Move α)) (t : Nat) (I : Finset Nat) : Prop where
  lacks : ∀ i ∈ I, outcome? t ms d i = none → ((after (ms ++ d)).me i).Lacks t
  passed : ∀ i ∈ I, ∀ a, (after (ms ++ d)).claims? i = some (t, a) → ∀ k < a.level,
    ∀ r, (after (ms ++ d)).memory.tables.record? ⟨t, k⟩ = some r → r.owner ≠ 0
  admitted : ∀ i ∈ I, ∀ k, outcome? t ms d i = some (.ok k) → ¬(after ms).memory.Taken t k ∧
    ∃ r, (after (ms ++ d)).memory.tables.record? ⟨t, k⟩ = some r ∧ r.owner = i + 1
  refused : ∀ i ∈ I, ∀ e, outcome? t ms d i = some (.error e) →
    e = .failure (.exhausted ((after ms).memory.table t).capacity) ∧
      ∀ k < ((after ms).memory.table t).capacity, (after (ms ++ d)).memory.Taken t k
  gained : ∀ k, (after (ms ++ d)).memory.Taken t k →
    (after ms).memory.Taken t k ∨ ∃ i ∈ I, outcome? t ms d i = some (.ok k)
  held : ∀ k, (after ms).memory.Taken t k → (after (ms ++ d)).memory.Taken t k

namespace Rush

theorem there_append (h : Rush ms ds t I) (d : List (Move α)) : t < (after (ms ++ d)).memory.tables.size :=
  h.there.trans_le (size_le_append ms d)

theorem owner_snoc (h : Rush ms ds t I) (hd : d ++ [mv] <+: ds)
    (hr : (after (ms ++ d)).memory.tables.record? ⟨t, k⟩ = some r) (h0 : r.owner ≠ 0) :
    ∃ r', (after (ms ++ (d ++ [mv]))).memory.tables.record? ⟨t, k⟩ = some r' ∧ r'.owner = r.owner := by
  rw [after_append_snoc]
  refine owner_move (orderly_after _) (fun i hmv k => ?_) hr h0
  subst hmv
  exact h.kept d i hd k

theorem taken_snoc (h : Rush ms ds t I) (hd : d ++ [mv] <+: ds) (hk : (after (ms ++ d)).memory.Taken t k) :
    (after (ms ++ (d ++ [mv]))).memory.Taken t k := by
  obtain ⟨r, hr, h0⟩ := hk
  obtain ⟨r', hr', ho⟩ := h.owner_snoc hd hr h0
  exact ⟨r', hr', ho ▸ h0⟩

end Rush

namespace Rushing

theorem start (h : Rush ms ds t I) : Rushing ms [] t I where
  lacks i hi _ := by simpa using h.lacks i hi
  passed i hi a ha := absurd (by simpa using ha) (h.outside i hi a)
  admitted i hi k ho := by cases ho
  refused i hi e ho := by cases ho
  gained k hk := .inl (by simpa using hk)
  held k hk := by simpa using hk

/-- How a thread's first acquisition ends. -/
theorem ends (h : Rush ms ds t I) (u : Rushing ms d t I) (hi : i ∈ I) (waits : outcome? t ms d i = none)
    (hb : (after (ms ++ d)).busy i = some (c, p))
    (hv : p.verdict? t (after (ms ++ d)).memory ((after (ms ++ d)).me i) = some v) :
    (∃ k r, v = .ok k ∧ (after (ms ++ d)).claims? i = some (t, .seize k) ∧
      (after (ms ++ d)).memory.tables.record? ⟨t, k⟩ = some r ∧ r.owner = 0) ∨
    ∃ k, v = .error (.failure (.exhausted ((after ms).memory.table t).capacity)) ∧
      (after (ms ++ d)).claims? i = some (t, .probe k) ∧ ((after ms).memory.table t).capacity ≤ k := by
  have o := orderly_after (ms ++ d)
  rw [claims?, point_of_busy hb, ← capacity_append h.there d]
  exact (o.seated_of_busy hb).verdict?_cases (o.token_ne_zero i) (u.lacks i hi waits) (h.there_append d) hv

theorem lacks_snoc (u : Rushing ms d t I) (hi : i ∈ I) (waits : outcome? t ms (d ++ [mv]) i = none) :
    ((after (ms ++ (d ++ [mv]))).me i).Lacks t := by
  have before : outcome? t ms d i = none := by
    by_contra hv
    obtain ⟨v, hv⟩ := Option.ne_none_iff_exists'.mp hv
    cases waits.symm.trans (outcome?_keeps hv mv)
  rw [after_append_snoc]
  obtain lacks | ⟨rfl, c, p, v, hb, hv⟩ := lacks_move (orderly_after (ms ++ d)) (u.lacks i hi before) mv
  · exact lacks
  · cases waits.symm.trans (outcome?_step before hb hv)

theorem passed_snoc (h : Rush ms ds t I) (hd : d ++ [mv] <+: ds) (u : Rushing ms d t I) (hi : i ∈ I)
    {b : Claiming.Point} (hb : (after (ms ++ (d ++ [mv]))).claims? i = some (t, b)) (hk : k < b.level)
    (hr : (after (ms ++ (d ++ [mv]))).memory.tables.record? ⟨t, k⟩ = some r) : r.owner ≠ 0 := by
  -- The record was there before, and is owned if it was.
  have later (owned : ∀ r, (after (ms ++ d)).memory.tables.record? ⟨t, k⟩ = some r → r.owner ≠ 0) :
      r.owner ≠ 0 := by
    have hk' : k < ((after (ms ++ d)).memory.table t).capacity := by
      rw [capacity_append h.there, ← capacity_append h.there (d ++ [mv])]
      exact (isSome_record? ..).mp (Option.isSome_iff_exists.mpr ⟨r, hr⟩)
    obtain ⟨r₀, hr₀⟩ := Option.isSome_iff_exists.mp ((isSome_record? ..).mpr hk')
    obtain ⟨r', hr', ho⟩ := h.owner_snoc hd hr₀ (owned r₀ hr₀)
    obtain rfl := Option.some.inj (hr.symm.trans hr')
    exact ho ▸ owned r₀ hr₀
  rw [after_append_snoc] at hb
  obtain h0 | ⟨a, ha, same | ⟨next, -, a', ha', -, here⟩⟩ := claims?_move hb
  · omega
  · exact later (u.passed i hi a ha k (same ▸ hk))
  · by_cases hka : k < a.level
    · exact later (u.passed i hi a ha k hka)
    · obtain rfl : k = a.level := by omega
      exact later here

theorem admitted_snoc (h : Rush ms ds t I) (hd : d ++ [mv] <+: ds) (u : Rushing ms d t I) (hi : i ∈ I)
    (ho : outcome? t ms (d ++ [mv]) i = some (.ok k)) : ¬(after ms).memory.Taken t k ∧
      ∃ r, (after (ms ++ (d ++ [mv]))).memory.tables.record? ⟨t, k⟩ = some r ∧ r.owner = i + 1 := by
  obtain old | ⟨waits, rfl, c, p, hb, hv⟩ := outcome?_cases ho
  · obtain ⟨vacant, r, hr, owner⟩ := u.admitted i hi k old
    obtain ⟨r', hr', same⟩ := h.owner_snoc hd hr (by omega)
    exact ⟨vacant, r', hr', same.trans owner⟩
  · obtain ⟨j, r, hj, claims, hr, free⟩ | ⟨j, hj, -⟩ := u.ends h hi waits hb hv
    · cases hj
      refine ⟨fun taken => ?_, ⟨i + 1, r.published⟩, ?_, rfl⟩
      · obtain ⟨r', hr', owned⟩ := u.held k taken
        exact owned (Option.some.inj (hr.symm.trans hr') ▸ free)
      · rw [after_append_snoc]
        exact record_seized (orderly_after _) claims hr free
    · cases hj

theorem refused_snoc (h : Rush ms ds t I) (hd : d ++ [mv] <+: ds) (u : Rushing ms d t I) (hi : i ∈ I)
    {e : Trouble} (ho : outcome? t ms (d ++ [mv]) i = some (.error e)) :
    e = .failure (.exhausted ((after ms).memory.table t).capacity) ∧
      ∀ k < ((after ms).memory.table t).capacity, (after (ms ++ (d ++ [mv]))).memory.Taken t k := by
  obtain old | ⟨waits, rfl, c, p, hb, hv⟩ := outcome?_cases ho
  · obtain ⟨he, taken⟩ := u.refused i hi e old
    exact ⟨he, fun k hk => h.taken_snoc hd (taken k hk)⟩
  · obtain ⟨j, r, hj, -⟩ | ⟨j, hj, claims, hcap⟩ := u.ends h hi waits hb hv
    · cases hj
    · cases hj
      refine ⟨rfl, fun k hk => h.taken_snoc hd ?_⟩
      rw [← capacity_append h.there d] at hk
      obtain ⟨r, hr⟩ := Option.isSome_iff_exists.mp ((isSome_record? ..).mpr hk)
      rw [capacity_append h.there d] at hk
      exact ⟨r, hr, u.passed i hi _ claims k (hk.trans_le hcap) r hr⟩

theorem gained_snoc (h : Rush ms ds t I) (hd : d ++ [mv] <+: ds) (u : Rushing ms d t I)
    (hk : (after (ms ++ (d ++ [mv]))).memory.Taken t k) :
    (after ms).memory.Taken t k ∨ ∃ i ∈ I, outcome? t ms (d ++ [mv]) i = some (.ok k) := by
  have o := orderly_after (ms ++ d)
  have old (hk : (after (ms ++ d)).memory.Taken t k) :
      (after ms).memory.Taken t k ∨ ∃ i ∈ I, outcome? t ms (d ++ [mv]) i = some (.ok k) :=
    (u.gained k hk).imp_right fun ⟨i, hi, hv⟩ => ⟨i, hi, outcome?_keeps hv mv⟩
  obtain ⟨r', hr', h0⟩ := hk
  rw [after_append_snoc] at hr'
  obtain ⟨r, hr, changes⟩ | ⟨-, hsize, -⟩ := record_of_move o mv hr'
  · cases changes with
    | same => exact old ⟨_, hr, h0⟩
    | store => exact old ⟨r, hr, h0⟩
    | disown => exact absurd rfl h0
    | seize i hmv claims free =>
      subst hmv
      have hi := h.only d i hd k claims
      cases ho : outcome? t ms d i with
      | none =>
        obtain ⟨p, hp, hc⟩ := Option.bind_eq_some_iff.mp claims
        obtain ⟨c, hb⟩ := exists_busy hp
        exact .inr ⟨i, hi, outcome?_step ho hb (Seated.verdict?_seize hc hr free)⟩
      | some v =>
        -- Who has a record of the table already does not claim one, and a refusal leaves none.
        cases v with
        | ok j =>
          obtain ⟨-, r, hr, owner⟩ := u.admitted i hi j ho
          exact absurd claims (o.claims?_ne hr owner)
        | error e =>
          have hcap := (isSome_record? ..).mp (Option.isSome_iff_exists.mpr ⟨r, hr⟩)
          rw [capacity_append h.there d] at hcap
          obtain ⟨r', hr', owned⟩ := (u.refused i hi e ho).2 k hcap
          exact absurd free (Option.some.inj (hr.symm.trans hr') ▸ owned)
  · exact absurd (h.there_append d) (Nat.not_lt.mpr hsize)

theorem snoc (h : Rush ms ds t I) (hd : d ++ [mv] <+: ds) (u : Rushing ms d t I) :
    Rushing ms (d ++ [mv]) t I where
  lacks _ hi := u.lacks_snoc hi
  passed _ hi _ hb _ hk _ := u.passed_snoc h hd hi hb hk
  admitted _ hi _ := u.admitted_snoc h hd hi
  refused _ hi _ := u.refused_snoc h hd hi
  gained _ := u.gained_snoc h hd
  held k hk := h.taken_snoc hd (u.held k hk)

end Rushing

theorem Rush.rushing (h : Rush ms ds t I) (hd : d <+: ds) : Rushing ms d t I := by
  induction d using List.reverseRecOn with
  | nil => exact .start h
  | append_singleton d mv ih => exact (ih ((List.prefix_append d [mv]).trans hd)).snoc h hd

namespace Rush

/-- A thread is still on its way to a claim, and has not lost patience. -/
theorem acquires (h : Rush ms ds t I) {rest : List (Move α)} (hds : d ++ .call i c :: rest <+: ds)
    (idle : (after (ms ++ d)).busy i = none) (seeks : c.Seeks (after (ms ++ d)).memory t)
    (waits : outcome? t ms (d ++ .call i c :: rest) i = none) :
    ∃ purpose a, (after (ms ++ (d ++ .call i c :: rest))).busy i = some (c, .acquire t purpose a) ∧
      a.left ((after ms).memory.table t).capacity ((after (ms ++ (d ++ .call i c :: rest))).me i) +
          rest.countP (·.isStepOf i) ≤
        Acquire.patience (after (ms ++ d)).memory.tables ((after (ms ++ d)).me i) t := by
  have there (d : List (Move α)) : ∃ tb, (after (ms ++ d)).memory.tables[t]? = some tb ∧
      tb.capacity = ((after ms).memory.table t).capacity := by
    have ht := Array.getElem?_eq_getElem (h.there_append d)
    exact ⟨_, ht, by rw [← capacity_append h.there d, Memory.table, ht]; rfl⟩
  induction rest using List.reverseRecOn with
  | nil =>
    obtain ⟨purpose, hc⟩ := seeks.start? (h.there_append d) ((after (ms ++ d)).me i)
    obtain ⟨tb, ht, hcap⟩ := there d
    rw [after_append_snoc, move, idle, hc, ← hcap]
    exact ⟨purpose, .lookup, by simp [set], by simpa using Acquire.left_lookup_le ht⟩
  | append_singleton rest mv ih =>
    have snoc : d ++ .call i c :: (rest ++ [mv]) = (d ++ .call i c :: rest) ++ [mv] := by simp
    rw [snoc] at hds waits ⊢
    have before : outcome? t ms (d ++ .call i c :: rest) i = none := by
      by_contra hv
      obtain ⟨v, hv⟩ := Option.ne_none_iff_exists'.mp hv
      cases waits.symm.trans (outcome?_keeps hv mv)
    obtain ⟨purpose, a, hb, hle⟩ := ih ((List.prefix_append ..).trans hds) before
    rw [after_append_snoc, List.countP_append]
    by_cases hmv : mv.isStepOf i
    · obtain rfl := Move.eq_of_isStepOf hmv
      have o := orderly_after (ms ++ (d ++ .call i c :: rest))
      obtain ⟨tb, ht, hcap⟩ := there (d ++ .call i c :: rest)
      obtain ⟨v, hv⟩ | ⟨b, hn, closer⟩ :=
        (o.seated_of_busy hb).verdict?_or_goto (o.token_ne_zero i) ht
      · cases waits.symm.trans (outcome?_step before hb hv)
      · rw [move_step hb (Operation.unfaulting_acquire _ _ _ _ _)]
        refine ⟨purpose, b, by simp [set, hn, Next.point?], ?_⟩
        rw [me_set_self, List.countP_singleton, if_pos hmv]
        rw [hcap] at closer
        omega
    · have others : mv ≠ .step i := by
        rintro rfl
        simp [Move.isStepOf] at hmv
      obtain ⟨hb', hme⟩ := acquiring_move hb others
      refine ⟨purpose, a, hb', ?_⟩
      rw [hme, List.countP_singleton, if_neg hmv]
      exact hle

theorem exists_outcome (h : Rush ms ds t I) (hi : i ∈ I) : ∃ v, outcome? t ms ds i = some v := by
  obtain ⟨d, c, rest, rfl, idle, seeks, ends⟩ := h.calls i hi
  refine Option.ne_none_iff_exists'.mp fun waits => ?_
  obtain ⟨purpose, a, hb, hle⟩ := h.acquires (List.prefix_refl _) idle seeks waits
  obtain away | enough := ends
  · exact away purpose a hb
  · have := a.left_pos ((after ms).memory.table t).capacity ((after (ms ++ (d ++ .call i c :: rest))).me i)
    omega

end Rush

/-- The threads of `I` whose first acquisition on the table has come to a record during the moves `ds`. -/
def granted (t : Nat) (ms ds : List (Move α)) (I : Finset Nat) : Finset Nat :=
  I.filter fun i => (outcome? t ms ds i).any Except.isOk

theorem mem_granted : i ∈ granted t ms ds I ↔ i ∈ I ∧ ∃ k, outcome? t ms ds i = some (.ok k) := by
  rw [granted, Finset.mem_filter]
  refine and_congr_right fun _ => ⟨fun h => ?_, fun ⟨k, h⟩ => by rw [h]; rfl⟩
  obtain ⟨e | k, hv, hk⟩ := (Option.any_eq_true _ _).mp h
  · cases hk
  · exact ⟨k, hv⟩

/-- How a rush ends. -/
structure Dealt (ms ds : List (Move α)) (t : Nat) (I : Finset Nat) : Prop where
  number : (granted t ms ds I).card =
    min I.card (((after ms).memory.table t).records.countP fun r => r.owner = 0)
  vacant : ∀ i ∈ I, ∀ k, outcome? t ms ds i = some (.ok k) →
    ∃ r, (after ms).memory.tables.record? ⟨t, k⟩ = some r ∧ r.owner = 0
  owned : ∀ i ∈ I, ∀ k, outcome? t ms ds i = some (.ok k) →
    ∃ r, (after (ms ++ ds)).memory.tables.record? ⟨t, k⟩ = some r ∧ r.owner = i + 1
  apart : ∀ i ∈ I, ∀ j ∈ I, ∀ k, outcome? t ms ds i = some (.ok k) → outcome? t ms ds j = some (.ok k) → i = j
  refused : ∀ i ∈ I, i ∉ granted t ms ds I →
    outcome? t ms ds i = some (.error (.failure (.exhausted ((after ms).memory.table t).capacity)))
  answered : ∀ i ∈ I, i ∉ granted t ms ds I → ∃ d, d ++ [.step i] <+: ds ∧
    (after (ms ++ d)).exhausts? i = some ((after ms).memory.table t).capacity
  claimed : ((after (ms ++ ds)).memory.table t).claimed =
    ((after ms).memory.table t).claimed + (granted t ms ds I).card

namespace Rushing

theorem apart (u : Rushing ms d t I) {j : Nat} (hi : i ∈ I) (hj : j ∈ I)
    (ho : outcome? t ms d i = some (.ok k)) (ho' : outcome? t ms d j = some (.ok k)) : i = j := by
  obtain ⟨-, r, hr, owner⟩ := u.admitted i hi k ho
  obtain ⟨-, r', hr', owner'⟩ := u.admitted j hj k ho'
  obtain rfl := Option.some.inj (hr.symm.trans hr')
  omega

theorem occupied_subset (u : Rushing ms d t I) :
    (after ms).memory.occupied t ⊆ (after (ms ++ d)).memory.occupied t :=
  fun k hk => Memory.mem_occupied.mpr (u.held k (Memory.mem_occupied.mp hk))

/-- The records that are owned now and were not before are those of the threads that were granted one. -/
theorem card_gained (u : Rushing ms d t I) :
    ((after (ms ++ d)).memory.occupied t \ (after ms).memory.occupied t).card =
      (granted t ms d I).card := by
  symm
  refine Finset.card_bij (fun i _ => ((outcome? t ms d i).bind Except.toOption).getD 0) ?_ ?_ ?_
  · intro i hi
    obtain ⟨hi, k, ho⟩ := mem_granted.mp hi
    obtain ⟨vacant, r, hr, owner⟩ := u.admitted i hi k ho
    rw [ho, Finset.mem_sdiff, Memory.mem_occupied, Memory.mem_occupied]
    exact ⟨⟨r, hr, by omega⟩, vacant⟩
  · intro i hi j hj he
    obtain ⟨hi, k, ho⟩ := mem_granted.mp hi
    obtain ⟨hj, l, ho'⟩ := mem_granted.mp hj
    rw [ho, ho'] at he
    obtain rfl : k = l := he
    exact u.apart hi hj ho ho'
  · intro k hk
    rw [Finset.mem_sdiff, Memory.mem_occupied, Memory.mem_occupied] at hk
    obtain ⟨i, hi, ho⟩ := (u.gained k hk.1).resolve_left hk.2
    exact ⟨i, mem_granted.mpr ⟨hi, k, ho⟩, by rw [ho]; rfl⟩

end Rushing

/-- Of the threads that come for claims while no record is given back, exactly as many are admitted as
there were free records, and only those beyond that number are refused. -/
theorem dealt_of_rush (h : Rush ms ds t I) : Dealt ms ds t I := by
  have u := h.rushing (List.prefix_refl ds)
  have capacity := capacity_append h.there ds
  have gained := u.card_gained
  rw [Finset.card_sdiff_of_subset u.occupied_subset, Memory.card_occupied, Memory.card_occupied] at gained
  have grows := Finset.card_le_card u.occupied_subset
  rw [Memory.card_occupied, Memory.card_occupied] at grows
  have before := (after ms).memory.claimed_add_vacant t
  have later := (after (ms ++ ds)).memory.claimed_add_vacant t
  have among : (granted t ms ds I).card ≤ I.card := Finset.card_le_card (Finset.filter_subset _ _)
  have refused : ∀ i ∈ I, i ∉ granted t ms ds I →
      outcome? t ms ds i = some (.error (.failure (.exhausted ((after ms).memory.table t).capacity))) := by
    intro i hi out
    obtain ⟨e | k, ho⟩ := h.exists_outcome hi
    · exact ho.trans (by rw [(u.refused i hi e ho).1])
    · exact absurd (mem_granted.mpr ⟨hi, k, ho⟩) out
  refine ⟨?number, ?vacant, fun i hi k ho => (u.admitted i hi k ho).2, fun i hi j hj k => u.apart hi hj,
    refused, fun i hi out => ?answered, by omega⟩
  case number =>
    by_cases all : I ⊆ granted t ms ds I
    · have := Finset.card_le_card all
      omega
    · -- Whoever is refused has found every record owned.
      obtain ⟨i, hi, out⟩ := Finset.not_subset.mp all
      have full : Finset.range ((after ms).memory.table t).capacity ⊆ (after (ms ++ ds)).memory.occupied t :=
        fun k hk => Memory.mem_occupied.mpr ((u.refused i hi _ (refused i hi out)).2 k (Finset.mem_range.mp hk))
      have := Finset.card_le_card full
      rw [Finset.card_range, Memory.card_occupied] at this
      omega
  case vacant =>
    intro i hi k ho
    obtain ⟨vacant, r, hr, -⟩ := u.admitted i hi k ho
    have hk := (isSome_record? ..).mp (Option.isSome_iff_exists.mpr ⟨r, hr⟩)
    rw [capacity] at hk
    obtain ⟨r₀, hr₀⟩ := Option.isSome_iff_exists.mp ((isSome_record? ..).mpr hk)
    exact ⟨r₀, hr₀, not_not.mp fun h0 => vacant ⟨r₀, hr₀, h0⟩⟩
  case answered =>
    obtain ⟨d, c, p, hd, hb, hv⟩ := exists_verdict? (refused i hi out)
    exact ⟨d, hd, exhausts?_of_verdict? hb hv⟩

/-- Thread 0 owns one of two records. -/
def half : List (Move Unit) :=
  .change (.registry 2) :: .call 0 (.register 0 "a") :: List.replicate 7 (.step 0)

/-- Threads 1 and 2 come for the other one, step by step. -/
def abreast : List (Move Unit) :=
  .call 1 (.register 0 "b") :: .call 2 (.lend 0) :: (List.replicate 11 [.step 1, .step 2]).flatten

theorem dealt_abreast : Rush half abreast 0 {1, 2} ∧ Dealt half abreast 0 {1, 2} := by
  have two {d : List (Move Unit)} {i : Nat} (hd : d ++ [.step i] <+: abreast) : i ∈ ({1, 2} : Finset Nat) := by
    have hi : Move.step i ∈ abreast := hd.subset (by simp)
    simp only [abreast, List.mem_cons, reduceCtorEq, false_or, List.mem_flatten, List.mem_replicate] at hi
    obtain ⟨l, ⟨-, rfl⟩, hi⟩ := hi
    simpa using hi
  have keep : ∀ d ∈ abreast.inits, ∀ i ∈ ({1, 2} : Finset Nat), (after (half ++ d)).disowns? i = none := by
    decide +kernel
  have rush : Rush half abreast 0 {1, 2} := by
    refine ⟨by decide +kernel, fun i hi c place hc => ?lacks, fun i hi a ha => ?outside,
      fun d i hd k _ => two hd, fun d i hd k h => ?kept, fun i hi => ?calls⟩
    case lacks =>
      have none : ∀ i ∈ ({1, 2} : Finset Nat), ((after half).me i).claims.size = 0 := by decide +kernel
      exact absurd (Thread.lt_size_of_isLive hc) (by simp [none i hi])
    case outside =>
      have idle : ∀ i ∈ ({1, 2} : Finset Nat), (after half).busy i |>.isNone := by decide +kernel
      simp [claims?, Crowd.point, Option.isNone_iff_eq_none.mp (idle i hi)] at ha
    case kept =>
      have hmem := (List.mem_inits _ _).mpr ((List.prefix_append d [.step i]).trans hd)
      cases (keep d hmem i (two hd)).symm.trans h
    case calls =>
      obtain rfl | rfl : i = 1 ∨ i = 2 := by simpa using hi
      · exact ⟨[], _, _, rfl, Option.isNone_iff_eq_none.mp (by decide +kernel), rfl, .inr (by decide +kernel)⟩
      · exact ⟨[_], _, _, rfl, Option.isNone_iff_eq_none.mp (by decide +kernel), rfl, .inr (by decide +kernel)⟩
  exact ⟨rush, dealt_of_rush rush⟩

end Crowd

end Hazard

end LockFreeStack
