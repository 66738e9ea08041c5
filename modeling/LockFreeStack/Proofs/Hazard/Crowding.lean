import LockFreeStack.Proofs.Hazard.Exclusive
import LockFreeStack.Proofs.Hazard.Seeking
import Mathlib.Data.Finset.Card

/-!
A table that is reported exhausted is overcrowded. A claim looks at one record after the other, so there
need not be a moment at which all of them are owned. But each of them was owned when the claim came to
it, and at some moment more threads than there are records were at the table.
-/

namespace LockFreeStack

variable {α : Type} {m : Memory α} {me : Thread} {p q : Point α} {t : Nat}

namespace Claiming

/-- The record that a claim has come to. -/
def Point.level : Point → Nat
  | check _ => 0
  | probe k | seize k => k

/-- A claim passes an owned record only. -/
theorem level_of_next {tb : Table} {token : Nat} {a b : Point}
    (h : (step (α := α) tb token a).next = .goto b) :
    b.level = a.level ∨ b.level = a.level + 1 ∧ ∀ r, tb.records[a.level]? = some r → r.owner ≠ 0 := by
  cases a with
  | check k =>
    simp only [step] at h
    repeat' split at h
    all_goals cases h
    · exact .inl rfl
    · exact .inl rfl
  | probe k =>
    simp only [step] at h
    split at h
    · cases h
    · rename_i r hr
      split at h
      · cases h
      · split at h <;> cases h
        · exact .inl rfl
        · rename_i ho
          exact .inr ⟨rfl, fun r' hr' => Option.some.inj (hr.symm.trans hr') ▸ ho⟩
  | seize k =>
    simp only [step] at h
    split at h
    · rename_i hr
      cases h
      exact .inr ⟨rfl, fun r' hr' => by cases hr.symm.trans hr'⟩
    · rename_i r hr
      split at h <;> cases h
      rename_i ho
      exact .inr ⟨rfl, fun r' hr' => Option.some.inj (hr.symm.trans hr') ▸ ho⟩

end Claiming

namespace Hazard.Crowd

variable {x : Crowd α} {i j k n : Nat} {c : Call α} {ms ds : List (Move α)} {mv : Move α}
  {a b : Claiming.Point}

/-- The next step of thread `j` takes its claim past the record `k` of the table. -/
def Passes (x : Crowd α) (t k j : Nat) : Prop :=
  ∃ a, x.claims? j = some (t, a) ∧ a.level = k ∧
    ∀ r, x.memory.tables.record? ⟨t, k⟩ = some r → r.owner ≠ 0

theorem claims?_move (h : (x.move mv).claims? j = some (t, b)) :
    b.level = 0 ∨ ∃ a, x.claims? j = some (t, a) ∧
      (b.level = a.level ∨ b.level = a.level + 1 ∧ mv = .step j ∧ x.Passes t a.level j) := by
  have move := x.becomes j mv
  rw [claims?, point] at h
  generalize (x.move mv).me j = me, (x.move mv).busy j = o at move h
  cases move with
  | rests => exact .inr ⟨b, h, .inl rfl⟩
  | calls c p idle starts => simp [starts.plain] at h
  | steps c p busy =>
    simp only [Option.map_map] at h
    obtain ⟨q, hq, hb⟩ := Option.bind_eq_some_iff.mp h
    replace hq : (Operation.step (x.memory, x.me j) p).next.point? = some q := by simpa using hq
    obtain rfl | ⟨a, tb, ha, ht, hn⟩ := (Operation.leads_of_point? hq).claiming? hb
    · exact .inl rfl
    · have here : x.claims? j = some (t, a) := by rw [claims?, point_of_busy busy]; exact ha
      obtain same | ⟨next, owned⟩ := Claiming.level_of_next hn
      · exact .inr ⟨a, here, .inl same⟩
      · refine .inr ⟨a, here, .inr ⟨next, rfl, a, here, rfl, fun r hr => owned r ?_⟩⟩
        simpa only [Tables.record?, ht] using hr
  | misses c p q m busy missed =>
    simp [Point.plain_of_not_onRecords (Point.not_onRecords_of_miss missed)] at h

/-- Thread `j` owns the record `k` of the table or a later one, or its claim has come to one. -/
def Beyond (x : Crowd α) (t k j : Nat) : Prop :=
  (∃ l r, k ≤ l ∧ x.memory.tables.record? ⟨t, l⟩ = some r ∧ r.owner = j + 1) ∨
    ∃ a, x.claims? j = some (t, a) ∧ k ≤ a.level

/-- Nobody gets beyond a record without passing it. -/
theorem beyond_of_move (o : x.Orderly) (ht : t < x.memory.tables.size)
    (h : (x.move mv).Beyond t (k + 1) j) :
    x.Beyond t (k + 1) j ∨ mv = .step j ∧ x.Passes t k j := by
  obtain ⟨l, r', hl, hr', owner⟩ | ⟨b, hb, hl⟩ := h
  · obtain ⟨r, hr, changes⟩ | ⟨-, hsize, -⟩ := record_of_move o mv hr'
    · left
      cases changes with
      | same => exact .inl ⟨l, _, hl, hr, owner⟩
      | store i a _ _ _ => exact .inl ⟨l, r, hl, hr, owner⟩
      | disown i => cases owner
      | seize i _ hc _ =>
        obtain rfl : i = j := Nat.succ.inj owner
        exact .inr ⟨_, hc, hl⟩
    · exact absurd ht (Nat.not_lt.mpr hsize)
  · obtain h0 | ⟨a, ha, same | ⟨next, hmv, hp⟩⟩ := claims?_move hb
    · omega
    · exact .inl (.inr ⟨a, ha, same ▸ hl⟩)
    · by_cases hk : k + 1 ≤ a.level
      · exact .inl (.inr ⟨a, ha, hk⟩)
      · obtain rfl : a.level = k := by omega
        exact .inr ⟨hmv, hp⟩

theorem Beyond.mono (h : x.Beyond t (k + 1) j) : x.Beyond t k j := by
  obtain ⟨l, r, hl, h⟩ | ⟨a, ha, hl⟩ := h
  · exact .inl ⟨l, r, by omega, h⟩
  · exact .inr ⟨a, ha, by omega⟩

theorem Passes.beyond (h : x.Passes t k j) : x.Beyond t k j := by
  obtain ⟨a, ha, rfl, -⟩ := h
  exact .inr ⟨a, ha, Nat.le_refl _⟩

/-- The owner of a record claims no other one of its table. -/
theorem Orderly.claims?_ne (o : x.Orderly) {r : Record} (hr : x.memory.tables.record? ⟨t, k⟩ = some r)
    (owner : r.owner = j + 1) : x.claims? j ≠ some (t, a) := by
  intro ha
  obtain ⟨p, hp, ha⟩ := Option.bind_eq_some_iff.mp ha
  obtain ⟨purpose, rfl⟩ := Point.exists_acquire ha
  have s := o.seated j
  rw [hp] at s
  exact s.lacks_records hr (owner.trans (o.token j).symm) rfl

theorem Orderly.not_beyond (o : x.Orderly) (one : x.memory.tables.OneEach) {r : Record}
    (hr : x.memory.tables.record? ⟨t, k⟩ = some r) (owner : r.owner = j + 1) : ¬x.Beyond t (k + 1) j := by
  rintro (⟨l, r', hl, hr', owner'⟩ | ⟨a, ha, -⟩)
  · obtain ⟨⟩ := one _ _ r r' hr hr' (owner.trans owner'.symm) (by omega) rfl
    omega
  · exact o.claims?_ne hr owner ha

/-- There is room for everybody beyond the record `k`, on a table of `n` records. -/
def Roomy (x : Crowd α) (t n k : Nat) : Prop :=
  ∀ S : Finset Nat, (∀ j ∈ S, x.Beyond t k j) → S.card + k ≤ n

/-- Whoever passes a record leaves its owner behind. -/
theorem Roomy.passed (roomy : x.Roomy t n k) (o : x.Orderly) (one : x.memory.tables.OneEach)
    (ht : t < x.memory.tables.size) (hk : k < (x.memory.table t).capacity) (pass : x.Passes t k j) :
    (x.move (.step j)).Roomy t n (k + 1) := by
  intro S hS
  obtain ⟨r, hr⟩ := Option.isSome_iff_exists.mp ((isSome_record? x.memory t k).mpr hk)
  obtain ⟨g, hg⟩ : ∃ g, r.owner = g + 1 := by
    obtain ⟨a, -, -, owned⟩ := pass
    exact Nat.exists_eq_succ_of_ne_zero (owned r hr)
  have old : ∀ l ∈ S, x.Beyond t k l := fun l hl => by
    obtain h | ⟨-, h⟩ := beyond_of_move o ht (hS l hl)
    · exact h.mono
    · exact h.beyond
  have left : g ∉ S := fun hgS => by
    obtain h | ⟨-, a, ha, -⟩ := beyond_of_move o ht (hS g hgS)
    · exact o.not_beyond one hr hg h
    · exact o.claims?_ne hr hg ha
  have hcard := roomy (insert g S) fun l hl => by
    obtain rfl | hl := Finset.mem_insert.mp hl
    · exact .inl ⟨k, r, Nat.le_refl _, hr, hg⟩
    · exact old l hl
  rw [Finset.card_insert_of_notMem left] at hcard
  omega

theorem Roomy.still (roomy : x.Roomy t n (k + 1)) (o : x.Orderly) (ht : t < x.memory.tables.size)
    (still : ∀ j, mv = .step j → ¬x.Passes t k j) : (x.move mv).Roomy t n (k + 1) :=
  fun S hS => roomy S fun j hj => (beyond_of_move o ht (hS j hj)).resolve_right fun ⟨h, pass⟩ => still j h pass

/-- As long as there is room for everybody at the table, there is room beyond each record that the claim
of thread `i` has passed. -/
theorem Roomy.move (roomy : ∀ a, x.claims? i = some (t, a) → ∀ k ≤ a.level, k ≤ n → x.Roomy t n k)
    (o : x.Orderly) (one : x.memory.tables.OneEach) (ht : t < x.memory.tables.size)
    (hn : (x.memory.table t).capacity = n) (all : (x.move mv).Roomy t n 0)
    (hb : (x.move mv).claims? i = some (t, b)) (hk : k ≤ b.level) (hkn : k ≤ n) :
    (x.move mv).Roomy t n k := by
  cases k with
  | zero => exact all
  | succ k =>
    obtain h0 | ⟨a, ha, h⟩ := claims?_move hb
    · omega
    · by_cases still : ∀ j, mv = .step j → ¬x.Passes t k j
      · refine (roomy a ha (k + 1) ?_ hkn).still o ht still
        obtain same | ⟨next, hmv, pass⟩ := h
        · omega
        · -- The claim of `i` itself has not passed the record `k`.
          have hne : a.level ≠ k := by
            rintro rfl
            exact still i hmv pass
          omega
      · push Not at still
        obtain ⟨j, rfl, pass⟩ := still
        exact (roomy a ha k (by omega) (by omega)).passed o one ht (by omega) pass

/-- The threads in the middle of the call that thread `i` makes after the moves `ms`, after the moves
`ds` of it and the others. -/
def during (ms : List (Move α)) (i : Nat) (c : Call α) (ds : List (Move α)) : Crowd α :=
  after (ms ++ .call i c :: ds)

theorem during_snoc (ms : List (Move α)) (i : Nat) (c : Call α) (ds : List (Move α)) (mv : Move α) :
    during ms i c (ds ++ [mv]) = (during ms i c ds).move mv := by
  rw [during, during, ← List.cons_append, after_append_snoc]

/-- Thread `i` makes the call `c` after the moves `ms`, is in it during the moves `ds`, and reports an
exhausted table of `n` records with its next step. -/
structure Refused (ms : List (Move α)) (i : Nat) (c : Call α) (ds : List (Move α)) (n : Nat) : Prop where
  idle : (after ms).busy i = none
  within : ∀ d, d <+: ds → (during ms i c d).busy i ≠ none
  reports : (during ms i c ds).exhausts? i = some n

/-- Thread `j` owns a record of the table or is claiming one. -/
def Engaged (x : Crowd α) (t j : Nat) : Prop :=
  (∃ k r, x.memory.tables.record? ⟨t, k⟩ = some r ∧ r.owner = j + 1) ∨ ∃ a, x.claims? j = some (t, a)

theorem beyond_zero_iff : x.Beyond t 0 j ↔ x.Engaged t j := by
  simp [Beyond, Engaged]

/-- What thread `i` is told with an exhausted table of `n` records. The instants at which its claim finds
them owned come in the order of the records. -/
structure Overcrowded (ms : List (Move α)) (i : Nat) (c : Call α) (ds : List (Move α)) (n t : Nat) : Prop where
  seeks : c.Seeks (after ms).memory t
  capacity : ((after ms).memory.table t).capacity = n
  taken : ∃ seen : Nat → Nat, Monotone seen ∧ ∀ k < n, seen k ≤ ds.length ∧
    ∃ r, (during ms i c (ds.take (seen k))).memory.tables.record? ⟨t, k⟩ = some r ∧
      r.owner ≠ 0 ∧ r.owner ≠ i + 1
  crowd : ∃ d, d <+: ds ∧ ∃ S : Finset Nat, n < S.card ∧ ∀ j ∈ S, (during ms i c d).Engaged t j

/-- Each of the first `k` records was owned by another thread at some instant of the call. -/
def Met (ms : List (Move α)) (i : Nat) (c : Call α) (ds : List (Move α)) (n t k : Nat) : Prop :=
  ∃ seen : Nat → Nat, Monotone seen ∧ (∀ j, seen j ≤ ds.length) ∧ ∀ j < k, j < n →
    ∃ r, (during ms i c (ds.take (seen j))).memory.tables.record? ⟨t, j⟩ = some r ∧
      r.owner ≠ 0 ∧ r.owner ≠ i + 1

namespace Met

theorem zero : Met ms i c ds n t 0 :=
  ⟨fun _ => 0, fun _ _ _ => Nat.le_refl _, fun _ => Nat.zero_le _, fun _ h => absurd h (Nat.not_lt_zero _)⟩

theorem snoc (h : Met ms i c ds n t k) (mv : Move α) : Met ms i c (ds ++ [mv]) n t k := by
  obtain ⟨seen, mono, le, met⟩ := h
  refine ⟨seen, mono, fun j => (le j).trans (by simp), fun j hj hn => ?_⟩
  rw [List.take_append_of_le_length (le j)]
  exact met j hj hn

theorem next (h : Met ms i c ds n t k)
    (here : k < n → ∃ r, (during ms i c ds).memory.tables.record? ⟨t, k⟩ = some r ∧
      r.owner ≠ 0 ∧ r.owner ≠ i + 1) : Met ms i c ds n t (k + 1) := by
  obtain ⟨seen, mono, le, met⟩ := h
  refine ⟨fun j => if j < k then seen j else ds.length, fun j l hjl => ?_, fun j => ?_, fun j hj hn => ?_⟩
  · by_cases hl : l < k
    · simpa only [if_pos hl, if_pos (hjl.trans_lt hl)] using mono hjl
    · simp only [if_neg hl]
      split
      · exact le j
      · exact Nat.le_refl _
  · simp only
    split
    · exact le j
    · exact Nat.le_refl _
  · by_cases hjk : j < k
    · simpa only [if_pos hjk] using met j hjk hn
    · obtain rfl : j = k := by omega
      simpa only [if_neg hjk, List.take_length] using here hn

end Met

/-- A claim has found what it has passed owned by others. -/
theorem met_during (idle : (after ms).busy i = none) (ht : t < (after ms).memory.tables.size)
    (hn : ((after ms).memory.table t).capacity = n) (ds : List (Move α)) (a : Claiming.Point)
    (ha : (during ms i c ds).claims? i = some (t, a)) : Met ms i c ds n t a.level := by
  induction ds using List.reverseRecOn generalizing a with
  | nil =>
    rw [during, after_append_singleton] at ha
    obtain h0 | ⟨b, hb, -⟩ := claims?_move ha
    · exact h0 ▸ .zero
    · simp [claims?, Crowd.point, idle] at hb
  | append_singleton ds mv ih =>
    rw [during_snoc] at ha
    obtain h0 | ⟨b, hb, same | ⟨next, -, a', ha', -, owned⟩⟩ := claims?_move ha
    · exact h0 ▸ .zero
    · exact same ▸ (ih b hb).snoc mv
    · refine next ▸ ((ih b hb).next fun hk => ?_).snoc mv
      have hcap : b.level < ((during ms i c ds).memory.table t).capacity := by
        rw [during, capacity_append ht, hn]
        exact hk
      obtain ⟨r, hr⟩ := Option.isSome_iff_exists.mp ((isSome_record? _ t b.level).mpr hcap)
      exact ⟨r, hr, owned r hr, fun ho => (orderly_after _).claims?_ne hr ho hb⟩

/-- With room for everybody at the table all through the call there is room for thread `i`. -/
theorem roomy_during (idle : (after ms).busy i = none) (ht : t < (after ms).memory.tables.size)
    (hn : ((after ms).memory.table t).capacity = n)
    (all : ∀ d, d <+: ds → (during ms i c d).Roomy t n 0) (d : List (Move α)) (hd : d <+: ds)
    (a : Claiming.Point) (ha : (during ms i c d).claims? i = some (t, a)) (k : Nat) (hk : k ≤ a.level)
    (hkn : k ≤ n) : (during ms i c d).Roomy t n k := by
  induction d using List.reverseRecOn generalizing a k with
  | nil =>
    rw [during, after_append_singleton] at ha
    obtain h0 | ⟨b, hb, -⟩ := claims?_move ha
    · obtain rfl : k = 0 := by omega
      exact all [] List.nil_prefix
    · simp [claims?, Crowd.point, idle] at hb
  | append_singleton d mv ih =>
    have before := ih ((List.prefix_append d [mv]).trans hd)
    have all := all _ hd
    rw [during_snoc] at ha all ⊢
    refine Roomy.move before (orderly_after _) (oneEach_after _) ?_ ?_ all ha hk hkn
    · exact ht.trans_le (size_le_append ms _)
    · rw [during, capacity_append ht, hn]

namespace Refused

theorem started (h : Refused ms i c ds n) : ∃ p, c.Starts (after ms).memory ((after ms).me i) p ∧
    (during ms i c []).busy i = some (c, p) := by
  have inside := h.within [] List.nil_prefix
  have moves := (after ms).moves (.call i c)
  rw [during, after_append_singleton] at inside ⊢
  generalize (after ms).move (.call i c) = y at moves inside ⊢
  cases moves with
  | stay => exact absurd h.idle inside
  | call i c p idle starts => exact ⟨p, starts, by simp [set]⟩

theorem busy (h : Refused ms i c ds n) {d : List (Move α)} (hd : d <+: ds) :
    ∃ p, (during ms i c d).busy i = some (c, p) := by
  induction d using List.reverseRecOn with
  | nil =>
    obtain ⟨p, -, hp⟩ := h.started
    exact ⟨p, hp⟩
  | append_singleton d mv ih =>
    obtain ⟨p, hp⟩ := ih ((List.prefix_append d [mv]).trans hd)
    have inside := h.within _ hd
    rw [during_snoc] at inside ⊢
    exact (busy_move hp mv).resolve_left inside

theorem target (h : Refused ms i c ds n) :
    ∃ t l, c.Seeks (after ms).memory t ∧ t < (after ms).memory.tables.size ∧
      ((after ms).memory.table t).capacity = n ∧
      (during ms i c ds).claims? i = some (t, .probe l) ∧ n ≤ l := by
  obtain ⟨p, starts, -⟩ := h.started
  have k : (during ms i c ds).Seeking := seeking_after _
  obtain ⟨c', t, purpose, l, hb, seeks, -, hn, hl⟩ := k.probe_of_exhausts? (orderly_after _) h.reports
  obtain ⟨q, hq⟩ := h.busy (List.prefix_refl ds)
  obtain ⟨rfl, -⟩ := Prod.mk.inj (Option.some.inj (hb.symm.trans hq))
  obtain ⟨t', seeks', ht'⟩ := starts.seeks (seeking_after ms).placed seeks
  obtain rfl := (seeks'.mono (grows_append ms _)).unique seeks
  rw [during, capacity_append ht'] at hn
  refine ⟨t', l, seeks', ht', hn.symm, ?_, hl⟩
  rw [claims?, point_of_busy hb]
  rfl

end Refused

/-- An exhausted table is overcrowded. -/
theorem overcrowded_of_refused (h : Refused ms i c ds n) : ∃ t, Overcrowded ms i c ds n t := by
  obtain ⟨t, l, seeks, ht, hn, ha, hl⟩ := h.target
  refine ⟨t, seeks, hn, ?taken, ?crowd⟩
  case taken =>
    obtain ⟨seen, mono, le, met⟩ := met_during h.idle ht hn ds _ ha
    exact ⟨seen, mono, fun k hk => ⟨le k, met k (hk.trans_le hl) hk⟩⟩
  case crowd =>
    by_contra few
    have all (d : List (Move α)) (hd : d <+: ds) : (during ms i c d).Roomy t n 0 := fun S hS => by
      by_contra large
      exact few ⟨d, hd, S, by omega, fun j hj => beyond_zero_iff.mp (hS j hj)⟩
    have roomy := roomy_during h.idle ht hn all ds (List.prefix_refl ds) _ ha n hl (Nat.le_refl n)
    have := roomy {i} fun j hj => by
      obtain rfl := Finset.mem_singleton.mp hj
      exact .inr ⟨_, ha, hl⟩
    simp at this

/-- Thread 0 owns the first of two records, and thread 1 has passed it. -/
def ahead : List (Move Unit) :=
  .change (.registry 2) :: .call 0 (.register 0 "a") :: List.replicate 7 (.step 0) ++
    .call 1 (.register 0 "b") :: List.replicate 6 (.step 1)

/-- Thread 2 passes the first record too. Then thread 0 gives it back before thread 1 takes the second. -/
def overtaking : List (Move Unit) :=
  List.replicate 6 (.step 2) ++ .call 0 (.dropSlot "a") :: List.replicate 3 (.step 0) ++
    [.step 1, .step 1, .step 2]

theorem refused_overtaking : Refused ahead 2 (.register 0 "c") overtaking 2 := by
  have inside : ∀ d ∈ overtaking.inits, ((during ahead 2 (.register 0 "c") d).busy 2).isSome := by
    decide +kernel
  refine ⟨?_, fun d hd => ?_, by decide +kernel⟩
  · exact Option.isNone_iff_eq_none.mp (by decide +kernel)
  · exact Option.isSome_iff_ne_none.mp (inside d ((List.mem_inits _ _).mpr hd))

theorem overcrowded_overtaking :
    Refused ahead 2 (.register 0 "c") overtaking 2 ∧ Overcrowded ahead 2 (.register 0 "c") overtaking 2 0 := by
  obtain ⟨t, h⟩ := overcrowded_of_refused refused_overtaking
  obtain rfl : 0 = t := h.seeks
  exact ⟨refused_overtaking, h⟩

/-- A table may be reported exhausted without a moment in the whole call at which all its records are
owned. -/
theorem exhausted_but_never_full :
    ¬∀ (ms ds : List (Move Unit)) (i n t : Nat) (c : Call Unit), Refused ms i c ds n →
      c.Seeks (after ms).memory t → ((after ms).me i).Lacks t →
      ∃ d, d <+: ds ∧ ∀ k < n, ∃ r,
        (during ms i c d).memory.tables.record? ⟨t, k⟩ = some r ∧ r.owner ≠ 0 := by
  intro full
  have lacks : ((after ahead).me 2).Lacks 0 := by
    intro c place hc
    have size : ((after ahead).me 2).claims.size = 0 := by decide +kernel
    exact absurd (Thread.lt_size_of_isLive hc) (by omega)
  have free : ∀ d ∈ overtaking.inits, ∃ k < 2,
      ((during ahead 2 (.register 0 "c") d).memory.tables.record? ⟨0, k⟩).map Record.owner = some 0 := by
    decide +kernel
  obtain ⟨d, hd, owned⟩ := full ahead overtaking 2 2 0 _ refused_overtaking rfl lacks
  obtain ⟨k, hk, h0⟩ := free d ((List.mem_inits _ _).mpr hd)
  obtain ⟨r, hr, hne⟩ := owned k hk
  rw [hr] at h0
  exact hne (Option.some.inj h0)

end Hazard.Crowd

end LockFreeStack
