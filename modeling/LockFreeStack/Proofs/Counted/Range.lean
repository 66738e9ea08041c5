import LockFreeStack.Pair.Packing
import LockFreeStack.Proofs.Counted.Ledger
import LockFreeStack.Proofs.Pair.Words

/-!
How large counts can get. Every count is bounded by the number of times that the count of a head
has been raised so far, and the null pair at the bottom of the chain counts those of them that found
the stack empty. From this follows how many raises it takes until a word is too small.
-/

namespace LockFreeStack

section Words

variable {n k : Int64} {z : Int} {b : Nat}

/-- A word of an integer is no further from zero than the integer. -/
theorem toInt_ofInt_within (hl : -(b : Int) ≤ z) (hr : z ≤ b) :
    -(b : Int) ≤ (Int64.ofInt z).toInt ∧ (Int64.ofInt z).toInt ≤ b := by
  have hlow := (Int64.ofInt z).le_toInt
  have hhigh := (Int64.ofInt z).toInt_lt
  by_cases h : -2 ^ 63 ≤ z ∧ z < 2 ^ 63
  · rw [Int64.toInt_ofInt_of_le h.1 h.2]
    exact ⟨hl, hr⟩
  · omega

theorem toInt_add_of_range (hl : -2 ^ 63 ≤ n.toInt + k.toInt) (hr : n.toInt + k.toInt < 2 ^ 63) :
    (n + k).toInt = n.toInt + k.toInt := by
  rw [Int64.toInt_add]
  exact Int.bmod_eq_of_le (by omega) (by omega)

theorem toInt_sub_one (h : -2 ^ 63 < n.toInt) : (n - 1).toInt = n.toInt - 1 := by
  have hlt := n.toInt_lt
  rw [Int64.toInt_sub, Int64.toInt_one]
  exact Int.bmod_eq_of_le (by omega) (by omega)

theorem toInt_neg_of_nonneg (h : 0 ≤ n.toInt) : (-n).toInt = -n.toInt := by
  have hlt := n.toInt_lt
  rw [Int64.toInt_neg]
  exact Int.bmod_eq_of_le (by omega) (by omega)

end Words

/-- The surplus of a pair that counts two references at least. -/
structure Pair.Folded {ρ : Type} (p : Pair ρ) (more : Int64) : Prop where
  surplus : p.surplus = .ok more
  count : p.count.toInt64.toInt = p.count.toNat
  exact : more.toInt = p.count.toNat - 2
  nonneg : 0 ≤ more.toInt
  negated : (-more).toInt = -more.toInt

theorem Pair.exists_folded {ρ : Type} {p : Pair ρ} (two : 2 ≤ p.count.toNat)
    (half : p.count.toNat < 2 ^ 63) : ∃ more, p.Folded more := by
  obtain ⟨more, hs, -⟩ := Pair.folds_of_lt half
  have hmore : more.toInt = p.count.toNat - 2 := by
    rw [Pair.surplus_eq_ofInt hs, Int64.toInt_ofInt_of_le (by omega) (by omega)]
  have hcount : p.count.toInt64.toInt = p.count.toNat := by
    rw [← UInt64.ofNat_toNat (x := p.count), UInt64.toInt64_ofNat',
      Int64.toInt_ofNat_of_lt (by simpa using half)]
    simp
  have hnonneg : 0 ≤ more.toInt := by omega
  exact ⟨more, hs, hcount, hmore, hnonneg, toInt_neg_of_nonneg hnonneg⟩

/-- The word of an address when the `k`-th place lies at `place k`. -/
def Address.placed (place : Nat → UInt64) : Address → UInt64
  | null => 0
  | number w => w
  | node k => place k

def Pair.placed (place : Nat → UInt64) (p : Pair Address) : Pair UInt64 :=
  ⟨p.count, p.address.placed place⟩

namespace Counted

variable {ι α : Type}

namespace Point

/-- What an exchange of the head expects, and what it brings. -/
theorem exchange_cases {m : Store α} {p : Point α} {expected new : Pair Address} {success : Bool}
    {found : Head}
    (h : .action (.headCas (.pair expected) (.pair new) success found) ∈ (p.step m).notes) :
    expected ∈ p.pairs ∧ (new ∈ p.pairs ∨ new.count = 1 ∧ p.fresh? = some new.address ∨
      expected.bump = .ok new) := by
  obtain (⟨_, granted⟩ | _ | ⟨node, seen⟩) | (_ | seen | _ | ⟨held, next⟩ | _ | _ | ⟨node, v⟩ | _ | ⟨node, now⟩) := p
  case push.allocate => cases granted <;> simp [step, Push.step, Outcome.within] at h
  case push.link =>
    simp only [step, Push.step] at h
    repeat' split at h
    all_goals simp [Outcome.within, exchanged] at h
    all_goals
      obtain ⟨rfl, rfl, -⟩ := h
      exact ⟨by simp [pairs], .inr (.inl ⟨rfl, rfl⟩)⟩
  case pop.bump =>
    cases hb : seen.bump with
    | error e => simp [step, Pop.step, hb, Outcome.within] at h
    | ok held =>
      obtain ⟨rfl, rfl⟩ : expected = seen ∧ new = held := by
        by_cases hs : m.head = seen <;> simp [step, Pop.step, hb, hs, Outcome.within, exchanged] at h <;>
          exact ⟨h.1, h.2.1⟩
      exact ⟨by simp [pairs], .inr (.inr hb)⟩
  case pop.detach =>
    obtain ⟨rfl, rfl⟩ : expected = held ∧ new = next := by
      by_cases hs : m.head = held <;> simp [step, Pop.step, hs, Outcome.within, exchanged] at h <;>
        exact ⟨h.1, h.2.1⟩
    exact ⟨by simp [pairs], .inl (by simp [pairs])⟩
  case pop.release | pop.releaseLate =>
    simp only [step, Pop.step] at h
    split at h
    · cases node <;> simp [Outcome.within, Address.freed] at h
    · simp [Outcome.within] at h
  all_goals
    simp only [step, Push.step, Pop.step] at h
    repeat' split at h
    all_goals simp [Outcome.within] at h

/-- How the next step leaves the head, and what it does below the head when it moves it. -/
inductive Heads (m : Store α) (p : Point α) : Prop where
  | stay (head : (p.step m).memory.head = m.head) (raised : p.raised? m = none)
  | link (node : Address) (hp : p = push (.link node m.head))
    (head : (p.step m).memory.head = ⟨1, node⟩)
    (below : (p.step m).memory.nodes.beneath? ⟨1, node⟩ = some m.head)
  | raise (hb : m.head.bump = .ok (p.step m).memory.head) (raised : p.raised? m = some m.head.address)
    (nodes : (p.step m).memory.nodes = m.nodes)
  | detach (next : Pair Address) (hp : p = pop (.detach m.head next))
    (head : (p.step m).memory.head = next) (nodes : (p.step m).memory.nodes = m.nodes)

theorem heads (p : Point α) (m : Store α) : p.Heads m := by
  obtain (⟨_, granted⟩ | _ | ⟨node, seen⟩) | (_ | seen | _ | ⟨held, next⟩ | _ | _ | _ | _ | _) := p
  case push.allocate => cases granted <;> exact .stay rfl rfl
  case push.link =>
    cases hn : m.nodes.counted? node with
    | none => exact .stay (by simp [step, Push.step, hn, Outcome.within]) rfl
    | some y =>
      by_cases hs : m.head = seen
      · subst hs
        refine .link node rfl (by simp [step, Push.step, hn, Outcome.within]) ?_
        have hy : m.nodes.beneath? ⟨1, node⟩ = some y.2.1 := by simp [Nodes.beneath?, hn]
        simp [step, Push.step, hn, Outcome.within, Nodes.beneath?_setPair, hy]
      · exact .stay (by simp [step, Push.step, hn, hs, Outcome.within]) rfl
  case pop.bump =>
    cases hb : seen.bump with
    | error e => exact .stay (by simp [step, Pop.step, hb, Outcome.within]) (by simp [raised?, hb])
    | ok held =>
      by_cases hs : m.head = seen
      · subst hs
        have hm : (step m (.pop (.bump m.head))).memory = ⟨m.nodes, held⟩ := by
          simp [step, Pop.step, hb, Outcome.within]
        exact .raise (by rw [hm, hb]) (by simp [raised?, hb]) (by rw [hm])
      · exact .stay (by simp [step, Pop.step, hb, hs, Outcome.within]) (by simp [raised?, hb, hs])
  case pop.detach =>
    by_cases hs : m.head = held
    · subst hs
      have hm : (step m (.pop (.detach m.head next))).memory = ⟨m.nodes, next⟩ := by
        simp [step, Pop.step, Outcome.within]
      exact .detach next rfl (by rw [hm]) (by rw [hm])
    · exact .stay (by simp [step, Pop.step, hs, Outcome.within]) rfl
  all_goals
    refine .stay ?_ rfl
    simp only [step, Push.step, Pop.step]
    repeat' split
    all_goals rfl

end Point

namespace Crowd

variable [DecidableEq ι] {x : Crowd ι α} {mv : Move ι α} {i : ι} {p : Point α} {q : Pair Address}
  {a : Address} {log : List Address}

def raises (x : Crowd ι α) (mv : Move ι α) : List Address := (x.raised? mv).toList

/-- The addresses under the heads whose counts the moves have raised. -/
def bumps (ms : List (Move ι α)) : List Address := (play move raises start ms).2

section Bottom

variable [Fintype ι] {stage : Address → Stage ι} {l : List (Pair Address)} {count : UInt64}

omit [DecidableEq ι] in
/-- A step leaves what is below the linked nodes as it is. -/
theorem Sound.beneath?_step (s : x.Sound stage l) (hp : x.point i = some p) (hq : q ∈ l) :
    (p.step x.store).memory.nodes.beneath? q = x.store.nodes.beneath? q := by
  have hlinked := (s.linked q).mp hq
  have apart {a : Address} {st : Stage ι} (ha : stage a = st) (hst : st ≠ .linked q.count) :
      q.address ≠ a := by
    rintro rfl
    exact hst (ha.symm.trans hlinked)
  obtain (⟨w, granted⟩ | _ | ⟨node, seen⟩) | (_ | _ | _ | _ | _ | _ | ⟨node, w⟩ | _ | ⟨node, now⟩) := p
  case push.allocate =>
    cases granted with
    | false => rfl
    | true =>
      have hfree : stage (.node x.store.nodes.next) = .free := by
        by_contra hne
        simpa [Nodes.counted?_next] using (s.live _).mp hne
      exact (Nodes.beneath?_alloc ..).trans (if_neg (apart hfree (by simp)))
  case push.link =>
    have hne : q.address ≠ node := apart (((s.stands i).fresh node).mpr (by simp [hp, Point.fresh?])) (by simp)
    simp only [Point.step, Push.step]
    repeat' split
    · rfl
    all_goals exact (Nodes.beneath?_setPair ..).trans (if_neg hne)
  case pop.release | pop.releaseLate =>
    have hne : q.address ≠ node := apart (((s.stands i).spent node).mpr (by simp [hp, Point.spent?])) (by simp)
    simp only [Point.step, Pop.step]
    split
    · exact (Nodes.beneath?_release ..).trans (if_neg hne)
    · rfl
  all_goals
    simp only [Point.step, Push.step, Pop.step]
    repeat' split
    all_goals simp [Outcome.within]

omit [DecidableEq ι] in
/-- The chain still ends with the null pair that it ended with, whose count goes up when the head is
that pair and is raised. -/
theorem Sound.bottom_step (s : x.Sound stage l) (hp : x.point i = some p)
    (path : Path x.store.nodes.beneath? x.store.head l ⟨count, .null⟩) :
    ∃ l' count', Path (p.step x.store).memory.nodes.beneath? (p.step x.store).memory.head l'
        ⟨count', .null⟩ ∧
      count'.toNat = count.toNat + (p.raised? x.store).toList.count .null := by
  have same : Path (p.step x.store).memory.nodes.beneath? x.store.head l ⟨count, .null⟩ :=
    path.congr fun q hq => s.beneath?_step hp hq
  cases p.heads x.store with
  | stay head raised => exact ⟨l, count, head ▸ same, by simp [raised]⟩
  | link node hp' head below =>
    exact ⟨_, count, by rw [head]; exact .cons below same, by simp [hp', Point.raised?]⟩
  | raise hb raised nodes =>
    obtain ⟨haddr, hcount⟩ := Pair.bump_eq_ok hb
    generalize (p.step x.store).memory.head = held at *
    by_cases hnull : x.store.head.address = .null
    · obtain rfl := s.chain_nil hnull
      have hend : x.store.head = ⟨count, .null⟩ := Path.nil_iff.mp path
      refine ⟨[], held.count, Path.nil_iff.mpr (Pair.ext rfl (haddr.trans hnull)), ?_⟩
      simp [raised, hcount, hend]
    · obtain ⟨next, l₁, rfl, hn, rest⟩ := same.exists_cons fun e => hnull (by rw [e])
      have hn' : (p.step x.store).memory.nodes.beneath? held = some next := by
        rw [← hn, Nodes.beneath?, Nodes.beneath?, haddr]
      exact ⟨held :: l₁, count, .cons hn' rest, by simp [raised, hnull]⟩
  | detach next hp' head nodes =>
    have hread := (s.stands i).next x.store.head next (by rw [hp, hp'])
    have hnull : x.store.head ≠ ⟨count, .null⟩ := fun e => by
      rw [e] at hread
      cases hread
    obtain ⟨next', l₁, rfl, hn, rest⟩ := path.exists_cons hnull
    obtain rfl : next = next' := Option.some.inj (hread.symm.trans hn)
    exact ⟨l₁, count, by rw [head, nodes]; exact rest, by simp [hp', Point.raised?]⟩

theorem Sound.bottom_move (s : x.Sound stage l) (mv : Move ι α)
    (path : Path x.store.nodes.beneath? x.store.head l ⟨count, .null⟩) :
    ∃ l' count', Path (x.move mv).store.nodes.beneath? (x.move mv).store.head l' ⟨count', .null⟩ ∧
      count'.toNat = count.toNat + (x.raises mv).count .null := by
  cases mv with
  | call i c =>
    refine ⟨l, count, ?_, by simp [raises, raised?]⟩
    simp only [Crowd.move]
    split <;> exact path
  | step i =>
    cases hp : x.point i with
    | none => exact ⟨l, count, by simpa only [Crowd.move, hp] using path, by simp [raises, raised?, hp]⟩
    | some p =>
      have hb := s.bottom_step hp path
      rcases ho : p.step x.store with ⟨m, o | b | f, notes⟩
      · simpa [Crowd.move, raises, raised?, hp, ho, set] using hb
      · simpa [Crowd.move, raises, raised?, hp, ho, set] using hb
      · exact absurd ⟨p, f, hp, by rw [ho]⟩ (s.not_faults i)
  | miss i =>
    refine ⟨l, count, ?_, by simp [raises, raised?]⟩
    simp only [Crowd.move]
    split
    · rename_i node seen hp
      refine path.congr fun q hq => (Nodes.beneath?_setPair ..).trans (if_neg ?_)
      rintro rfl
      simpa [(s.fresh_node hp).1] using (s.linked q).mp hq
    · exact path
  | recycle k =>
    exact ⟨l, count, path.congr fun q _ => Nodes.beneath?_recycle _ q k, by simp [raises, raised?]⟩

end Bottom

section Ranged

variable [Fintype ι] {stage : Address → Stage ι} {l : List (Pair Address)}

/-- The counts are within what the addresses in the log, one for each raise of a count, allow. -/
structure Ranged (x : Crowd ι α) (stage : Address → Stage ι) (l : List (Pair Address))
    (log : List Address) : Prop where
  sound : x.Sound stage l
  pairs : ∀ q, x.Bears q → q.count.toNat ≤ log.length + 1
  targets : ∀ q, x.Bears q → q.address = .null ∨ ∃ k, q.address = .node k
  holders : ∀ a, x.holders a ≤ log.length
  lost : ∀ a c, stage a = .lost c → c.toNat ≤ log.length + 1
  bottom : ∀ count, Path x.store.nodes.beneath? x.store.head l ⟨count, .null⟩ →
    count.toNat = log.count .null

namespace Ranged

omit [DecidableEq ι] [Fintype ι] in
theorem bears_start (h : (start : Crowd ι α).Bears q) : q = ⟨0, .null⟩ := by
  obtain h | ⟨r, hr⟩ | ⟨j, p, hp, -⟩ := h
  · exact h
  · cases hr' : r.address <;>
      simp [Nodes.beneath?, hr', Crowd.start, Nodes.counted?, Nodes.at?, Heap.get?, Heap.empty] at hr
  · cases hp

omit [DecidableEq ι] in
theorem start : (start : Crowd ι α).Ranged (fun _ => .free) [] [] where
  sound := sound_start
  pairs q h := by
    rw [bears_start h]
    exact Nat.zero_le _
  targets q h := .inl (by rw [bears_start h])
  holders a := Nat.le_of_eq (sound_start.holders_eq_zero (a := a) id)
  lost := nofun
  bottom count path := by
    have hend : (⟨0, .null⟩ : Pair Address) = ⟨count, .null⟩ := Path.nil_iff.mp path
    obtain rfl : 0 = count := congrArg Pair.count hend
    rfl

theorem pairs_move (r : x.Ranged stage l log) (mv : Move ι α) (h : (x.move mv).Bears q) :
    q.count.toNat ≤ (log ++ x.raises mv).length + 1 := by
  rw [List.length_append]
  obtain h | ⟨h, -⟩ | ⟨hb, -, raised⟩ := bears_move mv h
  · exact (r.pairs q h).trans (by omega)
  · omega
  · have hhead := r.pairs x.store.head (.head rfl)
    have hcount := (Pair.bump_eq_ok hb).2
    have hone : (x.raises mv).length = 1 := by simp [raises, raised]
    omega

theorem targets_move (r : x.Ranged stage l log) (mv : Move ι α) (h : (x.move mv).Bears q) :
    q.address = .null ∨ ∃ k, q.address = .node k := by
  obtain h | ⟨-, hnull | ⟨i, p, hp, hf⟩⟩ | ⟨hb, -, -⟩ := bears_move mv h
  · exact r.targets q h
  · exact .inl hnull
  · have hfresh := ((r.sound.stands i).fresh q.address).mpr (by simp [hp, hf])
    exact .inr (r.sound.exists_node (by simp [hfresh]))
  · rw [(Pair.bump_eq_ok hb).1]
    exact r.targets x.store.head (.head rfl)

omit [DecidableEq ι] in
/-- A node that is lost now has been so before, or was in the hands of a pop with the pair's count. -/
theorem count_of_lost (r : x.Ranged stage l log) {c : UInt64} {i : ι} {st : Stage ι}
    (hst : stage a = st) (t : st.Leads i (.lost c)) : c.toNat ≤ log.length + 1 := by
  obtain - | - | - | - | t := t
  cases t with
  | stay => exact r.lost a c hst
  | lose h =>
    obtain ⟨p, hp, hpt⟩ := Option.bind_eq_some_iff.mp (((r.sound.stands i).taken a _).mp hst)
    exact r.pairs ⟨_, a⟩ (.point i p hp (Point.mem_pairs_of_taken? hpt))

theorem move (r : x.Ranged stage l log) (mv : Move ι α) :
    ∃ stage' l', (x.move mv).Ranged stage' l' (log ++ x.raises mv) := by
  obtain ⟨stage', l', s, -, leads⟩ := r.sound.move mv
  have pairs : ∀ q, (x.move mv).Bears q → q.count.toNat ≤ (log ++ x.raises mv).length + 1 :=
    fun q => r.pairs_move mv
  have grows : log.length ≤ (log ++ x.raises mv).length := by simp
  refine ⟨stage', l', s, pairs, fun q => r.targets_move mv, fun a => ?_, fun a c ha => ?_,
    fun count path => ?_⟩
  · by_cases h : (x.move mv).store.head.address = a ∧ a ≠ .null
    · obtain ⟨rfl, hne⟩ := h
      have hlt := s.holders_lt (s.head_mem hne)
      have hle := pairs _ (.head rfl)
      omega
    · have hle := holders_move_le mv fun e => not_not.mp fun hne => h ⟨e, hne⟩
      exact hle.trans ((r.holders a).trans grows)
  · by_cases hsame : stage' a = stage a
    · have hle := r.lost a c (hsame ▸ ha)
      omega
    · obtain ⟨i, -, t⟩ := leads a hsame
      have hle := r.count_of_lost rfl (ha ▸ t)
      omega
  · obtain ⟨count₀, path₀⟩ := r.sound.chain
    obtain ⟨l₁, count₁, path₁, hcount⟩ := r.sound.bottom_move mv path₀
    obtain ⟨-, he⟩ := path.unique rfl path₁ rfl
    obtain rfl : count = count₁ := congrArg Pair.count he
    rw [hcount, r.bottom count₀ path₀, List.count_append]

end Ranged

theorem ranged_run (ms : List (Move ι α)) : ∃ stage l, (run ms).1.Ranged stage l (bumps ms) := by
  have h : ∃ stage l, (play move raises (start : Crowd ι α) ms).1.Ranged stage l (bumps ms) :=
    play_induction (fun (x : Crowd ι α) log => ∃ stage l, x.Ranged stage l log) ⟨_, _, .start⟩
      (fun _ _ mv ⟨_, _, r⟩ => r.move mv) ms
  rwa [play_fst moments ms] at h

/-- Everything that a thread is about to do with counts comes out as it would with integers, and it
is not about to panic. -/
structure Exact (x : Crowd ι α) (p : Point α) : Prop where
  bump : ∀ seen, p = .pop (.bump seen) →
    ∃ held, seen.bump = .ok held ∧ held.count.toNat = seen.count.toNat + 1
  fold : ∀ held v, p = .pop (.fold held v) →
    ∃ w next before more, x.store.nodes.counted? held.address = some (w, next, before) ∧
      held.Folded more ∧ (before + more).toInt = before.toInt + more.toInt
  giveBack : ∀ held now, p = .pop (.giveBack held now) →
    ∃ w next before, x.store.nodes.counted? held.address = some (w, next, before) ∧
      (before - 1).toInt = before.toInt - 1
  calm : ∀ e, (p.step x.store).next ≠ .done (.trouble (.panic e))

namespace Ranged

variable {v : α} {next : Pair Address} {n : Int64}

omit [DecidableEq ι] in
/-- The counts of the pairs of the chain are those of borne pairs. -/
theorem count_of_linked (r : x.Ranged stage l log) (hq : q ∈ l) :
    q.count.toNat ≤ log.length + 1 := by
  obtain ⟨count, path⟩ := r.sound.chain
  obtain h | ⟨y, -, hy⟩ := path.eq_or_exists_next hq
  · exact r.pairs q (.head h)
  · exact r.pairs q (.node y hy)

omit [DecidableEq ι] in
/-- The node's own count, whatever has become of the node. -/
theorem internal (r : x.Ranged stage l log) (hn : x.store.nodes.counted? a = some (v, next, n)) :
    -(log.length : Int) ≤ n.toInt ∧ n.toInt ≤ log.length := by
  have hb := r.sound.balanced a v next n hn
  have hh := r.holders a
  have returned {c : UInt64} (hc : c.toNat ≤ log.length + 1)
      (hb : ∃ k : Nat, n = .ofInt (-k) ∧ c.toNat = 1 + x.holders a + k) :
      -(log.length : Int) ≤ n.toInt ∧ n.toInt ≤ log.length := by
    obtain ⟨k, rfl, hk⟩ := hb
    exact toInt_ofInt_within (by omega) (by omega)
  cases hst : stage a with
  | free => exact absurd hst ((r.sound.live a).mpr (by simp [hn]))
  | fresh i | spent i =>
    rw [hst] at hb
    obtain ⟨rfl, -⟩ := hb
    exact toInt_ofInt_within (z := 0) (by omega) (by omega)
  | linked c =>
    rw [hst] at hb
    exact returned (r.count_of_linked (q := ⟨c, a⟩) ((r.sound.linked ⟨c, a⟩).mpr hst)) hb
  | taken i c =>
    rw [hst] at hb
    obtain ⟨p, hp, hpt⟩ := Option.bind_eq_some_iff.mp (((r.sound.stands i).taken a c).mp hst)
    exact returned (r.pairs ⟨c, a⟩ (.point i p hp (Point.mem_pairs_of_taken? hpt))) hb
  | shared =>
    rw [hst] at hb
    obtain ⟨rfl, -⟩ := hb
    exact toInt_ofInt_within (by omega) (by omega)
  | lost c =>
    rw [hst] at hb
    have hc := r.lost a c hst
    obtain ⟨k, rfl, hk⟩ := hb
    exact toInt_ofInt_within (by omega) (by omega)

omit [DecidableEq ι] in
/-- A pop that has taken its node folds the pair's count into the node's, which then is the number of
the other holders. -/
theorem folded (r : x.Ranged stage l log) (room : log.length < 2 ^ 63 - 2) {held : Pair Address}
    (hp : x.point i = some (.pop (.fold held v))) :
    ∃ w next before more, x.store.nodes.counted? held.address = some (w, next, before) ∧
      held.Folded more ∧ (before + more).toInt = before.toInt + more.toInt := by
  have hstage : stage held.address = .taken i held.count :=
    (r.sound.stands i).isKept_of_taken (by rw [hp]; rfl)
  obtain ⟨w, next, before, hn, hb⟩ := r.sound.held_node i held (by rw [hp]; rfl)
  obtain ⟨h, hh⟩ := exists_holders x i held (by rw [hp]; rfl)
  have hcount := r.pairs held (.point i _ hp (by simp [Point.pairs]))
  rw [hstage, hh] at hb
  obtain ⟨k, rfl, hk⟩ := hb
  obtain ⟨more, hm⟩ := Pair.exists_folded (p := held) (by omega) (by omega)
  have hbefore : (Int64.ofInt (-k)).toInt = -k := Int64.toInt_ofInt_of_le (by omega) (by omega)
  have hmore := hm.exact
  exact ⟨w, next, _, more, hn, hm, toInt_add_of_range (by omega) (by omega)⟩

omit [DecidableEq ι] in
theorem exact_of_lt (r : x.Ranged stage l log) (room : log.length < 2 ^ 63 - 2)
    (hp : x.point i = some p) : x.Exact p := by
  have raise {seen : Pair Address} (hs : p = .pop (.bump seen)) :
      ∃ held, seen.bump = .ok held ∧ held.count.toNat = seen.count.toNat + 1 := by
    subst hs
    have hcount := r.pairs seen (.point i _ hp (by simp [Point.pairs]))
    obtain ⟨⟨held, hb⟩, -⟩ := Pair.fits_of_lt (p := seen) (by omega)
    exact ⟨held, hb, (Pair.bump_eq_ok hb).2⟩
  refine ⟨fun _ => raise, fun held w hf => r.folded room (hf ▸ hp), fun held now hg => ?_, fun e => ?_⟩
  · subst hg
    obtain ⟨w, nx, before, hn, -⟩ := r.sound.held_node i held (by rw [hp]; rfl)
    have hrange := r.internal hn
    exact ⟨w, nx, before, hn, toInt_sub_one (by omega)⟩
  · -- Only a raise and the surplus can panic.
    obtain (⟨_, granted⟩ | _ | ⟨node, seen⟩) | (_ | seen | _ | _ | _ | ⟨held, w⟩ | _ | _ | _) := p
    case push.allocate => cases granted <;> simp [Point.step, Push.step, Outcome.within, Next.within, Answer.ofPush]
    case pop.bump =>
      obtain ⟨held, hb, -⟩ := raise rfl
      simp only [Point.step, Pop.step, hb]
      repeat' split
      all_goals simp [Outcome.within, Next.within, Answer.ofPop]
    case pop.fold =>
      obtain ⟨y, nx, before, more, hn, hm, -⟩ := r.folded room hp
      have hmin : more ≠ Int64.minValue := by
        rintro rfl
        exact absurd hm.nonneg (by decide)
      simp only [Point.step, Pop.step, hm.surplus, hn, if_neg hmin]
      split <;> simp [Outcome.within, Next.within, Answer.ofPop]
    all_goals
      simp only [Point.step, Push.step, Pop.step]
      repeat' split
      all_goals simp [Outcome.within, Next.within, Answer.ofPush, Answer.ofPop]

end Ranged

namespace Ranged

variable {place : Nat → UInt64}

omit [DecidableEq ι] [Fintype ι] in
theorem admits_placed (low : ∀ k, (place k).toNat < 2 ^ 48) (hq : q.count.toNat < 2 ^ 16)
    (target : q.address = .null ∨ ∃ k, q.address = .node k) : Packing.packed.Admits (q.placed place) := by
  refine ⟨hq, ?_⟩
  unfold Pair.placed
  obtain h | ⟨k, h⟩ := target
  · rw [h]
    exact Nat.two_pow_pos 48
  · rw [h]
    exact low k

omit [DecidableEq ι] in
/-- An exchange of the head packs two pairs that there is room for. -/
theorem packed_of_le (r : x.Ranged stage l log) (room : log.length ≤ 2 ^ 16 - 3)
    (low : ∀ k, (place k).toNat < 2 ^ 48) (hp : x.point i = some p) {expected new : Pair Address}
    {success : Bool} {found : Head}
    (h : .action (.headCas (.pair expected) (.pair new) success found) ∈ (p.step x.store).notes) :
    Packing.packed.Admits (expected.placed place) ∧ Packing.packed.Admits (new.placed place) := by
  obtain ⟨hexpected, hnew⟩ := Point.exchange_cases h
  have held {q : Pair Address} (hq : q ∈ p.pairs) : q.count.toNat ≤ 2 ^ 16 - 2 :=
    (r.pairs q (.point i p hp hq)).trans (by omega)
  have target {q : Pair Address} (hq : q ∈ p.pairs) := r.targets q (.point i p hp hq)
  have hle := held hexpected
  refine ⟨admits_placed low (by omega) (target hexpected), ?_⟩
  obtain hin | ⟨hone, hf⟩ | hb := hnew
  · have hle := held hin
    exact admits_placed low (by omega) (target hin)
  · have hfresh := ((r.sound.stands i).fresh new.address).mpr (by simp [hp, hf])
    exact admits_placed low (by simp [hone]) (.inr (r.sound.exists_node (by simp [hfresh])))
  · obtain ⟨haddr, hcount⟩ := Pair.bump_eq_ok hb
    exact admits_placed low (by omega) (haddr ▸ target hexpected)

end Ranged

/-- What the number of raises of a count so far, one for each address in the log, says about all
counts: of pairs, of nodes, of the null pair at the bottom, and of the exchanges that come next. -/
structure InRange (x : Crowd ι α) (log : List Address) : Prop where
  pairs : ∀ q, x.Bears q → q.count.toNat ≤ log.length + 1
  internal : ∀ a v next n, x.store.nodes.counted? a = some (v, next, n) →
    -(log.length : Int) ≤ n.toInt ∧ n.toInt ≤ log.length
  bottom : ∃ l count, Path x.store.nodes.beneath? x.store.head l ⟨count, .null⟩ ∧
    count.toNat = log.count .null
  exact : log.length < 2 ^ 63 - 2 → ∀ i p, x.point i = some p → x.Exact p
  packed : log.length ≤ 2 ^ 16 - 3 → ∀ place : Nat → UInt64, (∀ k, (place k).toNat < 2 ^ 48) →
    ∀ i p expected new success found, x.point i = some p →
      .action (.headCas (.pair expected) (.pair new) success found) ∈ (p.step x.store).notes →
      ∃ v w, Packing.packed.pack (expected.placed place) = .ok v ∧
        Packing.packed.pack (new.placed place) = .ok w

/-- Whatever the threads do, counts grow with the raises alone. Nothing overflows, wraps or panics
before nearly as many raises as a word has room for, of 63 bits or of 16. -/
theorem counts_in_range (ms : List (Move ι α)) : (run ms).1.InRange (bumps ms) := by
  obtain ⟨stage, l, r⟩ := ranged_run ms
  obtain ⟨count, path⟩ := r.sound.chain
  refine ⟨r.pairs, fun a v next n hn => r.internal hn, ⟨l, count, path, r.bottom count path⟩,
    fun room i p hp => r.exact_of_lt room hp, ?_⟩
  intro room place low i p expected new success found hp h
  obtain ⟨hexpected, hnew⟩ := r.packed_of_le room low hp h
  exact ⟨_, _, Packing.pack_of_admits hexpected, Packing.pack_of_admits hnew⟩

/-- Two pops have raised the count of one node, one of them is about to add the surplus. -/
theorem counts_in_range_contest :
    bumps (contest.take 13) = [.node 0, .node 0] ∧
      (∃ p, (run (contest.take 13)).1.point true = some p ∧ (run (contest.take 13)).1.Exact p) ∧
      ∃ p w, (run (contest.take 11)).1.point true = some p ∧
        .action (.headCas (.pair ⟨3, .node 0⟩) (.pair ⟨0, .null⟩) true (.pair ⟨3, .node 0⟩)) ∈
          (p.step (run (contest.take 11)).1.store).notes ∧
        Packing.packed.pack ⟨3, 0x7f0000000000⟩ = .ok w := by
  refine ⟨by decide +kernel, ⟨_, rfl, ?_⟩, ?_⟩
  · exact (counts_in_range (contest.take 13)).exact (by decide +kernel) true _ rfl
  · obtain ⟨w, -, hw, -⟩ := (counts_in_range (contest.take 11)).packed (by decide +kernel)
      (fun _ => 0x7f0000000000) (fun _ => by decide) true _ _ _ _ _ rfl (List.mem_singleton_self _)
    exact ⟨_, w, rfl, List.mem_singleton_self _, hw⟩

end Ranged

end Crowd

end Counted

end LockFreeStack
