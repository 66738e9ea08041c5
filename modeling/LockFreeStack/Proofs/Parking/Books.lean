import LockFreeStack.Proofs.Parking.Crowd
import Mathlib.Algebra.BigOperators.Group.Finset.Piecewise

/-!
The books of parked lists. A list's counter is the number of the entries that belong to the list,
wherever they are, together with the entries that passes have unlinked and not subtracted yet.
-/

namespace LockFreeStack

/-- What a pass has in its hands of the list `l`. -/
def Drain.Point.hand (l : Nat) : Drain.Point → Hand
  | detach => ⟨l, none, none⟩
  | snapshot first _ => ⟨l, some first, none⟩
  | walk w | delete _ _ w => ⟨l, w.at?, w.kept⟩
  | settle w => ⟨l, none, w.kept⟩
  | restore c _ _ _ => ⟨l, none, some c⟩

/-- The entries that a pass has unlinked and not subtracted yet. -/
def Drain.Point.freed : Drain.Point → Nat
  | walk w | delete _ _ w | settle w => w.reclaimed
  | _ => 0

namespace Parking

def Point.hand (l : Nat) : Point → Hand
  | park .. => ⟨l, none, none⟩
  | insert c _ => ⟨l, none, some c⟩
  | drain p => p.hand l

def Point.freed : Point → Nat
  | drain p => p.freed
  | _ => 0

/-- The keepers `K` become `K'`, and the counter of the list `l` changes with the entries of the list
and with those unlinked and not subtracted yet. -/
def Settles (l : Nat) (K K' : Nat → Keeper) (n n' : UInt64) (freed freed' : Nat) : Prop :=
  ∀ E : Nat → Finset Nat, (∀ k e, e ∈ E k ↔ (K e).stack? = some k) →
    ∃ E' : Nat → Finset Nat, (∀ k e, e ∈ E' k ↔ (K' e).stack? = some k) ∧ (∀ k ≠ l, E' k = E k) ∧
      n' + .ofNat ((E l).card + freed) = n + .ofNat ((E' l).card + freed')

namespace Settles

variable {l i e : Nat} {K K' : Nat → Keeper} {n : UInt64} {r : Nat}

/-- All entries stay with the list that they belong to. -/
theorem quiet (h : ∀ e, (K' e).stack? = (K e).stack?) : Settles l K K' n n r r :=
  fun E hE => ⟨E, fun k e => by rw [h, hE], fun _ _ => rfl, rfl⟩

theorem park (h : K e = .nobody) :
    Settles l K (Function.update K e (.kept l i)) n (n + 1) r r := by
  intro E hE
  have hnot : e ∉ E l := by simp [hE, h, Keeper.stack?]
  refine ⟨Function.update E l (insert e (E l)), fun k d => ?_, fun k hk => Function.update_of_ne hk _ _, ?_⟩
  · by_cases hd : d = e <;> by_cases hk : k = l
    · simp [hd, hk, Keeper.stack?]
    · simp [hd, hk, hE, h, Keeper.stack?, Ne.symm hk]
    · simp [hd, hk, hE]
    · simp [hd, hk, hE]
  · rw [Function.update_self, Finset.card_insert_of_notMem hnot, UInt64.add_assoc]
    congr 1
    rw [show (E l).card + 1 + r = 1 + ((E l).card + r) by omega, UInt64.ofNat_add 1]
    rfl

/-- An entry that a pass unlinks is counted with the pass from then on. -/
theorem unlink (h : K e = .due l i) :
    Settles l K (Function.update K e .nobody) n n r (r + 1) := by
  intro E hE
  have hmem : e ∈ E l := by simp [hE, h, Keeper.stack?]
  refine ⟨Function.update E l ((E l).erase e), fun k d => ?_, fun k hk => Function.update_of_ne hk _ _, ?_⟩
  · by_cases hd : d = e <;> by_cases hk : k = l
    · simp [hd, hk, Keeper.stack?]
    · simp [hd, hk, hE, h, Keeper.stack?, Ne.symm hk]
    · simp [hd, hk, hE]
    · simp [hd, hk, hE]
  · have hcard := Finset.card_erase_add_one hmem
    rw [Function.update_self]
    congr 2
    omega

theorem subtract (h : ∀ e, (K' e).stack? = (K e).stack?) : Settles l K K' n (n - .ofNat r) r 0 := by
  refine fun E hE => ⟨E, fun k e => by rw [h, hE], fun _ _ => rfl, ?_⟩
  rw [Nat.add_comm, UInt64.ofNat_add, ← UInt64.add_assoc, UInt64.sub_add_cancel, Nat.add_zero]

end Settles

section Step

variable {m : Parking} {first : Nat → Option Nat} {hand : Nat → Hand} {K : Nat → Keeper} {i l : Nat}
  {c : Chain}

/-- Thread `i` may come to the parking `m'`, with `hd` in its hands. -/
def Reaches (m : Parking) (first : Nat → Option Nat) (hand : Nat → Hand) (K : Nat → Keeper)
    (i l freed : Nat) (m' : Parking) (hd : Hand) (freed' : Nat) : Prop :=
  ∃ K', Stored (fun _ => True) m'.entries (Function.update first l m'.list.head)
      (Function.update hand i hd) K' ∧
    Settles l K K' m.list.pending m'.list.pending freed freed'

/-- The outcome of a step of thread `i` on the list `l` is no fault, and its result is no error. -/
def Goes (m : Parking) (first : Nat → Option Nat) (hand : Nat → Hand) (K : Nat → Keeper)
    (i l freed : Nat) (out : Outcome Parking Point (Except Trouble Nat) Unit) : Prop :=
  match out.next with
  | .goto q => Reaches m first hand K i l freed out.memory (q.hand l) q.freed
  | .done (.ok _) => Reaches m first hand K i l freed out.memory {} 0
  | .done (.error _) => False
  | .fault _ => False

variable (k : Stored (fun _ => True) m.entries first hand K) (here : first l = m.list.head)

include k here

/-- Nothing happens to the entries. -/
theorem reaches_of_quiet {hd : Hand} (due : hd.due = (hand i).due) (kept : hd.kept = (hand i).kept)
    (stack : hd.stack = (hand i).stack ∨ (hand i).due = none ∧ (hand i).kept = none) (r : Nat) :
    Reaches m first hand K i l r m hd r := by
  refine ⟨K, ?_, .quiet fun _ => rfl⟩
  rw [← here, Function.update_eq_self]
  exact k.quiet due kept stack

theorem goes_park (hh : hand i = ⟨l, none, none⟩) (t : Table) (a : Address) (d : Deleter) :
    Goes m first hand K i l 0 ((Point.park a d).step t m) := by
  have free : K m.entries.next = .nobody := by
    have := k.live m.entries.next
    rw [m.entries.get?_next] at this
    simpa using this
  have stored := k.park (i := i) (by rw [hh]) (by rw [hh]) (d := d) trivial a l
  have hfirst : Function.update first l m.list.head = first := by rw [← here, Function.update_eq_self]
  rw [← hfirst] at stored
  exact ⟨_, stored, .park free⟩

/-- A chain goes to a list in one exchange of the head, and only the link of its last entry changes
before that. -/
theorem insert_step (hh : hand i = ⟨l, none, some c⟩) (p : Insert.Point) :
    match (Insert.step c m p : Outcome Parking Insert.Point Unit Unit) with
    | ⟨m', .goto _, _⟩ => m'.list = m.list ∧ Stored (fun _ => True) m'.entries first hand K
    | ⟨m', .done _, _⟩ => m'.list.pending = m.list.pending ∧
        Stored (fun _ => True) m'.entries (Function.update first l m'.list.head)
          (Function.update hand i {}) fun e => (K e).pass (.kept l i) (.listed l)
    | ⟨_, .fault _, _⟩ => False := by
  cases p with
  | load => exact ⟨rfl, k⟩
  | link seen =>
    obtain ⟨x, hx⟩ := k.last_kept (i := i) (c := c) (by rw [hh])
    have relinked := k.relink (i := i) (c := c) (by rw [hh]) seen
    simp only [Insert.step, hx]
    by_cases hs : m.list.head = seen
    · rw [if_pos hs]
      refine ⟨rfl, relinked.link (x := { x with next := seen }) (by rw [hh]) (by rw [hh]) (by rw [hh]) ?_ ?_⟩
      · simp [Heap.get?_update, hx]
      · rw [here, hs]
    · rw [if_neg hs]
      exact ⟨rfl, relinked⟩

omit k in
/-- Only the link of an entry changes that the thread has in its hands. -/
theorem reaches_of_relink {n : Parking} (list : n.list = m.list)
    (k' : Stored (fun _ => True) n.entries first hand K) (r : Nat) :
    Reaches m first hand K i l r n (hand i) r := by
  refine ⟨K, ?_, by rw [list]; exact .quiet fun _ => rfl⟩
  rw [list, ← here, Function.update_eq_self, Function.update_eq_self]
  exact k'

theorem goes_insert (hh : hand i = ⟨l, none, some c⟩) (t : Table) (p : Insert.Point) :
    Goes m first hand K i l 0 ((Point.insert c p).step t m) := by
  have hk := insert_step k here hh p
  rcases ho : (Insert.step c m p : Outcome Parking Insert.Point Unit Unit) with ⟨m', q | _ | f, notes⟩ <;>
    rw [ho] at hk <;> simp only [Goes, Point.step, ho, Outcome.within, Next.within, id_eq]
  · have := reaches_of_relink (i := i) here hk.1 hk.2 0
    rwa [hh] at this
  · exact ⟨_, hk.2, hk.1 ▸ .quiet fun e => Keeper.stack?_pass rfl⟩
  · exact hk

theorem goes_detach (hh : hand i = ⟨l, none, none⟩) (t : Table) :
    Goes m first hand K i l 0 ((Point.drain .detach).step t m) := by
  simp only [Point.step, Drain.step]
  cases hf : m.list.head with
  | none => exact reaches_of_quiet k here (by rw [hh]) (by rw [hh]) (.inr (by rw [hh]; exact ⟨rfl, rfl⟩)) 0
  | some e =>
    have stored := k.take (i := i) (by rw [hh]) (by rw [hh]) l
    rw [here, hf] at stored
    exact ⟨_, stored, .quiet fun e => Keeper.stack?_pass rfl⟩

theorem goes_snapshot {f : Nat} {met : Scan.Collected} (hh : hand i = ⟨l, some f, none⟩) (t : Table) :
    Goes m first hand K i l 0 ((Point.drain (.snapshot f met)).step t m) := by
  have quiet : Reaches m first hand K i l 0 m ⟨l, some f, none⟩ 0 :=
    reaches_of_quiet k here (by rw [hh]) (by rw [hh]) (.inl (by rw [hh])) 0
  cases hr : t.records[met.next]? <;>
    simp only [Goes, Point.step, Drain.step, Scan.collect, hr] <;> exact quiet

theorem goes_walk {w : Drain.Walk} (hh : hand i = ⟨l, w.at?, w.kept⟩) (t : Table) :
    Goes m first hand K i l w.reclaimed ((Point.drain (.walk w)).step t m) := by
  simp only [Point.step, Drain.step]
  cases hat : w.at? with
  | none => exact reaches_of_quiet k here (by rw [hh, hat]; rfl) (by rw [hh]; rfl) (.inl (by rw [hh]; rfl)) _
  | some e =>
    obtain ⟨x, hx, mine, hne⟩ := k.next_due (i := i) (e := e) (by rw [hh, hat])
    have hfirst : Function.update first l m.list.head = first := by rw [← here, Function.update_eq_self]
    simp only [hx, if_neg hne]
    by_cases hmet : w.met.contains x.address
    · rw [if_pos hmet]
      have stored := k.keep (i := i) (e := e) (by rw [hh, hat]) hx
      rw [hh, ← hfirst] at stored
      refine ⟨_, stored, .quiet fun d => ?_⟩
      by_cases hd : d = e
      · simp [hd, mine, hh, Keeper.stack?]
      · rw [Function.update_of_ne hd]
    · rw [if_neg hmet]
      have stored := k.unlink (i := i) (e := e) (by rw [hh, hat]) hx
      rw [hh] at stored mine
      rw [← hfirst] at stored
      exact ⟨_, stored, .unlink mine⟩

theorem goes_delete {w : Drain.Walk} {a : Address} {d : Deleter} (hh : hand i = ⟨l, w.at?, w.kept⟩)
    (t : Table) : Goes m first hand K i l w.reclaimed ((Point.drain (.delete a d w)).step t m) :=
  reaches_of_quiet k here (by rw [hh]; rfl) (by rw [hh]; rfl) (.inl (by rw [hh]; rfl)) _

theorem goes_settle {w : Drain.Walk} (hh : hand i = ⟨l, none, w.kept⟩) (t : Table) :
    Goes m first hand K i l w.reclaimed ((Point.drain (.settle w)).step t m) := by
  have settles : Settles l K K m.list.pending (m.list.pending - .ofNat w.reclaimed) w.reclaimed 0 :=
    .subtract fun _ => rfl
  have hfirst : Function.update first l m.list.head = first := by rw [← here, Function.update_eq_self]
  simp only [Point.step, Drain.step]
  cases hkept : w.kept with
  | none =>
    refine ⟨K, ?_, settles⟩
    have stored : Stored _ m.entries first (Function.update hand i {}) K :=
      k.quiet (by rw [hh]) (by rw [hh, hkept]) (.inr (by rw [hh, hkept]; exact ⟨rfl, rfl⟩))
    rwa [← hfirst] at stored
  | some c =>
    refine ⟨K, ?_, settles⟩
    have stored : Stored _ m.entries first (Function.update hand i ⟨l, none, some c⟩) K :=
      k.quiet (by rw [hh]) (by rw [hh, hkept]) (.inl (by rw [hh]))
    rwa [← hfirst] at stored

theorem goes_restore {deferred reclaimed : Nat} (hh : hand i = ⟨l, none, some c⟩) (t : Table)
    (p : Insert.Point) :
    Goes m first hand K i l 0 ((Point.drain (.restore c p deferred reclaimed)).step t m) := by
  have hk := insert_step k here hh p
  rcases ho : (Insert.step c m p : Outcome Parking Insert.Point Unit Unit) with ⟨m', q | _ | f, notes⟩ <;>
    rw [ho] at hk <;> simp only [Goes, Point.step, Drain.step, ho, Outcome.within, Next.within, id_eq]
  · have := reaches_of_relink (i := i) here hk.1 hk.2 0
    rwa [hh] at this
  · exact ⟨_, hk.2, hk.1 ▸ .quiet fun e => Keeper.stack?_pass rfl⟩
  · exact hk

theorem goes_step {p : Point} (hh : hand i = p.hand l) (t : Table) :
    Goes m first hand K i l p.freed (p.step t m) := by
  cases p with
  | park a d => exact goes_park k here hh t a d
  | insert c p => exact goes_insert k here hh t p
  | drain p =>
    cases p with
    | detach => exact goes_detach k here hh t
    | snapshot f met => exact goes_snapshot k here hh t
    | walk w => exact goes_walk k here hh t
    | delete a d w => exact goes_delete k here hh t
    | settle w => exact goes_settle k here hh t
    | restore c p deferred reclaimed => exact goes_restore k here hh t p

theorem reaches_miss {p q : Point} {m' : Parking} (hh : hand i = p.hand l)
    (hm : p.miss? m = some (m', q)) : Reaches m first hand K i l p.freed m' (q.hand l) q.freed := by
  obtain _ | ⟨c, _ | seen⟩ | (_ | _ | _ | _ | _ | ⟨c, _ | seen, deferred, reclaimed⟩) := p <;> try cases hm
  all_goals
    have relinked := k.relink (i := i) (c := c) (by rw [hh]; rfl) seen
    have := reaches_of_relink (i := i) (l := l) (m := m)
      (n := ⟨m.entries.update c.last fun y => { y with next := seen }, m.list⟩) here rfl relinked 0
    rwa [hh] at this

end Step

/-- What a thread has in its hands. -/
def handOf : Option (Nat × Point) → Hand
  | none => {}
  | some (l, p) => p.hand l

/-- The entries of the list `l` that a thread has unlinked and not subtracted yet. -/
def freedOn (l : Nat) : Option (Nat × Point) → Nat
  | none => 0
  | some (k, p) => if k = l then p.freed else 0

namespace Crowd

/-- `E l` are the entries that belong to the list `l`, and threads out of `T` are idle. -/
structure Books (x : Crowd) (K : Nat → Keeper) (T : Finset Nat) (E : Nat → Finset Nat) : Prop where
  stored : Stored (fun _ => True) x.entries (fun l => (x.list l).head) (fun i => handOf (x.busy i)) K
  members : ∀ l e, e ∈ E l ↔ (K e).stack? = some l
  idle : ∀ i ∉ T, x.busy i = none
  pending : ∀ l, (x.list l).pending = .ofNat ((E l).card + ∑ i ∈ T, freedOn l (x.busy i))

theorem sum_update {f : Nat → Nat} {T : Finset Nat} (outside : ∀ j ∉ T, f j = 0) (i v : Nat) :
    ∑ j ∈ insert i T, Function.update f i v j + f i = ∑ j ∈ T, f j + v := by
  have rest : ∑ j ∈ (insert i T).erase i, Function.update f i v j = ∑ j ∈ (insert i T).erase i, f j :=
    Finset.sum_congr rfl fun j hj => by rw [Function.update_of_ne (Finset.ne_of_mem_erase hj)]
  have after := Finset.add_sum_erase (insert i T) (Function.update f i v) (Finset.mem_insert_self i T)
  have before := Finset.add_sum_erase (insert i T) f (Finset.mem_insert_self i T)
  rw [Finset.sum_insert_of_eq_zero_if_notMem fun hi => outside i hi] at before
  rw [Function.update_self, rest] at after
  omega

section Books

variable {x : Crowd} {K : Nat → Keeper} {T : Finset Nat} {E : Nat → Finset Nat} {i l : Nat}

namespace Books

theorem start : Crowd.start.Books (fun _ => .nobody) ∅ fun _ => ∅ where
  stored := .start _ fun e => by simp [Crowd.start, Heap.get?, Heap.empty]
  members := by simp [Keeper.stack?]
  idle _ _ := rfl
  pending _ := rfl

/-- Thread `i` goes on with the list `l`, and the books of that list are brought up to date. -/
theorem set (b : x.Books K T E) {m : Parking} {o : Option Point} {r : Nat}
    (was : x.busy i = none ∧ r = 0 ∨ ∃ p, x.busy i = some (l, p) ∧ r = p.freed)
    (reach : Reaches (x.parking l) (fun l => (x.list l).head) (fun i => handOf (x.busy i)) K i l r m
      (handOf (o.map fun p => (l, p))) (freedOn l (o.map fun p => (l, p)))) :
    ∃ K' T' E', (x.set i l m o).Books K' T' E' := by
  obtain ⟨K', stored, settles⟩ := reach
  obtain ⟨E', members, others, settled⟩ := settles E b.members
  have hhands : (fun j => handOf ((x.set i l m o).busy j)) =
      Function.update (fun j => handOf (x.busy j)) i (handOf (o.map fun p => (l, p))) := by
    funext j
    by_cases hj : j = i <;> simp [Crowd.set, hj]
  have hheads : (fun k => ((x.set i l m o).list k).head) =
      Function.update (fun k => (x.list k).head) l m.list.head := by
    funext k
    by_cases hk : k = l <;> simp [Crowd.set, hk]
  have hfreed (k : Nat) : (fun j => freedOn k ((x.set i l m o).busy j)) =
      Function.update (fun j => freedOn k (x.busy j)) i (freedOn k (o.map fun p => (l, p))) := by
    funext j
    by_cases hj : j = i <;> simp [Crowd.set, hj]
  have hsum (k : Nat) : ∑ j ∈ insert i T, freedOn k ((x.set i l m o).busy j) + freedOn k (x.busy i) =
      ∑ j ∈ T, freedOn k (x.busy j) + freedOn k (o.map fun p => (l, p)) := by
    have h := sum_update (f := fun j => freedOn k (x.busy j)) (T := T)
      (fun j hj => by rw [b.idle j hj]; rfl) i (freedOn k (o.map fun p => (l, p)))
    rwa [← hfreed k] at h
  refine ⟨K', insert i T, E', by rw [hhands, hheads]; exact stored, members, fun j hj => ?_, fun k => ?_⟩
  · rw [Finset.mem_insert, not_or] at hj
    simpa [Crowd.set, hj.1] using b.idle j hj.2
  · have hsum := hsum k
    by_cases hk : k = l
    · subst hk
      have hr : freedOn k (x.busy i) = r := by
        obtain ⟨hi, rfl⟩ | ⟨p, hi, rfl⟩ := was <;> simp [hi, freedOn]
      rw [hr] at hsum
      have hpending := b.pending k
      rw [show (x.list k).pending = (x.parking k).list.pending from rfl] at hpending
      rw [hpending, ← UInt64.ofNat_add] at settled
      have hlist : (x.set i k m o).list k = m.list := by simp [Crowd.set]
      rw [hlist]
      refine (UInt64.add_left_inj (.ofNat ((E k).card + r))).mp (settled.trans ?_)
      rw [← UInt64.ofNat_add]
      congr 1
      omega
    · have hlist : (x.set i l m o).list k = x.list k := by simp [Crowd.set, hk]
      have before : freedOn k (x.busy i) = 0 := by
        obtain ⟨hi, -⟩ | ⟨p, hi, -⟩ := was <;> simp [hi, freedOn, Ne.symm hk]
      have after : freedOn k (o.map fun p => (l, p)) = 0 := by
        cases o <;> simp [freedOn, Ne.symm hk]
      rw [hlist, others k hk, b.pending k]
      congr 1
      omega

theorem call (b : x.Books K T E) (hi : x.busy i = none) (c : Call) :
    ∃ K' T' E', (x.set i l (x.parking l) (some c.start)).Books K' T' E' := by
  refine b.set (.inl ⟨hi, rfl⟩) ?_
  have reach : Reaches (x.parking l) (fun l => (x.list l).head) (fun i => handOf (x.busy i)) K i l 0
      (x.parking l) ⟨l, none, none⟩ 0 :=
    reaches_of_quiet b.stored rfl (by simp [hi, handOf]) (by simp [hi, handOf])
      (.inr (by simp [hi, handOf])) 0
  cases c <;> simpa [handOf, freedOn, Call.start, Point.hand, Point.freed, Drain.start,
    Drain.Point.hand, Drain.Point.freed] using reach

theorem goes (b : x.Books K T E) {p : Point} (hi : x.busy i = some (l, p)) (t : Table) :
    Goes (x.parking l) (fun l => (x.list l).head) (fun i => handOf (x.busy i)) K i l p.freed
      (p.step t (x.parking l)) :=
  goes_step b.stored rfl (by simp [hi, handOf]) t

theorem move (b : x.Books K T E) (mv : Move) : ∃ K' T' E', (x.move mv).Books K' T' E' := by
  cases mv with
  | call i l c =>
    cases hi : x.busy i with
    | none =>
      simp only [Crowd.move, hi]
      exact b.call hi c
    | some p => exact ⟨K, T, E, by simpa only [Crowd.move, hi] using b⟩
  | step i t =>
    rcases hi : x.busy i with _ | ⟨l, p⟩
    · exact ⟨K, T, E, by simpa only [Crowd.move, hi] using b⟩
    · have hk := b.goes hi t
      simp only [Crowd.move, hi]
      rcases ho : p.step t (x.parking l) with ⟨m, q | r | f, notes⟩ <;> simp only [Goes, ho] at hk
      · exact b.set (.inr ⟨p, hi, rfl⟩) (by simpa [handOf, freedOn] using hk)
      · cases r with
        | ok n => exact b.set (.inr ⟨p, hi, rfl⟩) hk
        | error e => exact hk.elim
  | miss i =>
    rcases hi : x.busy i with _ | ⟨l, p⟩
    · exact ⟨K, T, E, by simpa only [Crowd.move, hi] using b⟩
    · simp only [Crowd.move, hi]
      cases hm : p.miss? (x.parking l) with
      | none => exact ⟨K, T, E, b⟩
      | some out =>
        have hk := reaches_miss (i := i) (m := x.parking l) b.stored rfl (by simp [hi, handOf]) hm
        exact b.set (.inr ⟨p, hi, rfl⟩) (by simpa [handOf, freedOn] using hk)
  | recycle k => exact ⟨K, T, E, b.stored.congr rfl, b.members, b.idle, b.pending⟩

/-- A pass never meets an entry that is gone, nor one that is linked to itself. -/
theorem not_fails (b : x.Books K T E) (i : Nat) (t : Table) : ¬x.Fails i t := by
  rintro ⟨l, p, hi, hf⟩
  have hk := b.goes hi t
  obtain ⟨f, hf⟩ | ⟨e, he⟩ := hf
  · simp [Goes, hf] at hk
  · simp [Goes, he] at hk

end Books

end Books

end Crowd

end Parking

end LockFreeStack
