import LockFreeStack.Proofs.Hazard.Crowd
import LockFreeStack.Proofs.Slot.Seated

/-!
All threads of a crowd stay seated: each of them writes to no records but its own.
-/

namespace LockFreeStack

variable {α : Type} {ts ts' : Tables} {me : Thread} {o : Option (Point α)} {token : Nat}

namespace Seated

theorem other (s : Seated ts me o) (leaves : ts.Leaves ts' token) (h0 : me.token ≠ 0)
    (ht : me.token ≠ token) : Seated ts' me o :=
  ⟨s.counts, s.owns.other leaves h0 ht, s.fitting⟩

end Seated

theorem Directory.count_pos {d : Directory String Nat} {k : String} {v : Nat} (h : d.get? k = some v) :
    0 < d.count v := by
  obtain ⟨e, he, rfl⟩ := Option.map_eq_some_iff.mp h
  exact List.countP_pos_iff.mpr ⟨e, List.mem_of_find?_eq_some he, by simp⟩

theorem Thread.isLive_of_slot? {c : Nat} {name : String} (k : me.Counts none)
    (h : me.slot? name = some c) : me.isLive c := by
  refine k.isLive_of_uses fun hz => ?_
  unfold slot? at h
  split at h
  · have : c ∈ me.lent := List.mem_of_mem_head? h
    have := List.count_pos_iff.mpr this
    unfold uses at hz
    omega
  · have := Directory.count_pos h
    unfold uses at hz
    omega

namespace Hazard

theorem Call.seated_start {m : Memory α} {c : Call α} {p : Point α}
    (s : Seated ts me (none : Option (Point α))) (h : c.start? m me = some p) : Seated ts me (some p) := by
  have counts : me.Counts none := s.counts
  have go {q : Point α} (hand : q.hand? = none) (site : q.site? = none) (fitting : q.Fitting me) :
      Seated ts me (some q) :=
    ⟨by simpa only [Option.bind_some, hand] using counts,
      by simpa only [Option.bind_some, Option.bind_none, site] using s.owns, by rintro _ ⟨⟩; exact fitting⟩
  cases c with
  | push stack v granted | pop stack | reclaim stack | register t slot | lend t | takeBack
  | dropSlot slot =>
    simp only [start?, Option.ite_none_right_eq_some, Option.ite_none_left_eq_some,
      Option.some.injEq] at h
    obtain ⟨-, rfl⟩ := h
    exact go rfl rfl trivial
  | popWith stack slot =>
    simp only [start?, Option.ite_none_right_eq_some, Option.map_eq_some_iff] at h
    obtain ⟨-, d, hd, rfl⟩ := h
    exact go rfl rfl (Thread.isLive_of_slot? counts hd)
  | publish slot a =>
    obtain ⟨d, hd, rfl⟩ := Option.map_eq_some_iff.mp h
    exact go rfl rfl (Thread.isLive_of_slot? counts hd)
  | exit =>
    simp only [start?, Option.ite_none_right_eq_some, Option.some.injEq] at h
    obtain ⟨hl, rfl⟩ := h
    exact go rfl rfl hl

theorem getElem?_tables {m : Memory α} {t : Nat} (h : t < m.tables.size) : m.tables[t]? = some (m.table t) := by
  simp [Memory.table, Array.getElem?_eq_getElem h]

/-- The number of handles is no matter of the records. -/
theorem record?_setHandles (ts : Tables) (t : Nat) (f : Nat → Nat) (place : Place) :
    Tables.record? (ts.modify t fun x => { x with handles := f x.handles }) place =
      ts.record? place := by
  simp only [Tables.record?, Array.getElem?_modify]
  by_cases h : t = place.table
  · rw [if_pos h]
    cases ts[place.table]? <;> rfl
  · rw [if_neg h]

/-- New records come without an owner. -/
theorem Change.leaves (c : Change) (m : Memory α) : m.tables.Leaves (c.apply m).tables 0 := by
  intro place r h0 _
  cases c with
  | registry capacity =>
    by_cases hc : capacity = 0
    · simp [apply, Table.new, hc]
    · simp only [apply, Table.new, hc, ↓reduceIte, Memory.addTable, Tables.record?, Array.getElem?_push]
      by_cases ht : place.table = m.tables.size
      · simp only [ht, ↓reduceIte, Array.getElem?_eq_none (Nat.le_refl _), reduceCtorEq, iff_false]
        intro hr
        obtain rfl := Array.mem_replicate.mp (Array.mem_of_getElem? hr) |>.2
        exact h0 rfl
      · rw [if_neg ht]
  | handle t => exact iff_of_eq (congrArg (· = some r) (record?_setHandles m.tables t (· + 1) place))
  | unhandle t => exact iff_of_eq (congrArg (· = some r) (record?_setHandles m.tables t (· - 1) place))
  | stack t =>
    simp only [apply]
    split
    · exact iff_of_eq (congrArg (· = some r) (record?_setHandles m.tables t (· + 1) place))
    · rfl
  | recycleNode k | recycleEntry k => rfl

theorem tables_miss {m m' : Memory α} {p q : Point α} (h : p.miss? m = some (m', q)) :
    m'.tables = m.tables := by
  unfold Point.miss? at h
  split at h
  all_goals first | (obtain ⟨rfl, -⟩ := Prod.mk.inj (Option.some.inj h); rfl) | cases h

namespace Crowd

def point (x : Crowd α) (i : Nat) : Option (Point α) := (x.busy i).map Prod.snd

section Set

variable {x : Crowd α} {i j : Nat} {st : Operation.State α} {b : Option (Call α × Point α)}

@[simp] theorem point_set_self : (x.set i st b).point i = b.map Prod.snd := by
  simp [set, point]

theorem point_set_of_ne (hj : j ≠ i) : (x.set i st b).point j = x.point j := by
  simp [set, point, hj]

@[simp] theorem me_set_self : (x.set i st b).me i = st.2 := by
  simp [set]

theorem me_set_of_ne (hj : j ≠ i) : (x.set i st b).me j = x.me j := by
  simp [set, hj]

@[simp] theorem busy_set_self : (x.set i st b).busy i = b := by
  simp [set]

theorem busy_set_of_ne (hj : j ≠ i) : (x.set i st b).busy j = x.busy j := by
  simp [set, hj]

theorem set_set (x : Crowd α) (i : Nat) (st st' : Operation.State α) (b b' : Option (Call α × Point α)) :
    (x.set i st b).set i st' b' = x.set i st' b' := by
  simp [Crowd.set]

/-- The last step of an operation. -/
theorem move_set_done {c : Call α} {p : Point α} {st' : Operation.State α} {a : Answer α} {notes : List (Note α)}
    (ho : Operation.step st p = ⟨st', .done a, notes⟩) :
    (x.set i st (some (c, p))).move (.step i) = x.set i st' none := by
  have here : Operation.step ((x.set i st (some (c, p))).memory, (x.set i st (some (c, p))).me i) p =
      ⟨st', .done a, notes⟩ := by
    rw [me_set_self]
    exact ho
  simp only [move, busy_set_self, here, set_set]

theorem set_self (x : Crowd α) (i : Nat) : x.set i (x.memory, x.me i) (x.busy i) = x := by
  simp [Crowd.set]

end Set

structure Orderly (x : Crowd α) : Prop where
  token : ∀ i, (x.me i).token = i + 1
  seated : ∀ i, Seated x.memory.tables (x.me i) (x.point i)

namespace Orderly

variable {x : Crowd α} {i : Nat} {st : Operation.State α} {b : Option (Call α × Point α)}
  {c : Call α} {p : Point α}

theorem start : (start : Crowd α).Orderly := by
  refine ⟨fun _ => rfl, fun i => seated_none (.new _) ?_⟩
  constructor <;> simp [Crowd.start, Thread.new, Thread.isLive, Thread.refs, Memory.empty, Tables.record?]

/-- Thread `i` moves on among its own records. -/
theorem set (o : x.Orderly) (leaves : x.memory.tables.Leaves st.1.tables (i + 1))
    (token : st.2.token = i + 1) (seated : Seated st.1.tables st.2 (b.map Prod.snd)) :
    (x.set i st b).Orderly := by
  refine ⟨fun j => ?_, fun j => ?_⟩ <;> by_cases hj : j = i
  · subst hj
    simpa [Crowd.set] using token
  · simpa [Crowd.set, Function.update_of_ne hj] using o.token j
  · subst hj
    simpa [Crowd.set, Crowd.point] using seated
  · simp only [Crowd.set, Crowd.point, Function.update_of_ne hj]
    have ht := o.token j
    exact (o.seated j).other leaves (by omega) (by omega)

theorem seated_of_busy (o : x.Orderly) (hb : x.busy i = some (c, p)) :
    Seated x.memory.tables (x.me i) (some p) := by
  have seated := o.seated i
  rwa [Crowd.point, hb] at seated

/-- A thread between its operations is ready to acquire a claim. -/
theorem sound (o : x.Orderly) (idle : x.busy i = none) (table : Nat) :
    Acquire.Sound table x.memory.tables (x.me i) .lookup := by
  have seated := o.seated i
  rw [show x.point i = none by simp [Crowd.point, idle]] at seated
  exact ⟨seated.counts, seated.owns, trivial⟩

theorem token_ne_zero (o : x.Orderly) (i : Nat) : (x.me i).token ≠ 0 := by
  rw [o.token]
  omega

theorem seats (o : x.Orderly) (hb : x.busy i = some (c, p)) :
    Seats x.memory.tables (i + 1) (Operation.step (x.memory, x.me i) p) := by
  have ht := o.token i
  exact ht ▸ (o.seated_of_busy hb).step (by omega)

theorem move (o : x.Orderly) (mv : Move α) : (x.move mv).Orderly := by
  cases mv with
  | call i c =>
    simp only [Crowd.move]
    split
    · rename_i p hb hc
      have hs := o.seated i
      rw [Crowd.point, hb] at hs
      exact o.set (.refl _ _) (o.token i) (Call.seated_start hs hc)
    · exact o
  | step i =>
    simp only [Crowd.move]
    split
    · exact o
    · rename_i c p hb
      have k := o.seats hb
      rcases ho : Operation.step (x.memory, x.me i) p with ⟨st, q | a | f, notes⟩ <;> rw [ho] at k
      · exact o.set k.leaves k.token k.next
      · exact o.set k.leaves k.token k.next
      · exact o
  | miss i =>
    simp only [Crowd.move]
    split
    · exact o
    · rename_i c p hb
      split
      · rename_i m q hm
        have hs := o.seated_of_busy hb
        have hf := hs.fitting _ rfl
        refine o.set (tables_miss hm ▸ .refl _ _) (o.token i) (tables_miss hm ▸ ?_)
        unfold Point.miss? at hm
        split at hm
        case h_5 => cases hm
        all_goals
          obtain ⟨-, rfl⟩ := Prod.mk.inj (Option.some.inj hm)
          exact hs.quiet rfl rfl hf
      · exact o
  | change c =>
    refine ⟨o.token, fun i => (o.seated i).other (c.leaves x.memory) ?_ ?_⟩ <;>
    · have := o.token i
      omega

end Orderly

theorem orderly_after (ms : List (Move α)) : (after ms).Orderly := by
  induction ms using List.reverseRecOn with
  | nil => exact .start
  | append_singleton ms mv ih => exact after_append_singleton ms mv ▸ ih.move mv

end Crowd

end Hazard

end LockFreeStack
