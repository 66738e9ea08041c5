import LockFreeStack.Proofs.Parking.Chains
import Mathlib.Logic.Function.Basic

/-!
Every live entry is on the list of one stack, or in the hands of one thread that is putting it there
or has taken it from there. No thread meets the entries of another.
-/

namespace LockFreeStack

/-- What an operation has in its hands of the list of a stack: the entries that it has yet to look
at, and a chain of those that go back. -/
structure Hand where
  stack : Nat := 0
  due : Option Nat := none
  kept : Option Chain := none

inductive Keeper where
  | nobody
  | listed (s : Nat)
  | due (s i : Nat)
  | kept (s i : Nat)
deriving DecidableEq

namespace Keeper

def stack? : Keeper → Option Nat
  | nobody => none
  | listed s | due s _ | kept s _ => some s

/-- What belonged to `K` belongs to `L`. -/
def pass (k K L : Keeper) : Keeper := if k = K then L else k

variable {K L M k : Keeper}

theorem pass_eq_iff (hK : K ≠ M) (hL : L ≠ M) : k.pass K L = M ↔ k = M := by
  unfold pass
  split
  · rename_i hk
    simp [hk, hK, hL]
  · rfl

theorem pass_eq : k.pass K L = L ↔ k = K ∨ k = L := by
  unfold pass
  split <;> simp_all

theorem pass_ne (h : L ≠ K) : k.pass K L ≠ K := by
  unfold pass
  split <;> assumption

theorem stack?_pass (h : L.stack? = K.stack?) : (k.pass K L).stack? = k.stack? := by
  unfold pass
  split
  · rename_i hk
    rw [h, hk]
  · rfl

end Keeper

/-- `D` are the deleters that entries may have. -/
structure Stored (D : Deleter → Prop) (h : Entries) (first : Nat → Option Nat) (hand : Nat → Hand)
    (keeper : Nat → Keeper) : Prop where
  live : ∀ e, (h.get? e).isSome ↔ keeper e ≠ .nobody
  deleter : ∀ e x, h.get? e = some x → D x.deleter
  listed : ∀ s, h.Chained (first s) fun e => keeper e = .listed s
  due : ∀ i, h.Chained (hand i).due fun e => keeper e = .due (hand i).stack i
  kept : ∀ i, h.Strung (hand i).kept fun e => keeper e = .kept (hand i).stack i
  stack : ∀ e s i, keeper e = .due s i ∨ keeper e = .kept s i → s = (hand i).stack

/-- The address that an entry keeps, and the stack whose list it belongs to. -/
def parkedAt? (h : Entries) (keeper : Nat → Keeper) (e : Nat) : Option (Address × Nat) :=
  (h.get? e).bind fun x => (keeper e).stack?.map fun s => (x.address, s)

section ParkedAt

variable (h : Entries) (keeper : Nat → Keeper) (e s i : Nat)

theorem parkedAt?_alloc (a : Address) (d : Deleter) :
    parkedAt? (h.alloc ⟨a, d, none⟩) (Function.update keeper h.next (.kept s i)) =
      Function.update (parkedAt? h keeper) h.next (some (a, s)) := by
  funext d
  by_cases hd : d = h.next
  · simp [parkedAt?, hd, Heap.get?_alloc, Keeper.stack?]
  · simp [parkedAt?, hd, Heap.get?_alloc]

theorem parkedAt?_relink (next : Option Nat) :
    parkedAt? (h.update e fun y => { y with next := next }) keeper = parkedAt? h keeper := by
  funext d
  by_cases hd : d = e
  · subst hd
    simp only [parkedAt?, Heap.get?_update, ↓reduceIte]
    cases h.get? d <;> rfl
  · simp [parkedAt?, hd, Heap.get?_update]

theorem parkedAt?_pass {K L : Keeper} (hs : L.stack? = K.stack?) :
    parkedAt? h (fun e => (keeper e).pass K L) = parkedAt? h keeper := by
  funext d
  simp only [parkedAt?, Keeper.stack?_pass hs]

theorem parkedAt?_update {K : Keeper} (hs : K.stack? = (keeper e).stack?) :
    parkedAt? h (Function.update keeper e K) = parkedAt? h keeper := by
  funext d
  by_cases hd : d = e
  · subst hd
    simp [parkedAt?, hs]
  · simp [parkedAt?, hd]

theorem parkedAt?_free :
    parkedAt? (h.free e) (Function.update keeper e .nobody) =
      Function.update (parkedAt? h keeper) e none := by
  funext d
  by_cases hd : d = e
  · simp [parkedAt?, hd, Heap.get?_free]
  · simp [parkedAt?, hd, Heap.get?_free]

end ParkedAt

namespace Stored

variable {D : Deleter → Prop} {h : Entries} {first : Nat → Option Nat} {hand : Nat → Hand} {keeper : Nat → Keeper}
  {i s e : Nat} {c : Chain} {x : Entry} {seen : Option Nat} {a : Address} {d : Deleter}

theorem start (h : Entries) (empty : ∀ e, h.get? e = none) :
    Stored D h (fun _ => none) (fun _ => {}) fun _ => .nobody := by
  refine ⟨fun e => by simp [empty e], fun e x hx => ?_, fun s => .nil (by simp), fun i => .nil (by simp),
    fun i e he => by simp at he, by simp⟩
  rw [empty e] at hx
  cases hx

theorem congr (k : Stored D h first hand keeper) {h' : Entries} (same : h'.get? = h.get?) :
    Stored D h' first hand keeper := by
  have same (e : Nat) : h'.get? e = h.get? e := congrFun same e
  refine ⟨fun e => ?_, fun e x hx => k.deleter e x (same e ▸ hx), fun s => ?_, fun i => ?_, fun i => ?_,
    k.stack⟩
  · rw [same, k.live]
  · exact (k.listed s).congr (fun e _ => same e) fun _ => Iff.rfl
  · exact (k.due i).congr (fun e _ => same e) fun _ => Iff.rfl
  · exact (k.kept i).congr (fun e _ => same e) fun _ => Iff.rfl

/-- A thread without entries in its hands. -/
theorem keeper_ne (k : Stored D h first hand keeper) (hd : (hand i).due = none) (hk : (hand i).kept = none)
    (e s : Nat) : keeper e ≠ .due s i ∧ keeper e ≠ .kept s i := by
  have due := k.due i
  have kept := k.kept i
  rw [hd] at due
  rw [hk] at kept
  constructor
  · intro he
    obtain rfl := k.stack e s i (.inl he)
    exact due.not_of_none e he
  · intro he
    obtain rfl := k.stack e s i (.inr he)
    exact kept e he

/-- The next entry that a thread looks at. -/
theorem next_due (k : Stored D h first hand keeper) (hdue : (hand i).due = some e) :
    ∃ x, h.get? e = some x ∧ keeper e = .due (hand i).stack i ∧ x.next ≠ some e := by
  have due := k.due i
  rw [hdue] at due
  obtain ⟨x, hx, mine, hne, -⟩ := due.head
  exact ⟨x, hx, mine, hne⟩

theorem last_kept (k : Stored D h first hand keeper) (hk : (hand i).kept = some c) :
    ∃ x, h.get? c.last = some x := by
  have kept := k.kept i
  rw [hk] at kept
  have mine : keeper c.last = .kept (hand i).stack i := kept.last
  exact Option.isSome_iff_exists.mp ((k.live c.last).mpr (by simp [mine]))

/-- What thread `i` does leaves what other threads have in their hands. -/
theorem turn (k : Stored D h first hand keeper) {h' : Entries} {first' : Nat → Option Nat} {hd : Hand}
    {keeper' : Nat → Keeper} (live : ∀ e, (h'.get? e).isSome ↔ keeper' e ≠ .nobody)
    (deleter : ∀ e x, h'.get? e = some x → D x.deleter)
    (listed : ∀ s, h'.Chained (first' s) fun e => keeper' e = .listed s)
    (others : ∀ j e s, j ≠ i → (keeper' e = .due s j ↔ keeper e = .due s j) ∧
      (keeper' e = .kept s j ↔ keeper e = .kept s j))
    (same : ∀ j e s, j ≠ i → keeper e = .due s j ∨ keeper e = .kept s j → h'.get? e = h.get? e)
    (due : h'.Chained hd.due fun e => keeper' e = .due hd.stack i)
    (kept : h'.Strung hd.kept fun e => keeper' e = .kept hd.stack i)
    (stack : ∀ e s, keeper' e = .due s i ∨ keeper' e = .kept s i → s = hd.stack) :
    Stored D h' first' (Function.update hand i hd) keeper' := by
  refine ⟨live, deleter, listed, fun j => ?_, fun j => ?_, fun e s j he => ?_⟩ <;> by_cases hj : j = i
  · subst hj
    simpa using due
  · rw [Function.update_of_ne hj]
    exact (k.due j).congr (fun e he => same j e _ hj (.inl he)) fun e => (others j e _ hj).1
  · subst hj
    simpa using kept
  · rw [Function.update_of_ne hj]
    exact (k.kept j).congr (fun e he => same j e _ hj (.inr he)) fun e => (others j e _ hj).2
  · subst hj
    simpa using stack e s he
  · rw [Function.update_of_ne hj]
    rw [(others j e s hj).1, (others j e s hj).2] at he
    exact k.stack e s j he

/-- A thread goes on with the same entries in its hands. -/
theorem quiet (k : Stored D h first hand keeper) {hd : Hand} (due : hd.due = (hand i).due)
    (kept : hd.kept = (hand i).kept)
    (stack : hd.stack = (hand i).stack ∨ (hand i).due = none ∧ (hand i).kept = none) :
    Stored D h first (Function.update hand i hd) keeper := by
  obtain stack | ⟨hdue, hkept⟩ := stack
  · refine k.turn k.live k.deleter k.listed (by simp) (by simp) ?_ ?_ ?_
    · rw [due, stack]
      exact k.due i
    · rw [kept, stack]
      exact k.kept i
    · rw [stack]
      exact fun e s => k.stack e s i
  · have none := k.keeper_ne hdue hkept
    refine k.turn k.live k.deleter k.listed (by simp) (by simp) ?_ ?_ ?_
    · rw [due, hdue]
      exact .nil fun e => (none e _).1
    · rw [kept, hkept]
      exact fun e => (none e _).2
    · exact fun e s he => absurd he (not_or.mpr (none e s))

/-- One entry comes to another keeper. -/
theorem update_eq_iff {K K' : Keeper} (h0 : keeper e ≠ K) (h1 : K' ≠ K) (d : Nat) :
    Function.update keeper e K' d = K ↔ keeper d = K := by
  by_cases hd : d = e
  · subst hd
    simp [h0, h1]
  · rw [Function.update_of_ne hd]

/-- A new entry. -/
theorem park (k : Stored D h first hand keeper) (hdue : (hand i).due = none)
    (hkept : (hand i).kept = none) (hd : D d) (a : Address) (s : Nat) :
    Stored D (h.alloc ⟨a, d, none⟩) first
      (Function.update hand i ⟨s, none, some ⟨h.next, h.next⟩⟩)
      (Function.update keeper h.next (.kept s i)) := by
  have none := k.keeper_ne hdue hkept
  have free : keeper h.next = .nobody := by
    have := k.live h.next
    rw [h.get?_next] at this
    simpa using this
  have same {e : Nat} (he : keeper e ≠ .nobody) : (h.alloc ⟨a, d, Option.none⟩).get? e = h.get? e := by
    rw [Heap.get?_alloc, if_neg (by rintro rfl; exact he free)]
  have iff {K : Keeper} (h0 : K ≠ .nobody) (h1 : K ≠ .kept s i) (e : Nat) :
      Function.update keeper h.next (.kept s i) e = K ↔ keeper e = K :=
    update_eq_iff (free ▸ h0.symm) h1.symm e
  refine k.turn (fun e => ?_) (fun e x hx => ?_) (fun t => ?_) (fun j e t hj => ?_) (fun j e t hj he => ?_)
    ?_ ?_ (fun e t he => ?_)
  · rw [Heap.get?_alloc]
    by_cases he : e = h.next
    · simp [he]
    · rw [if_neg he, Function.update_of_ne he, k.live]
  · rw [Heap.get?_alloc] at hx
    by_cases he : e = h.next
    · rw [if_pos he] at hx
      obtain rfl := Option.some.inj hx
      exact hd
    · rw [if_neg he] at hx
      exact k.deleter e x hx
  · exact (k.listed t).congr (fun e he => same (by simp [he])) (iff (by simp) (by simp))
  · exact ⟨iff (by simp) (by simp) e, iff (by simp) (by simp [hj]) e⟩
  · obtain he | he := he <;> exact same (by simp [he])
  · exact .nil fun e he => (none e s).1 ((iff (by simp) (by simp) e).mp he)
  · have mem (e : Nat) : Function.update keeper h.next (.kept s i) e = .kept s i ↔ e = h.next := by
      by_cases he : e = h.next
      · simp [he]
      · simp [he, (none e s).2]
    have nil : Entries.Strung (h.alloc ⟨a, d, Option.none⟩) Option.none fun _ => False := fun _ => id
    have strung := nil.cons (e := h.next) id (by rw [Heap.get?_alloc, if_pos rfl]) rfl
    exact strung.congr (fun _ _ => rfl) fun e => by simp [mem e]
  · by_cases hen : e = h.next
    · simpa [hen, eq_comm] using he
    · rw [Function.update_of_ne hen] at he
      exact absurd he (not_or.mpr (none e t))

/-- The chain that a thread puts back is linked to what the list's head is taken for. -/
theorem relink (k : Stored D h first hand keeper) (hk : (hand i).kept = some c) (seen : Option Nat) :
    Stored D (h.update c.last fun y => { y with next := seen }) first hand keeper := by
  have kept := k.kept i
  rw [hk] at kept
  have mine : keeper c.last = .kept (hand i).stack i := kept.last
  obtain ⟨x, hx⟩ := k.last_kept hk
  have get (e : Nat) := h.get?_update c.last (fun y => { y with next := seen }) e
  have same {e : Nat} (he : e ≠ c.last) := (get e).trans (if_neg he)
  rw [← Function.update_eq_self i hand]
  refine k.turn (fun e => ?_) (fun e y hy => ?_) (fun t => ?_) (by simp) (fun j e t hj he => ?_) ?_ ?_
    fun e s => k.stack e s i
  · by_cases he : e = c.last
    · rw [he, ← k.live, get, if_pos rfl, Option.isSome_map]
    · rw [same he, k.live]
  · by_cases he : e = c.last
    · rw [he, get, if_pos rfl, hx] at hy
      obtain rfl := Option.some.inj hy
      exact k.deleter _ x hx
    · rw [same he] at hy
      exact k.deleter e y hy
  · exact (k.listed t).congr (fun e he => same fun h' => by simp [h', mine] at he) fun _ => Iff.rfl
  · refine same fun h' => ?_
    rw [h', mine] at he
    simp [hj.symm] at he
  · exact (k.due i).congr (fun e he => same fun h' => by simp [h', mine] at he) fun _ => Iff.rfl
  · rw [hk]
    exact kept.relink (by rw [get, if_pos rfl, hx]; rfl) fun e he => same he

/-- The chain becomes the front part of the list. -/
theorem link (k : Stored D h first hand keeper) (hdue : (hand i).due = none) (hk : (hand i).kept = some c)
    (hs : (hand i).stack = s) (hx : h.get? c.last = some x) (hn : x.next = first s) :
    Stored D h (Function.update first s (some c.first)) (Function.update hand i {})
      fun e => (keeper e).pass (.kept s i) (.listed s) := by
  subst hs
  have kept := k.kept i
  rw [hk] at kept
  have due := k.due i
  rw [hdue] at due
  have none (e t : Nat) : (keeper e).pass (.kept (hand i).stack i) (.listed (hand i).stack) ≠ .due t i ∧
      (keeper e).pass (.kept (hand i).stack i) (.listed (hand i).stack) ≠ .kept t i := by
    constructor
    · rw [Ne, Keeper.pass_eq_iff (by simp) (by simp)]
      intro he
      obtain rfl := k.stack e t i (.inl he)
      exact due.not_of_none e he
    · intro he
      by_cases ht : t = (hand i).stack
      · exact Keeper.pass_ne (by simp) (ht ▸ he)
      · rw [Keeper.pass_eq_iff (by simp [Ne.symm ht]) (by simp)] at he
        exact ht (k.stack e t i (.inr he))
  refine k.turn (fun e => ?_) k.deleter (fun t => ?_) (fun j e t hj => ?_) (fun _ _ _ _ _ => rfl)
    (.nil fun e => (none e _).1) (fun e => (none e _).2) fun e t he => absurd he (not_or.mpr (none e t))
  · rw [k.live]
    exact not_congr (Keeper.pass_eq_iff (by simp) (by simp)).symm
  · by_cases ht : t = (hand i).stack
    · subst ht
      rw [Function.update_self]
      exact (kept.splice hx (hn ▸ k.listed _)).congr (fun _ _ => rfl) fun e => Keeper.pass_eq
    · rw [Function.update_of_ne ht]
      exact (k.listed t).congr (fun _ _ => rfl) fun e =>
        Keeper.pass_eq_iff (by simp) (by simp [Ne.symm ht])
  · exact ⟨Keeper.pass_eq_iff (by simp) (by simp), Keeper.pass_eq_iff (by simp [hj.symm]) (by simp)⟩

/-- A thread takes a whole list. -/
theorem take (k : Stored D h first hand keeper) (hdue : (hand i).due = none)
    (hkept : (hand i).kept = none) (s : Nat) :
    Stored D h (Function.update first s none) (Function.update hand i ⟨s, first s, none⟩)
      fun e => (keeper e).pass (.listed s) (.due s i) := by
  have none := k.keeper_ne hdue hkept
  have due (e : Nat) : (keeper e).pass (.listed s) (.due s i) = .due s i ↔ keeper e = .listed s :=
    Keeper.pass_eq.trans (or_iff_left (none e s).1)
  have kept (e t : Nat) : (keeper e).pass (.listed s) (.due s i) ≠ .kept t i := by
    rw [Ne, Keeper.pass_eq_iff (by simp) (by simp)]
    exact (none e t).2
  refine k.turn (fun e => ?_) k.deleter (fun t => ?_) (fun j e t hj => ?_) (fun _ _ _ _ _ => rfl)
    ((k.listed s).congr (fun _ _ => rfl) due) (fun e => kept e s) fun e t he => ?_
  · rw [k.live]
    exact not_congr (Keeper.pass_eq_iff (by simp) (by simp)).symm
  · by_cases ht : t = s
    · subst ht
      rw [Function.update_self]
      exact .nil fun e => Keeper.pass_ne (by simp)
    · rw [Function.update_of_ne ht]
      exact (k.listed t).congr (fun _ _ => rfl) fun e =>
        Keeper.pass_eq_iff (by simp [Ne.symm ht]) (by simp)
  · exact ⟨Keeper.pass_eq_iff (by simp) (by simp [hj.symm]), Keeper.pass_eq_iff (by simp) (by simp)⟩
  · have he := he.resolve_right (kept e t)
    by_contra ht
    rw [Keeper.pass_eq_iff (by simp) (by simp [Ne.symm ht])] at he
    exact (none e t).1 he

/-- The next entry goes in front of the chain that goes back. -/
theorem keep (k : Stored D h first hand keeper) (hdue : (hand i).due = some e)
    (hx : h.get? e = some x) :
    Stored D (h.update e fun y => { y with next := (hand i).kept.map Chain.first }) first
      (Function.update hand i
        ⟨(hand i).stack, x.next, some ⟨e, ((hand i).kept.map Chain.last).getD e⟩⟩)
      (Function.update keeper e (.kept (hand i).stack i)) := by
  have due := k.due i
  rw [hdue] at due
  obtain ⟨x', hx', mine, -, rest⟩ := due.head
  obtain rfl := Option.some.inj (hx.symm.trans hx')
  have get (d : Nat) := h.get?_update e (fun y => { y with next := (hand i).kept.map Chain.first }) d
  have same {d : Nat} (hd : d ≠ e) := (get d).trans (if_neg hd)
  have iff {K : Keeper} (h0 : K ≠ .due (hand i).stack i) (h1 : K ≠ .kept (hand i).stack i) (d : Nat) :
      Function.update keeper e (.kept (hand i).stack i) d = K ↔ keeper d = K :=
    update_eq_iff (mine ▸ h0.symm) h1.symm d
  refine k.turn (fun d => ?_) (fun d y hy => ?_) (fun t => ?_)
    (fun j d t hj => ⟨iff (by simp [hj]) (by simp) d, iff (by simp) (by simp [hj]) d⟩) (fun j d t hj hd => ?_)
    (rest.congr (fun d hd => same hd.2) fun d => ?_) ?_ fun d t hd => ?_
  · by_cases hd : d = e
    · simp [hd, get, hx]
    · rw [same hd, Function.update_of_ne hd, k.live]
  · by_cases hd : d = e
    · rw [hd, get, if_pos rfl, hx] at hy
      obtain rfl := Option.some.inj hy
      exact k.deleter e x hx
    · rw [same hd] at hy
      exact k.deleter d y hy
  · exact (k.listed t).congr (fun d hd => same fun h' => by simp [h', mine] at hd)
      (iff (by simp) (by simp))
  · refine same fun h' => ?_
    rw [h', mine] at hd
    simp [hj.symm] at hd
  · by_cases hd : d = e <;> simp [hd]
  · have kept : Entries.Strung (h.update e fun y => { y with next := (hand i).kept.map Chain.first })
        (hand i).kept fun d => keeper d = .kept (hand i).stack i :=
      (k.kept i).congr (fun d hd => same fun h' => by simp [h', mine] at hd) fun _ => Iff.rfl
    refine (kept.cons (e := e) (by simp [mine]) (by rw [get, if_pos rfl, hx]; rfl) rfl).congr
      (fun _ _ => rfl) fun d => ?_
    by_cases hd : d = e <;> simp [hd]
  · by_cases hde : d = e
    · simpa [hde, eq_comm] using hd
    · rw [Function.update_of_ne hde] at hd
      exact k.stack d t i hd

/-- The next entry is deleted. -/
theorem unlink (k : Stored D h first hand keeper) (hdue : (hand i).due = some e)
    (hx : h.get? e = some x) :
    Stored D (h.free e) first (Function.update hand i ⟨(hand i).stack, x.next, (hand i).kept⟩)
      (Function.update keeper e .nobody) := by
  have due := k.due i
  rw [hdue] at due
  obtain ⟨x', hx', mine, -, rest⟩ := due.head
  obtain rfl := Option.some.inj (hx.symm.trans hx')
  have same {d : Nat} (hd : d ≠ e) := (h.get?_free e d).trans (if_neg hd)
  have iff {K : Keeper} (h0 : K ≠ .due (hand i).stack i) (h1 : K ≠ .nobody) (d : Nat) :
      Function.update keeper e .nobody d = K ↔ keeper d = K :=
    update_eq_iff (mine ▸ h0.symm) h1.symm d
  refine k.turn (fun d => ?_) (fun d y hy => ?_) (fun t => ?_)
    (fun j d t hj => ⟨iff (by simp [hj]) (by simp) d, iff (by simp) (by simp) d⟩) (fun j d t hj hd => ?_)
    (rest.congr (fun d hd => same hd.2) fun d => ?_)
    ((k.kept i).congr (fun d hd => same fun h' => by simp [h', mine] at hd) (iff (by simp) (by simp)))
    fun d t hd => ?_
  · by_cases hd : d = e
    · simp [hd, Heap.get?_free]
    · rw [same hd, Function.update_of_ne hd, k.live]
  · by_cases hd : d = e
    · simp [hd, Heap.get?_free] at hy
    · rw [same hd] at hy
      exact k.deleter d y hy
  · exact (k.listed t).congr (fun d hd => same fun h' => by simp [h', mine] at hd)
      (iff (by simp) (by simp))
  · refine same fun h' => ?_
    rw [h', mine] at hd
    simp [hj.symm] at hd
  · by_cases hd : d = e <;> simp [hd]
  · by_cases hde : d = e
    · simp [hde] at hd
    · rw [Function.update_of_ne hde] at hd
      exact k.stack d t i hd

end Stored

end LockFreeStack
