import LockFreeStack.Slot.Thread
import Mathlib.Data.List.Count
import Mathlib.Data.List.Nodup
import Mathlib.Data.String.Basic

/-!
The references to a thread's claims. A claim counts the slots that the thread holds by name, the
slots lent to running bodies, the pin of its cache, and the one reference that an operation may
have in its hands.
-/

namespace LockFreeStack

namespace Directory

variable {d : Directory String Nat} {k : String} {v w : Nat}

def Sorted (d : Directory String Nat) : Prop := d.entries.Pairwise fun e f => e.1 < f.1

/-- How many names have this value. -/
def count (d : Directory String Nat) (v : Nat) : Nat := d.entries.countP fun e => e.2 = v

section Cons

variable (e : String × Nat) (l : List (String × Nat))

theorem count_cons : count ⟨e :: l⟩ v = count ⟨l⟩ v + if e.2 = v then 1 else 0 := by
  simp [count, List.countP_cons]

theorem get?_cons : get? ⟨e :: l⟩ k = if e.1 = k then some e.2 else get? ⟨l⟩ k := by
  by_cases h : e.1 = k <;> simp [get?, h]

theorem erase_cons : erase ⟨e :: l⟩ k = if e.1 = k then erase ⟨l⟩ k else ⟨e :: (erase ⟨l⟩ k).entries⟩ := by
  by_cases h : e.1 = k <;> simp [erase, h]

theorem insert_cons : insert ⟨e :: l⟩ k w =
    if k < e.1 then ⟨(k, w) :: e :: l⟩ else if k = e.1 then ⟨(k, w) :: l⟩
      else ⟨e :: (insert ⟨l⟩ k w).entries⟩ := by
  simp only [insert, insert.go]
  split
  · rfl
  · split <;> rfl

end Cons

/-- A name that is below all others is not there. -/
theorem get?_of_forall_lt {l : List (String × Nat)} (h : ∀ e ∈ l, k < e.1) : get? ⟨l⟩ k = none := by
  induction l with
  | nil => rfl
  | cons e l ih =>
    have hne : e.1 ≠ k := fun he => String.lt_irrefl k (by simpa [he] using h e (by simp))
    rw [get?_cons, if_neg hne]
    exact ih fun f hf => h f (by simp [hf])

theorem erase_of_forall_lt {l : List (String × Nat)} (h : ∀ e ∈ l, k < e.1) : erase ⟨l⟩ k = ⟨l⟩ := by
  induction l with
  | nil => rfl
  | cons e l ih =>
    have hne : e.1 ≠ k := fun he => String.lt_irrefl k (by simpa [he] using h e (by simp))
    rw [erase_cons, if_neg hne, ih fun f hf => h f (by simp [hf])]

theorem count_erase (h : d.Sorted) (k : String) (v : Nat) :
    d.count v = (d.erase k).count v + if d.get? k = some v then 1 else 0 := by
  obtain ⟨l⟩ := d
  induction l with
  | nil => rfl
  | cons e l ih =>
    obtain ⟨he, hl⟩ := List.pairwise_cons.mp h
    rw [get?_cons, erase_cons, count_cons]
    by_cases hk : e.1 = k
    · rw [if_pos hk, if_pos hk, erase_of_forall_lt (hk ▸ he)]
      simp only [Option.some.injEq]
    · rw [if_neg hk, if_neg hk, count_cons, ih hl]
      exact Nat.add_right_comm _ _ _

theorem sorted_erase (h : d.Sorted) (k : String) : (d.erase k).Sorted := List.Pairwise.filter _ h

theorem count_insert (h : d.Sorted) (k : String) (w v : Nat) :
    (d.insert k w).count v + (if d.get? k = some v then 1 else 0) =
      d.count v + if w = v then 1 else 0 := by
  obtain ⟨l⟩ := d
  induction l with
  | nil => simp [insert, insert.go, count, get?, List.countP_cons]
  | cons e l ih =>
    obtain ⟨he, hl⟩ := List.pairwise_cons.mp h
    rw [insert_cons]
    by_cases hlt : k < e.1
    · have hnone : get? ⟨e :: l⟩ k = none := by
        refine get?_of_forall_lt fun f hf => ?_
        obtain rfl | hf := List.mem_cons.mp hf
        · exact hlt
        · exact String.lt_trans hlt (he f hf)
      rw [if_pos hlt, hnone, count_cons]
      simp
    · rw [if_neg hlt, get?_cons]
      by_cases hk : k = e.1
      · rw [if_pos hk, if_pos hk.symm, count_cons, count_cons]
        simp only [Option.some.injEq]
        omega
      · rw [if_neg hk, if_neg (Ne.symm hk), count_cons, count_cons, Nat.add_right_comm,
          Nat.add_right_comm (count ⟨l⟩ v), ← ih hl]

theorem mem_insert {f : String × Nat} (hf : f ∈ (d.insert k w).entries) : f.1 = k ∨ f ∈ d.entries := by
  obtain ⟨l⟩ := d
  induction l with
  | nil => exact .inl (by simp_all [insert, insert.go])
  | cons e l ih =>
    rw [insert_cons] at hf
    split at hf
    · obtain rfl | hf := List.mem_cons.mp hf
      · exact .inl rfl
      · exact .inr hf
    · split at hf
      · obtain rfl | hf := List.mem_cons.mp hf
        · exact .inl rfl
        · exact .inr (List.mem_cons_of_mem e hf)
      · obtain rfl | hf := List.mem_cons.mp hf
        · exact .inr (List.mem_cons_self ..)
        · exact (ih hf).imp_right (List.mem_cons_of_mem e)

theorem sorted_insert (h : d.Sorted) (k : String) (w : Nat) : (d.insert k w).Sorted := by
  obtain ⟨l⟩ := d
  induction l with
  | nil => exact List.pairwise_singleton _ _
  | cons e l ih =>
    obtain ⟨he, hl⟩ := List.pairwise_cons.mp h
    rw [insert_cons]
    by_cases hlt : k < e.1
    · rw [if_pos hlt]
      refine List.pairwise_cons.mpr ⟨fun f hf => ?_, h⟩
      obtain rfl | hf := List.mem_cons.mp hf
      · exact hlt
      · exact String.lt_trans hlt (he f hf)
    · rw [if_neg hlt]
      by_cases hk : k = e.1
      · rw [if_pos hk]
        exact List.pairwise_cons.mpr ⟨fun f hf => hk ▸ he f hf, hl⟩
      · rw [if_neg hk]
        refine List.pairwise_cons.mpr ⟨fun f hf => ?_, ih hl⟩
        obtain rfl | hf := mem_insert hf
        · exact (lt_or_gt_of_ne hk).resolve_left hlt
        · exact he f hf

end Directory

namespace Thread

variable {t : Thread} {c d : Nat} {o : Option Nat} {e : Cached} {name : String}

/-- The pins of the cache on a claim. -/
def pins (t : Thread) (c : Nat) : Nat := t.cache.countP fun e => e.claim = c ∧ e.pinned

/-- The references that outlast an operation. -/
def uses (t : Thread) (c : Nat) : Nat := t.slots.count c + t.lent.count c + t.pins c

/-- The claims count their references, the one `o` in the hands of an operation included. The cache
knows each live claim, and none twice. -/
structure Counts (t : Thread) (o : Option Nat) : Prop where
  refs : ∀ c, t.refs c = t.uses c + if o = some c then 1 else 0
  sorted : t.slots.Sorted
  nodup : (t.cache.map Cached.claim).Nodup
  known : ∀ e ∈ t.cache, e.claim < t.claims.size
  cached : ∀ c, t.isLive c → c ∈ t.cache.map Cached.claim

/-- An element of a list between what comes before and after it. -/
theorem exists_append_of_getElem? {γ : Type} {l : List γ} {i : Nat} {x : γ} (h : l[i]? = some x) :
    ∃ l₁ l₂, l = l₁ ++ x :: l₂ ∧ l.eraseIdx i = l₁ ++ l₂ := by
  obtain ⟨hi, rfl⟩ := List.getElem?_eq_some_iff.mp h
  refine ⟨l.take i, l.drop (i + 1), ?_, List.eraseIdx_eq_take_drop_succ l i⟩
  rw [← List.drop_eq_getElem_cons hi, List.take_append_drop]

theorem isLive_iff : t.isLive c ↔ t.refs c ≠ 0 := by simp [isLive]

theorem lt_size_of_isLive (h : t.isLive c) : c < t.claims.size := by
  by_contra hc
  refine isLive_iff.mp h ?_
  simp [refs, Array.getElem?_eq_none (Nat.le_of_not_lt hc)]

theorem exists_place (h : t.isLive c) : ∃ place, t.place? c = some place :=
  ⟨_, by rw [place?, Array.getElem?_eq_getElem (lt_size_of_isLive h)]; rfl⟩

theorem Counts.isLive_of_uses (k : t.Counts o) (h : t.uses c ≠ 0) : t.isLive c := by
  rw [isLive_iff, k.refs]
  omega

theorem Counts.isLive_of_eq_some (k : t.Counts (some c)) : t.isLive c := by
  rw [isLive_iff, k.refs, if_pos rfl]
  omega

theorem isPinned_iff : t.isPinned c ↔ t.pins c ≠ 0 := by
  simp [isPinned, pins, List.countP_eq_zero]

theorem pins_le_one (h : (t.cache.map Cached.claim).Nodup) (c : Nat) : t.pins c ≤ 1 := by
  have hc := List.nodup_iff_count_le_one.mp h c
  rw [List.count, List.countP_map] at hc
  refine (List.countP_mono_left fun e _ he => ?_).trans hc
  simp only [decide_eq_true_eq] at he
  simp [he.1]

theorem claims_setPinned (t : Thread) (c : Nat) (b : Bool) :
    (t.setPinned c b).cache.map Cached.claim = t.cache.map Cached.claim := by
  simp only [setPinned, List.map_map]
  exact List.map_congr_left fun e _ => by simp only [Function.comp_apply]; split <;> rfl

theorem pins_setPinned_of_ne (h : d ≠ c) (b : Bool) : (t.setPinned c b).pins d = t.pins d := by
  simp only [pins, setPinned, List.countP_map]
  refine List.countP_congr fun e _ => ?_
  by_cases he : e.claim = c
  · simp [he, Ne.symm h]
  · simp [he]

theorem pins_unpin : (t.setPinned c false).pins c = 0 := by
  simp only [pins, setPinned, List.countP_map, List.countP_eq_zero]
  intro e _
  by_cases he : e.claim = c <;> simp [he]

theorem pins_pin (h : (t.cache.map Cached.claim).Nodup) (hc : c ∈ t.cache.map Cached.claim) :
    (t.setPinned c true).pins c = 1 := by
  rw [← List.count_eq_one_of_mem h hc, List.count, List.countP_map]
  simp only [pins, setPinned, List.countP_map]
  refine List.countP_congr fun e _ => ?_
  by_cases he : e.claim = c <;> simp [he]

@[simp] theorem uses_setRefs (t : Thread) (c n d : Nat) : (t.setRefs c n).uses d = t.uses d := rfl

theorem isLive_setRefs (h : c < t.claims.size) (n : Nat) :
    (t.setRefs c n).isLive d ↔ if d = c then n ≠ 0 else t.isLive d := by
  rw [isLive_iff, refs_setRefs _ _ _ _ h]
  by_cases hd : d = c <;> simp [hd, isLive_iff]

theorem isLive_keep (h : t.isLive c) (d : Nat) : (t.keep c).isLive d ↔ t.isLive d := by
  rw [keep, isLive_setRefs (lt_size_of_isLive h)]
  by_cases hd : d = c
  · simp [hd, h]
  · simp [hd]

theorem isLive_pin (h : t.isLive c) (d : Nat) : (t.pin c).isLive d ↔ t.isLive d := by
  unfold pin
  split
  · rfl
  · exact isLive_keep h d

theorem isLive_letGo (h : t.isLive c) (d : Nat) :
    (t.letGo c).1.isLive d ↔ t.isLive d ∧ ¬(d = c ∧ (t.letGo c).2) := by
  simp only [letGo]
  rw [isLive_setRefs (lt_size_of_isLive h)]
  have hc := isLive_iff.mp h
  by_cases hd : d = c
  · subst hd
    simp only [↓reduceIte, h, true_and, decide_eq_true_eq]
    omega
  · simp [hd]

@[simp] theorem place?_keep (t : Thread) (c d : Nat) : (t.keep c).place? d = t.place? d :=
  place?_setRefs ..

@[simp] theorem place?_pin (t : Thread) (c d : Nat) : (t.pin c).place? d = t.place? d := by
  unfold pin
  split
  · rfl
  · exact place?_keep ..

@[simp] theorem place?_letGo (t : Thread) (c d : Nat) : (t.letGo c).1.place? d = t.place? d :=
  place?_setRefs ..

@[simp] theorem token_pin (t : Thread) (c : Nat) : (t.pin c).token = t.token := by
  unfold pin
  split <;> rfl

theorem place?_enter (t : Thread) (place : Place) (d : Nat) :
    (t.enter place).place? d = if d = t.claims.size then some place else t.place? d := by
  simp only [place?, enter, Array.getElem?_push]
  by_cases h : d = t.claims.size <;> simp [h]

theorem isLive_enter (t : Thread) (place : Place) (d : Nat) :
    (t.enter place).isLive d ↔ t.isLive d ∨ d = t.claims.size := by
  simp only [isLive_iff, refs, enter, Array.getElem?_push]
  by_cases h : d = t.claims.size <;> simp [h]

namespace Counts

/-- A new thread has no claims. -/
theorem new (token : Nat) : (Thread.new token).Counts none := by
  constructor <;> simp [Thread.new, Thread.refs, Thread.uses, Thread.pins, Directory.count, Directory.empty,
    Directory.Sorted, Thread.isLive]

/-- The cache goes on to know the same claims, and no dead one comes back. -/
theorem change (k : t.Counts o) {u : Thread} {o' : Option Nat}
    (size : u.claims.size = t.claims.size)
    (cache : u.cache.map Cached.claim = t.cache.map Cached.claim) (sorted : u.slots.Sorted)
    (live : ∀ d, u.isLive d → t.isLive d)
    (refs : ∀ d, u.refs d = u.uses d + if o' = some d then 1 else 0) : u.Counts o' := by
  refine ⟨refs, sorted, cache ▸ k.nodup, fun e he => ?_, fun d hd => cache ▸ k.cached d (live d hd)⟩
  have hm : e.claim ∈ t.cache.map Cached.claim := cache ▸ List.mem_map_of_mem he
  obtain ⟨f, hf, hfe⟩ := List.mem_map.mp hm
  rw [size, ← hfe]
  exact k.known f hf

theorem keep (k : t.Counts none) (hc : t.isLive c) : (t.keep c).Counts (some c) := by
  have hlt := lt_size_of_isLive hc
  refine k.change (by simp [Thread.keep, setRefs]) rfl k.sorted (fun d hd => ?_) fun d => ?_
  · rw [Thread.keep, isLive_setRefs hlt] at hd
    by_cases h : d = c
    · rwa [h]
    · rwa [if_neg h] at hd
  · rw [Thread.keep, refs_setRefs _ _ _ _ hlt]
    have hd := k.refs d
    by_cases h : d = c
    · subst h
      simpa using hd
    · simpa [h, Ne.symm h] using hd

theorem letGo (k : t.Counts (some c)) : (t.letGo c).1.Counts none := by
  have hlt := lt_size_of_isLive k.isLive_of_eq_some
  refine k.change (by simp [Thread.letGo, setRefs]) rfl k.sorted (fun d hd => ?_) fun d => ?_
  · simp only [Thread.letGo] at hd
    rw [isLive_setRefs hlt] at hd
    by_cases h : d = c
    · exact h ▸ k.isLive_of_eq_some
    · rwa [if_neg h] at hd
  · simp only [Thread.letGo]
    rw [refs_setRefs _ _ _ _ hlt]
    have hd := k.refs d
    by_cases h : d = c
    · subst h
      rw [if_pos rfl] at hd
      simp [hd]
    · simpa [h, Ne.symm h] using hd

theorem pin (k : t.Counts (some c)) : (t.pin c).Counts (some c) := by
  have hc := k.isLive_of_eq_some
  have hlt := lt_size_of_isLive hc
  unfold Thread.pin
  by_cases hp : t.isPinned c
  · rwa [if_pos hp]
  · rw [if_neg hp]
    have hzero : t.pins c = 0 := by simpa using mt isPinned_iff.mpr hp
    have hrefs (d : Nat) : ((t.keep c).setPinned c true).refs d = if d = c then t.refs c + 1 else t.refs d :=
      refs_setRefs t c (t.refs c + 1) d hlt
    refine k.change (by simp [Thread.keep, setRefs, setPinned]) (claims_setPinned _ _ _) k.sorted
      (fun d hd => ?_) fun d => ?_
    · rw [isLive_iff, hrefs] at hd
      by_cases h : d = c
      · rwa [h]
      · rwa [if_neg h, ← isLive_iff] at hd
    · rw [hrefs]
      have hd := k.refs d
      show _ = t.slots.count d + t.lent.count d + (t.setPinned c true).pins d + _
      unfold Thread.uses at hd
      by_cases h : d = c
      · subst h
        rw [pins_pin k.nodup (k.cached d hc)]
        simp only [↓reduceIte, hzero] at hd ⊢
        omega
      · rw [if_neg h, pins_setPinned_of_ne h]
        exact hd

theorem register (k : t.Counts (some c)) (name : String) :
    Counts { t with slots := t.slots.insert name c } (t.slots.get? name) := by
  refine k.change rfl rfl (Directory.sorted_insert k.sorted name c) (fun _ h => h) fun d => ?_
  have hd := k.refs d
  have hs := Directory.count_insert k.sorted name c d
  show t.refs d = (t.slots.insert name c).count d + t.lent.count d + t.pins d + _
  simp only [Thread.uses, Option.some.injEq] at hd
  omega

theorem lend (k : t.Counts (some c)) : Counts { t with lent := c :: t.lent } none := by
  refine k.change rfl rfl k.sorted (fun _ h => h) fun d => ?_
  have hd := k.refs d
  show t.refs d = t.slots.count d + (c :: t.lent).count d + t.pins d + _
  simp only [Thread.uses, Option.some.injEq, List.count_cons, beq_iff_eq, reduceCtorEq,
    ↓reduceIte] at hd ⊢
  omega

theorem dropSlot (k : t.Counts none) (name : String) :
    Counts { t with slots := t.slots.erase name } (t.slots.get? name) := by
  refine k.change rfl rfl (Directory.sorted_erase k.sorted name) (fun _ h => h) fun d => ?_
  have hd := k.refs d
  have hs := Directory.count_erase k.sorted name d
  show t.refs d = (t.slots.erase name).count d + t.lent.count d + t.pins d + _
  simp only [Thread.uses, reduceCtorEq, ↓reduceIte] at hd
  omega

theorem takeBack {rest : List Nat} (k : t.Counts none) (hl : t.lent = c :: rest) :
    Counts { t with lent := rest } (some c) := by
  refine k.change rfl rfl k.sorted (fun _ h => h) fun d => ?_
  have hd := k.refs d
  show t.refs d = t.slots.count d + rest.count d + t.pins d + _
  simp only [Thread.uses, hl, Option.some.injEq, List.count_cons, beq_iff_eq, reduceCtorEq,
    ↓reduceIte] at hd ⊢
  omega

/-- The first of the slots held goes. -/
theorem dropFirst {rest : List (String × Nat)} (k : t.Counts none)
    (hs : t.slots.entries = (name, c) :: rest) : Counts { t with slots := ⟨rest⟩ } (some c) := by
  have hslots : t.slots = ⟨(name, c) :: rest⟩ := by rw [← hs]
  have hsorted : Directory.Sorted ⟨rest⟩ := by
    have := k.sorted
    rw [hslots] at this
    exact (List.pairwise_cons.mp this).2
  refine k.change rfl rfl hsorted (fun _ h => h) fun d => ?_
  have hd := k.refs d
  show t.refs d = Directory.count ⟨rest⟩ d + t.lent.count d + t.pins d + _
  simp only [Thread.uses, hslots, Directory.count_cons, Option.some.injEq, reduceCtorEq,
    ↓reduceIte] at hd ⊢
  omega

/-- A pinned claim of the cache comes into the hands of the operation. -/
theorem unpin (k : t.Counts none) (he : e ∈ t.cache) (hp : e.pinned) :
    (t.setPinned e.claim false).Counts (some e.claim) := by
  refine k.change rfl (claims_setPinned _ _ _) k.sorted (fun _ h => h) fun d => ?_
  have hd := k.refs d
  show t.refs d = t.slots.count d + t.lent.count d + (t.setPinned e.claim false).pins d + _
  simp only [Thread.uses, reduceCtorEq, ↓reduceIte, Option.some.injEq] at hd ⊢
  by_cases h : d = e.claim
  · have hpos : 0 < t.pins d := List.countP_pos_iff.mpr ⟨e, he, by simp [h, hp]⟩
    have hle := pins_le_one k.nodup d
    rw [h, pins_unpin, if_pos rfl]
    rw [h] at hd hpos hle
    omega
  · rw [pins_setPinned_of_ne h, if_neg (Ne.symm h)]
    exact hd

/-- A dead claim that the cache does not pin is forgotten. -/
theorem forget {i : Nat} (k : t.Counts none) (he : t.cache[i]? = some e) (hp : ¬e.pinned)
    (hd : ¬t.isLive e.claim) : (t.forget i).Counts none := by
  obtain ⟨l₁, l₂, hc, hf⟩ := exists_append_of_getElem? he
  have hsub : ((t.forget i).cache.map Cached.claim).Sublist (t.cache.map Cached.claim) :=
    (List.eraseIdx_sublist ..).map _
  refine ⟨fun d => ?_, k.sorted, k.nodup.sublist hsub,
    fun f hf => k.known f (List.mem_of_mem_eraseIdx hf), fun d hd' => ?_⟩
  · have hpins : (t.forget i).pins d = t.pins d := by
      simp only [pins, Thread.forget, hf]
      simp [hc, List.countP_append, hp]
    show t.refs d = t.slots.count d + t.lent.count d + (t.forget i).pins d + _
    rw [hpins]
    exact k.refs d
  · have hmem := k.cached d hd'
    have hne : d ≠ e.claim := fun h => hd (h ▸ hd')
    rw [hc] at hmem
    rw [Thread.forget, hf]
    simpa [hne] using hmem

/-- A new claim comes with one reference in the hands of the operation. -/
theorem enter (k : t.Counts none) (place : Place) : (t.enter place).Counts (some t.claims.size) := by
  have hfresh : t.claims.size ∉ t.cache.map Cached.claim := by
    intro h
    obtain ⟨e, he, hc⟩ := List.mem_map.mp h
    exact Nat.lt_irrefl _ (hc ▸ k.known e he)
  have hrefs (d : Nat) : (t.enter place).refs d = if d = t.claims.size then 1 else t.refs d := by
    simp only [Thread.refs, Thread.enter, Array.getElem?_push]
    by_cases h : d = t.claims.size <;> simp [h]
  refine ⟨fun d => ?_, k.sorted, ?_, fun e he => ?_, fun d hd => ?_⟩
  · rw [hrefs]
    have hr := k.refs d
    have hpins : (t.enter place).pins d = t.pins d := by simp [pins, Thread.enter, List.countP_append]
    show _ = t.slots.count d + t.lent.count d + (t.enter place).pins d + _
    rw [hpins]
    by_cases h : d = t.claims.size
    · have hzero : t.refs d = 0 := by
        by_contra hne
        exact Nat.lt_irrefl _ (h ▸ lt_size_of_isLive (isLive_iff.mpr hne))
      rw [hzero] at hr
      simp only [Thread.uses, reduceCtorEq, ↓reduceIte] at hr
      simp only [h, ↓reduceIte] at hr ⊢
      omega
    · simp only [reduceCtorEq, ↓reduceIte, h, Option.some.injEq, Ne.symm h] at hr ⊢
      exact hr
  · simpa [Thread.enter, List.nodup_append, k.nodup] using hfresh
  · simp only [Thread.enter, List.mem_append, List.mem_singleton, Array.size_push] at he ⊢
    obtain he | rfl := he
    · exact Nat.lt_succ_of_lt (k.known e he)
    · exact Nat.lt_succ_self _
  · rw [isLive_iff, hrefs] at hd
    by_cases h : d = t.claims.size
    · simp [Thread.enter, h]
    · rw [if_neg h] at hd
      rw [Thread.enter, List.map_append]
      exact List.mem_append_left _ (k.cached d (isLive_iff.mpr hd))

section Last

variable {rest : List Cached} (k : t.Counts none) (hs : t.slots.entries = []) (hl : t.lent = [])
  (hc : t.cache = e :: rest)

include k hc in
/-- The cache knows the claim of its first entry from that entry alone. -/
theorem claim_ne_of_mem {f : Cached} (hf : f ∈ rest) : f.claim ≠ e.claim := by
  have hnodup := k.nodup
  rw [hc, List.map_cons, List.nodup_cons] at hnodup
  exact fun h => hnodup.1 (h ▸ List.mem_map_of_mem hf)

include k hs hl hc in
/-- A thread that holds no slot any more has no references but the pins of its cache. -/
theorem refs_first : t.refs e.claim = if e.pinned then 1 else 0 := by
  have hrest : rest.countP (fun f => decide (f.claim = e.claim ∧ f.pinned)) = 0 :=
    List.countP_eq_zero.mpr fun f hf => by simp [claim_ne_of_mem k hc hf]
  have hslots : t.slots.count e.claim = 0 := by simp [Directory.count, hs]
  rw [k.refs, Thread.uses, pins, hslots, hl, hc, List.countP_cons, hrest]
  simp

include k hs hl hc in
theorem dropPlain (hp : ¬e.pinned) : Counts { t with cache := rest } none := by
  have hdead : ¬t.isLive e.claim := by simp [isLive_iff, refs_first k hs hl hc, hp]
  have dropped := k.forget (i := 0) (by rw [hc]; rfl) hp hdead
  rwa [Thread.forget, hc] at dropped

include k hs hl hc in
theorem dropPinned (hp : e.pinned) :
    (({ t with cache := rest } : Thread).letGo e.claim).1.Counts none := by
  have hcache : (t.setPinned e.claim false).cache = { e with pinned := false } :: rest := by
    have hmap :
        rest.map (fun f => if f.claim = e.claim then { f with pinned := false } else f) = rest :=
      (List.map_congr_left fun f hf => if_neg (claim_ne_of_mem k hc hf)).trans (List.map_id' rest)
    simp [setPinned, hc, hmap]
  have unpinned := k.unpin (e := e) (by simp [hc]) hp
  have hdead : ¬((t.setPinned e.claim false).letGo e.claim).1.isLive e.claim := by
    rw [isLive_letGo unpinned.isLive_of_eq_some]
    have hone : (t.setPinned e.claim false).refs e.claim = 1 := by
      rw [show (t.setPinned e.claim false).refs e.claim = t.refs e.claim from rfl,
        refs_first k hs hl hc, if_pos hp]
    simp [Thread.letGo, hone]
  have dropped := unpinned.letGo.forget (i := 0) (e := { e with pinned := false })
    (by rw [show ((t.setPinned e.claim false).letGo e.claim).1.cache = _ from hcache]; rfl)
    (by simp) hdead
  rwa [Thread.forget, show ((t.setPinned e.claim false).letGo e.claim).1.cache = _ from hcache]
    at dropped

end Last

end Counts

end Thread

end LockFreeStack
