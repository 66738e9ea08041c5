import LockFreeStack.Proofs.Hazard.Reachable
import LockFreeStack.Proofs.Hazard.Turns

/-!
What a thread on a hazard stack is doing, read off its call and the point where it stands. Each step
goes on in the same operation, and an answer fits the effects that the operation has had.
-/

namespace LockFreeStack

variable {α : Type}

namespace Nodes

/-- The value of the live node at an address. -/
def item? (h : Nodes α) (a : Address) : Option α := (h.plain? a).map Prod.fst

@[simp] theorem item?_setLink (h : Nodes α) (a next b : Address) :
    (h.updateAt a (·.setLink next)).item? b = h.item? b := by
  unfold item?
  rw [plain?_setLink]
  by_cases hb : b = a
  · subst hb
    cases h.plain? b <;> simp
  · simp [hb]

theorem item?_alloc (h : Nodes α) (v : α) (next a : Address) :
    Nodes.item? (h.alloc (.plain v next)) a = if a = .node h.next then some v else h.item? a := by
  unfold item?
  rw [plain?_alloc]
  by_cases ha : a = .node h.next <;> simp [ha]

theorem item?_release (h : Nodes α) (a b : Address) :
    (h.release a).item? b = if b = a then none else h.item? b := by
  unfold item?
  rw [plain?_release]
  by_cases hb : b = a <;> simp [hb]

theorem exists_of_item? {h : Nodes α} {a : Address} {v : α} (hv : h.item? a = some v) :
    ∃ next, h.plain? a = some (v, next) := by
  obtain ⟨⟨w, next⟩, hn, rfl⟩ := Option.map_eq_some_iff.mp hv
  exact ⟨next, hn⟩

/-- Nodes keep their values as long as they are there. -/
def Retains (h h' : Nodes α) : Prop :=
  ∀ a v, h.item? a = some v → (h'.item? a).isSome → h'.item? a = some v

namespace Retains

theorem refl (h : Nodes α) : h.Retains h := fun _ _ hv _ => hv

theorem setLink (h : Nodes α) (a next : Address) : h.Retains (h.updateAt a (·.setLink next)) :=
  fun b _ hv _ => (item?_setLink h a next b).trans hv

theorem recycle (h : Nodes α) (k : Nat) : h.Retains (h.recycle k) := by
  intro a v hv _
  rw [item?, plain?_recycle]
  exact hv

theorem alloc (h : Nodes α) (w : α) (next : Address) : h.Retains (h.alloc (.plain w next)) := by
  intro a v hv _
  have hne : a ≠ .node h.next := by
    rintro rfl
    rw [item?, plain?_next] at hv
    cases hv
  rw [item?_alloc, if_neg hne, hv]

theorem release (h : Nodes α) (a : Address) : h.Retains (h.release a) := by
  intro b v hv there
  rw [item?_release] at there ⊢
  by_cases hb : b = a
  · simp [hb] at there
  · rw [if_neg hb, hv]

end Retains

theorem Turns.retains {h h' : Nodes α} {new : List (Nat × Turnover)} (t : h.Turns h' new) :
    h.Retains h' := by
  cases t with
  | same => exact .refl h
  | alloc v next => exact .alloc h v next
  | setLink a next => exact .setLink h a next
  | release k => exact .release h _
  | recycle k => exact .recycle h k

end Nodes

namespace Hazard

/-- What a pop answers, as its effect. -/
def outcome : Option α → Effect α
  | some v => .pop v
  | none => .empty

namespace Pop

/-- The effects that a pop has had. -/
def had? (h : Nodes α) : Pop α → Option (List (Effect α))
  | protect _ | readNext _ | detach .. => some []
  | withdraw => some [.empty]
  | take a => (h.item? a).map fun v => [.pop v]
  | clear _ v | scan _ v _ | release _ v | park _ v | insert _ _ v | check v | reclaim _ v =>
    some [.pop v]

/-- A missed exchange comes after the effect, and before the answer. -/
theorem had?_miss {m m' : Memory α} {s : Nat} {place : Place} {own : Option Nat} {q : Pop α}
    {p : Point α} {es : List (Effect α)} (had : q.had? m.nodes = some es)
    (hm : (Point.hazardPop s place own q).miss? m = some (m', p)) :
    ∃ q', p = .hazardPop s place own q' ∧ q'.had? m'.nodes = some es := by
  cases q with
  | insert c r v =>
    cases r <;> cases hm
    exact ⟨_, rfl, had⟩
  | reclaim r v =>
    cases r with
    | restore c r deferred reclaimed =>
      cases r <;> cases hm
      exact ⟨_, rfl, had⟩
    | _ => cases hm
  | _ => cases hm

/-- A step with the effect `e` of a pop that has had the effects `es`. -/
def Proceeds (es : List (Effect α)) (e : Option (Nat × Effect α))
    (o : Outcome (Memory α) (Pop α) (Except Trouble (Option α)) α) : Prop :=
  match o.next with
  | .goto q => q.had? o.memory.nodes = some (es ++ (e.map Prod.snd).toList)
  | .done r => ∀ v, r = .ok v → es ++ (e.map Prod.snd).toList = [outcome v]
  | .fault _ => True

variable {m : Memory α} {s : Nat} {place : Place} {own : Option Nat} {es : List (Effect α)}
  {a next : Address} {v : α}

theorem proceeds_validate :
    Proceeds [] ((Point.hazardPop s place own (.protect (.validate a))).effect? m)
      ((protect (.validate a)).step m s place) := by
  by_cases ha : a = (m.hazard s).head
  · by_cases hn : a = .null
    · subst hn
      simp only [Proceeds, step, Protect.step, Outcome.within, Next.within, if_pos ha, ↓reduceIte,
        Point.effect?_validate ha.symm]
      rfl
    · simp only [Proceeds, step, Protect.step, Outcome.within, Next.within, if_pos ha, if_neg hn,
        Point.effect?_validate_of_ne (.inr hn)]
      rfl
  · simp only [Proceeds, step, Protect.step, Outcome.within, Next.within, if_neg ha,
      Point.effect?_validate_of_ne (.inl ha)]
    rfl

theorem proceeds_detach (there : (m.nodes.item? a).isSome) :
    Proceeds [] ((Point.hazardPop s place own (.detach a next)).effect? m)
      ((detach a next).step m s place) := by
  obtain ⟨v, hv⟩ := Option.isSome_iff_exists.mp there
  obtain ⟨below, hn⟩ := Nodes.exists_of_item? hv
  by_cases ha : (m.hazard s).head = a
  · simp only [Proceeds, step, if_pos ha, Point.effect?_detach ha hn]
    exact Option.map_eq_some_iff.mpr ⟨v, hv, rfl⟩
  · simp only [Proceeds, step, if_neg ha, Point.effect?_detach_of_ne ha]
    rfl

theorem proceeds_take (hv : m.nodes.item? a = some v) :
    Proceeds [.pop v] none ((take a).step m s place) := by
  obtain ⟨below, hn⟩ := Nodes.exists_of_item? hv
  simp only [Proceeds, step, hn]
  rfl

theorem proceeds {q : Pop α} (hq : q.had? m.nodes = some es)
    (there : ∀ a next, q = .detach a next → (m.nodes.item? a).isSome) :
    Proceeds es ((Point.hazardPop s place own q).effect? m) (q.step m s place) := by
  cases q with
  | protect q =>
    obtain rfl := Option.some.inj hq
    cases q with
    | load | publish => rfl
    | validate a => exact proceeds_validate
  | detach a next =>
    obtain rfl := Option.some.inj hq
    exact proceeds_detach (there a next rfl)
  | take a =>
    obtain ⟨v, hv, rfl⟩ := Option.map_eq_some_iff.mp hq
    exact proceeds_take hv
  | withdraw =>
    obtain rfl := Option.some.inj hq
    rintro _ ⟨⟩
    rfl
  | readNext a =>
    obtain rfl := Option.some.inj hq
    rcases hn : m.nodes.plain? a with _ | ⟨w, next⟩ <;> simp only [Proceeds, step, hn]
    rfl
  | clear a v | park a v =>
    obtain rfl := Option.some.inj hq
    rfl
  | scan a v i =>
    obtain rfl := Option.some.inj hq
    simp only [Proceeds, step]
    obtain j | found | f := Scan.find (m.table (m.hazard s).table) a i
    · rfl
    · cases found <;> rfl
    · trivial
  | release a v =>
    obtain rfl := Option.some.inj hq
    by_cases hl : m.nodes.isLiveAt a <;> simp only [Proceeds, step, hl, ↓reduceIte]
    · rfl
    · trivial
  | insert c p v =>
    obtain rfl := Option.some.inj hq
    simp only [Proceeds, step, Outcome.within]
    cases (m.insertStep (m.hazard s).list c p).next <;> trivial
  | check v =>
    obtain rfl := Option.some.inj hq
    simp only [Proceeds, step]
    by_cases he : (m.list (m.hazard s).list).isEmpty
    · rw [if_pos he]
      rintro _ ⟨⟩
      rfl
    · rw [if_neg he]
      rfl
  | reclaim p v =>
    obtain rfl := Option.some.inj hq
    simp only [Proceeds, step, Outcome.within]
    obtain q' | (e | n) | f := (m.drainStep (m.hazard s).list (m.hazard s).table p).next
    · rfl
    · rintro _ ⟨⟩
    · rintro _ ⟨⟩
      rfl
    · trivial

end Pop

/-- The operation of a call has had the effects `es` when it stands at a point. -/
inductive Had (h : Nodes α) : Call α → Point α → List (Effect α) → Prop where
  | allocate (s : Nat) (v : α) (granted : Bool) :
    Had h (.push s v granted) (.hazardPush s (.allocate v granted)) []
  | load {s : Nat} {v : α} {a : Address} (there : h.item? a = some v) :
    Had h (.push s v true) (.hazardPush s (.load a)) []
  | link {s : Nat} {v : α} {a seen : Address} (there : h.item? a = some v) :
    Had h (.push s v true) (.hazardPush s (.link a seen)) []
  | acquire (s t : Nat) (q : Acquire.Point) : Had h (.pop s) (.acquire t (.pop s) q) []
  | pop {s d : Nat} {place : Place} {q : Pop α} {es : List (Effect α)} (had : q.had? h = some es) :
    Had h (.pop s) (.hazardPop s place (some d) q) es
  | letGo {s d : Nat} {es : List (Effect α)} {a : Answer α} (fits : (Call.pop s).Fits es a) :
    Had h (.pop s) (.letGo d a) es
  | release {s : Nat} {place : Place} {q : Release.Point} {es : List (Effect α)} {a : Answer α}
    (fits : (Call.pop s).Fits es a) : Had h (.pop s) (.release place q a) es
  | lookup (s : Nat) (slot : String) (d : Nat) : Had h (.popWith s slot) (.popWith s d) []
  | popWith {s : Nat} {slot : String} {place : Place} {q : Pop α} {es : List (Effect α)}
    (had : q.had? h = some es) : Had h (.popWith s slot) (.hazardPop s place none q) es
  | reclaim (s l t : Nat) (q : Drain.Point) : Had h (.reclaim s) (.drain l t q) []

/-- The point after a step with the effect `e`, or the answer, belongs to the operation with the
effects had so far. -/
def Continues (c : Call α) (es : List (Effect α)) (e : Option (Nat × Effect α))
    (o : Outcome (Operation.State α) (Point α) (Answer α) α) : Prop :=
  match o.next with
  | .goto q => Had o.memory.1.nodes c q (es ++ (e.map Prod.snd).toList)
  | .done a => c.Fits (es ++ (e.map Prod.snd).toList) a
  | .fault _ => True

namespace Had

variable {h h' : Nodes α} {m m' : Memory α} {me : Thread} {c : Call α} {p q : Point α}
  {es : List (Effect α)} {s : Nat} {place : Place} {a seen : Address} {v : α}

/-- A thread that is left alone stays in its operation, as its node keeps its value. -/
theorem congr (hd : Had h c p es)
    (keep : ∀ a v, p.node? = some a → h.item? a = some v → h'.item? a = some v) : Had h' c p es := by
  have pop {s : Nat} {place : Place} {own : Option Nat} {q : Pop α} (hp : p = .hazardPop s place own q)
      (had : q.had? h = some es) : q.had? h' = some es := by
    cases q with
    | take a =>
      subst hp
      obtain ⟨v, hv, rfl⟩ := Option.map_eq_some_iff.mp had
      exact Option.map_eq_some_iff.mpr ⟨v, keep a v rfl hv, rfl⟩
    | _ => exact had
  cases hd with
  | allocate => exact .allocate ..
  | load there => exact .load (keep _ _ rfl there)
  | link there => exact .link (keep _ _ rfl there)
  | acquire => exact .acquire ..
  | pop had => exact .pop (pop rfl had)
  | letGo fits => exact .letGo fits
  | release fits => exact .release fits
  | lookup => exact .lookup ..
  | popWith had => exact .popWith (pop rfl had)
  | reclaim => exact .reclaim ..

theorem start {s : Nat} (hs : c.stack? = some s) (h : c.start? m me = some p) :
    Had m.nodes c p [] := by
  cases c with
  | push t v granted =>
    simp only [Call.start?, Option.ite_none_right_eq_some, Option.some.injEq] at h
    obtain ⟨-, rfl⟩ := h
    exact .allocate ..
  | pop t =>
    simp only [Call.start?, Option.ite_none_right_eq_some, Option.some.injEq] at h
    obtain ⟨-, rfl⟩ := h
    exact .acquire ..
  | popWith t slot =>
    simp only [Call.start?, Option.ite_none_right_eq_some, Option.map_eq_some_iff] at h
    obtain ⟨-, d, -, rfl⟩ := h
    exact .lookup ..
  | reclaim t =>
    simp only [Call.start?, Option.ite_none_right_eq_some, Option.some.injEq] at h
    obtain ⟨-, rfl⟩ := h
    exact .reclaim ..
  | _ => cases hs

theorem miss (hd : Had m.nodes c p es) (hm : p.miss? m = some (m', q)) : Had m'.nodes c q es := by
  cases hd with
  | link there =>
    obtain ⟨rfl, rfl⟩ := Prod.mk.inj (Option.some.inj hm)
    exact .link ((Nodes.item?_setLink ..).trans there)
  | pop had =>
    obtain ⟨q', rfl, had'⟩ := Pop.had?_miss had hm
    exact .pop had'
  | popWith had =>
    obtain ⟨q', rfl, had'⟩ := Pop.had?_miss had hm
    exact .popWith had'
  | reclaim s l t q =>
    cases q with
    | restore c r deferred reclaimed =>
      cases r <;> cases hm
      exact .reclaim ..
    | _ => cases hm
  | _ => cases hm

theorem continues_allocate (s : Nat) (v : α) (granted : Bool) :
    Continues (.push s v granted) [] ((Point.hazardPush s (.allocate v granted)).effect? m)
      (Operation.step (m, me) (.hazardPush s (.allocate v granted))) := by
  cases granted with
  | true => exact .load ((Nodes.item?_alloc ..).trans (if_pos rfl))
  | false => exact .refused s v

theorem continues_load (there : m.nodes.item? a = some v) :
    Continues (.push s v true) [] none (Operation.step (m, me) (.hazardPush s (.load a))) :=
  Had.link there

theorem continues_link (there : m.nodes.item? a = some v) :
    Continues (.push s v true) [] ((Point.hazardPush s (.link a seen)).effect? m)
      (Operation.step (m, me) (.hazardPush s (.link a seen))) := by
  obtain ⟨next, hn⟩ := Nodes.exists_of_item? there
  -- The node's own link is set before the head is looked at.
  have head : (Memory.hazard { m with nodes := m.nodes.updateAt a (·.setLink seen) } s).head =
      (m.hazard s).head := rfl
  by_cases hs : (m.hazard s).head = seen
  · simp only [Continues, Operation.step, Push.step, hn, Point.effect?_link hs hn, Outcome.within, head,
      if_pos hs]
    exact .pushed s v
  · simp only [Continues, Operation.step, Push.step, hn, Point.effect?_link_of_ne hs, Outcome.within, head,
      if_neg hs]
    exact .link ((Nodes.item?_setLink ..).trans there)

theorem continues_acquire {t : Nat} {q : Acquire.Point}
    (seated : Seated m.tables me (some (.acquire t (.pop s) q : Point α))) (h0 : me.token ≠ 0) :
    Continues (.pop s) [] none (Operation.step (m, me) (.acquire t (.pop s) q)) := by
  have k : Acquire.Keeps t m.tables me.token (Acquire.step (α := α) t true (m.tables, me) q) :=
    Acquire.Sound.step ⟨seated.counts, seated.owns, seated.fitting _ rfl⟩ h0
  simp only [Continues, Operation.step, Purpose.pins]
  rcases ho : Acquire.step (α := α) t true (m.tables, me) q with
    ⟨⟨ts', me'⟩, q' | (e | d) | f, notes⟩ <;> rw [ho] at k
  · exact .acquire ..
  · obtain ⟨-, -, n, rfl⟩ := k.next
    exact .exhausted s n
  · obtain ⟨place, hplace, -⟩ := k.next.place
    simp only [Operation.acquired, hplace]
    exact .pop rfl
  · trivial

/-- What a pop ends with. -/
theorem fits_pop (s : Nat) (v : Option α) : (Call.pop s).Fits [outcome v] (.popped v) := by
  cases v with
  | none => exact .empty s
  | some v => exact .popped s v

theorem fits_popWith (s : Nat) (slot : String) (v : Option α) :
    (Call.popWith s slot).Fits [outcome v] (.popped v) := by
  cases v with
  | none => exact .emptyWith s slot
  | some v => exact .poppedWith s slot v

theorem continues_pop {q : Pop α} {e : Option (Nat × Effect α)} {d : Nat}
    (k : Pop.Proceeds es e (q.step m s place))
    (good : ∀ r, (q.step m s place).next = .done r → ∃ v, r = .ok v) :
    Continues (.pop s) es e (Operation.step (m, me) (.hazardPop s place (some d) q)) := by
  simp only [Continues, Operation.step, Outcome.within]
  rcases ho : q.step m s place with ⟨m', q' | r | f, notes⟩ <;> rw [ho] at k good
  · exact .pop k
  · obtain ⟨v, rfl⟩ := good r rfl
    refine .letGo ?_
    rw [k v rfl]
    exact fits_pop s v
  · trivial

theorem continues_popWith {q : Pop α} {e : Option (Nat × Effect α)} {slot : String}
    (k : Pop.Proceeds es e (q.step m s place))
    (good : ∀ r, (q.step m s place).next = .done r → ∃ v, r = .ok v) :
    Continues (.popWith s slot) es e (Operation.step (m, me) (.hazardPop s place none q)) := by
  simp only [Continues, Operation.step, Outcome.within]
  rcases ho : q.step m s place with ⟨m', q' | r | f, notes⟩ <;> rw [ho] at k good
  · exact .popWith k
  · obtain ⟨v, rfl⟩ := good r rfl
    simp only [Next.within]
    rw [k v rfl]
    exact fits_popWith s slot v
  · trivial

theorem continues_letGo {d : Nat} {answer : Answer α} (fits : (Call.pop s).Fits es answer) :
    Continues (.pop s) es none (Operation.step (m, me) (.letGo d answer)) := by
  simp only [Continues, Operation.step, Operation.letGo, Option.map_none, Option.toList_none,
    List.append_nil]
  obtain _ | place := me.place? d <;> obtain ⟨me', _ | _⟩ := me.letGo d
  · exact fits
  · exact fits
  · exact fits
  · exact .release fits

theorem continues_release {q : Release.Point} {answer : Answer α}
    (fits : (Call.pop s).Fits es answer) :
    Continues (.pop s) es none (Operation.step (m, me) (.release place q answer)) := by
  simp only [Continues, Operation.step, Outcome.within, Option.map_none, Option.toList_none,
    List.append_nil]
  cases q with
  | clear => exact .release fits
  | disown => exact fits

theorem continues_lookup (s : Nat) (slot : String) (d : Nat) :
    Continues (.popWith s slot) [] none (Operation.step (m, me) (.popWith s d)) := by
  simp only [Continues, Operation.step]
  obtain _ | place := me.place? d
  · exact .foreign s slot
  · dsimp only
    by_cases ht : place.table = (m.hazard s).table
    · rw [if_pos ht]
      exact .popWith rfl
    · rw [if_neg ht]
      exact .foreign s slot

end Had

end Hazard

end LockFreeStack
