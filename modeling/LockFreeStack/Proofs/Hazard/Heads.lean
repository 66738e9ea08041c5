import LockFreeStack.Proofs.Hazard.Content
import LockFreeStack.Proofs.Retries

/-!
The heads of hazard stacks, and what the operations on a stack take its head to be. Whoever has seen
another head than is there now is yet to start over.
-/

namespace LockFreeStack

variable {α : Type} {m : Memory α} {i s : Nat}

/-- What a moment in the history of a stack tells about the stack's head. -/
def Beat.ofMoment? {ο : Type} : Moment Nat ο α → Option (Beat Nat)
  | .call i _ => some (.begins i)
  | .effect i (.push _) | .effect i (.pop _) => some (.changes i true)
  | .effect _ .empty | .answer .. => none

namespace Hazard

/-- What a push takes the head of the stack to be. -/
def Push.seen? : Push α → Option Address
  | link _ seen => some seen
  | _ => none

/-- The exchange has failed, and is going to be tried again. -/
def Push.retries : Push α → Push α → Bool
  | link .., link .. => true
  | _, _ => false

def Pop.seen? : Pop α → Option Address
  | protect (.publish a) | protect (.validate a) | readNext a | detach a _ => some a
  | _ => none

/-- The head read again, or the head exchanged, is not the one that the pop has published. -/
def Pop.retries : Pop α → Pop α → Bool
  | protect (.validate _), protect (.publish _) | detach .., protect .load => true
  | _, _ => false

end Hazard

namespace Point

/-- What an operation takes the head of the stack `s` to be. -/
def seen? (s : Nat) : Point α → Option Address
  | hazardPush t q => if t = s then q.seen? else none
  | hazardPop t _ _ q => if t = s then q.seen? else none
  | _ => none

/-- The operation starts over because of the head of the stack `s`. -/
def retries (s : Nat) : Point α → Point α → Bool
  | hazardPush t q, hazardPush _ q' => t = s && q.retries q'
  | hazardPop t _ _ q, hazardPop _ _ _ q' => t = s && q.retries q'
  | _, _ => false

end Point

namespace Hazard

/-- The part of the history of a head that one step of thread `i` adds. -/
def stepBeats (s i : Nat) (m : Memory α) (p : Point α) (next : Option (Point α)) : List (Beat Nat) :=
  (if next.any (p.retries s) then [.fails i] else []) ++
    ((effectOn s (p.effect? m)).toList.map (Moment.effect (ο := Call α) i)).filterMap Beat.ofMoment?

section StepBeats

variable {p : Point α} {next : Option (Point α)} {a : Address} {e : Effect α}

theorem stepBeats_eq_nil (goes : next.any (p.retries s) = false)
    (effect : ∀ e, effectOn s (p.effect? m) = some e → e = .empty) : stepBeats s i m p next = [] := by
  have beats : ((effectOn s (p.effect? m)).toList.map (Moment.effect (ο := Call α) i)).filterMap
      Beat.ofMoment? = [] := by
    cases he : effectOn s (p.effect? m) with
    | none => rfl
    | some e => rw [effect e he]; rfl
  rw [stepBeats, goes, beats]
  rfl

theorem stepBeats_of_retries (retries : next.any (p.retries s)) (effect : p.effect? m = none) :
    stepBeats s i m p next = [.fails i] := by
  simp [stepBeats, retries, effect, effectOn]

theorem stepBeats_of_effect (goes : next.any (p.retries s) = false)
    (effect : p.effect? m = some (s, e)) (hne : e ≠ .empty) :
    stepBeats s i m p next = [.changes i true] := by
  have here : effectOn s (some (s, e)) = some e := effectOn_of_forall (by rintro _ _ ⟨⟩; rfl)
  rw [stepBeats, goes, effect, here]
  cases e <;> simp [Beat.ofMoment?] at hne ⊢

end StepBeats

theorem Push.round {q : Push α}
    (there : ∀ a seen, q = .link a seen → ∃ x, m.nodes.plain? a = some x) :
    Round i (m.hazard s).head ((q.step m s).memory.hazard s).head q.seen?
      ((q.step m s).next.point?.bind Push.seen?)
      (stepBeats s i m (.hazardPush s q) ((q.step m s).next.point?.map (.hazardPush s))) := by
  cases q with
  | allocate v granted =>
    rw [stepBeats_eq_nil (by cases granted <;> simp [step, Next.point?, Point.retries, retries])
      (by simp [Point.effect?, effectOn])]
    cases granted <;> exact .quiet rfl fun _ h => by cases h
  | load a =>
    rw [stepBeats_eq_nil (by simp [step, Next.point?, Point.retries, retries])
      (by simp [Point.effect?, effectOn])]
    exact .quiet rfl fun _ h => .inl (Option.some.inj h).symm
  | link a seen =>
    obtain ⟨x, hx⟩ := there a seen rfl
    by_cases hseen : (m.hazard s).head = seen
    · subst hseen
      have next : (Push.step m s (.link a (m.hazard s).head)).next.point? = none := by
        simp only [step, hx]
        rw [if_pos (by rfl)]
        rfl
      rw [next, stepBeats_of_effect rfl (Point.effect?_link rfl hx) (by simp)]
      exact .settles true
    · simp only [step, hx]
      rw [if_neg (by exact hseen),
        stepBeats_of_retries (by simp [Next.point?, Point.retries, retries]) (Point.effect?_link_of_ne hseen)]
      exact .fails seen rfl rfl (Ne.symm hseen) fun v hv => (Option.some.inj hv).symm

theorem head_setHead_of_ne {t : Nat} (h : t ≠ s) (m : Memory α) (a : Address) :
    ((m.setHead t a).hazard s).head = (m.hazard s).head := by
  simp only [Memory.hazard, Memory.setHead, Array.getElem?_modify, if_neg h]

theorem Push.head_of_ne {t : Nat} (h : t ≠ s) (q : Push α) :
    ((q.step m t).memory.hazard s).head = (m.hazard s).head := by
  cases q with
  | allocate v granted => cases granted <;> rfl
  | load a => rfl
  | link a seen =>
    simp only [step]
    repeat' split
    · rfl
    · exact head_setHead_of_ne h _ _
    · rfl

theorem Pop.head_drainStep (l t : Nat) (p : Drain.Point) :
    ((m.drainStep l t p).memory.hazard s).head = (m.hazard s).head := by
  cases p with
  | delete a d w =>
    simp only [Memory.drainStep]
    split
    · cases d <;> rfl
    · rfl
  | _ => rfl

namespace Pop

variable {place : Place} {own : Option Nat} {q : Pop α}

/-- A step that does not compare anything with the head. -/
theorem round_quiet (head : ((q.step m s place).memory.hazard s).head = (m.hazard s).head)
    (seen : ∀ v, ((q.step m s place).next.point?.bind Pop.seen?) = some v →
      v = (m.hazard s).head ∨ q.seen? = some v)
    (goes : ∀ q', q.retries q' = false) (effect : (Point.hazardPop s place own q).effect? m = none) :
    Round i (m.hazard s).head ((q.step m s place).memory.hazard s).head q.seen?
      ((q.step m s place).next.point?.bind Pop.seen?)
      (stepBeats s i m (.hazardPop s place own q)
        ((q.step m s place).next.point?.map (.hazardPop s place own))) := by
  rw [stepBeats_eq_nil (by simp [Option.any_map, Point.retries, goes]) (by simp [effect, effectOn])]
  exact .quiet head seen

theorem round_validate (m : Memory α) (s i : Nat) (place : Place) (own : Option Nat) (a : Address) :
    Round i (m.hazard s).head ((step m s place (.protect (.validate a))).memory.hazard s).head (some a)
      ((step m s place (.protect (.validate a))).next.point?.bind Pop.seen?)
      (stepBeats s i m (.hazardPop s place own (.protect (.validate a)))
        ((step m s place (.protect (.validate a))).next.point?.map (.hazardPop s place own))) := by
  simp only [step, Protect.step, Outcome.within, Next.within]
  by_cases ha : a = (m.hazard s).head
  · have effect : ∀ e, effectOn s ((Point.hazardPop s place own (.protect (.validate a))).effect? m) =
        some e → e = .empty := by
      by_cases hn : (m.hazard s).head = .null
      · rw [ha, hn, Point.effect?_validate hn, effectOn_of_forall (by rintro _ _ ⟨⟩; rfl)]
        exact fun e he => (Option.some.inj he).symm
      · rw [Point.effect?_validate_of_ne (.inr (ha ▸ hn))]
        intro e he
        cases he
    simp only [if_pos ha]
    rw [stepBeats_eq_nil (by split <;> simp [Next.point?, Point.retries, retries]) effect]
    refine .quiet rfl fun v hv => ?_
    split at hv <;> cases hv
    exact .inr rfl
  · simp only [if_neg ha]
    rw [stepBeats_of_retries (by simp [Next.point?, Point.retries, retries])
      (Point.effect?_validate_of_ne (.inl ha))]
    exact .fails a rfl rfl ha fun v hv => (Option.some.inj hv).symm

theorem round_detach {a : Address} {x : α × Address} (hx : m.nodes.plain? a = some x) (place : Place)
    (own : Option Nat) (next : Address) :
    Round i (m.hazard s).head ((step m s place (.detach a next)).memory.hazard s).head (some a)
      ((step m s place (.detach a next)).next.point?.bind Pop.seen?)
      (stepBeats s i m (.hazardPop s place own (.detach a next))
        ((step m s place (.detach a next)).next.point?.map (.hazardPop s place own))) := by
  by_cases ha : (m.hazard s).head = a
  · subst ha
    simp only [step, ↓reduceIte]
    rw [stepBeats_of_effect (by simp [Next.point?, Point.retries, retries])
      (Point.effect?_detach rfl hx) (by simp)]
    exact .settles true
  · simp only [step, if_neg ha]
    rw [stepBeats_of_retries (by simp [Next.point?, Point.retries, retries, start])
      (Point.effect?_detach_of_ne ha)]
    exact .fails a rfl rfl (Ne.symm ha) fun v hv => by cases hv

theorem round (there : ∀ a next, q = .detach a next → ∃ x, m.nodes.plain? a = some x) :
    Round i (m.hazard s).head ((q.step m s place).memory.hazard s).head q.seen?
      ((q.step m s place).next.point?.bind Pop.seen?)
      (stepBeats s i m (.hazardPop s place own q)
        ((q.step m s place).next.point?.map (.hazardPop s place own))) := by
  cases q with
  | protect q =>
    cases q with
    | load => exact round_quiet rfl (fun v h => .inl (Option.some.inj h).symm) (fun _ => rfl) rfl
    | publish a => exact round_quiet rfl (fun v h => .inr h) (fun _ => rfl) rfl
    | validate a => exact round_validate m s i place own a
  | readNext a =>
    refine round_quiet ?_ (fun v h => ?_) (fun _ => rfl) rfl
    · simp only [step]
      split <;> rfl
    · simp only [step] at h
      split at h
      · cases h
      · exact .inr h
  | detach a next =>
    obtain ⟨x, hx⟩ := there a next rfl
    exact round_detach hx place own next
  | insert c q v =>
    refine round_quiet rfl (fun u h => ?_) (fun _ => rfl) rfl
    simp only [step] at h
    rcases ho : m.insertStep (m.hazard s).list c q with ⟨m', q' | r | f, notes⟩ <;> rw [ho] at h <;> cases h
  | reclaim q v =>
    refine round_quiet (head_drainStep ..) (fun u h => ?_) (fun _ => rfl) rfl
    simp only [step] at h
    rcases ho : m.drainStep (m.hazard s).list (m.hazard s).table q with ⟨m', q' | (e | n) | f, notes⟩ <;>
      rw [ho] at h <;> cases h
  | _ =>
    refine round_quiet ?_ (fun u h => ?_) (fun _ => rfl) rfl
    all_goals
      simp only [step] at *
      repeat' split at *
    all_goals first | rfl | cases h

end Pop

theorem Pop.head_of_ne {t : Nat} (h : t ≠ s) (place : Place) (q : Pop α) :
    ((q.step m t place).memory.hazard s).head = (m.hazard s).head := by
  cases q with
  | protect q | insert c q v | park a v => rfl
  | detach a next =>
    simp only [step]
    split
    · exact head_setHead_of_ne h _ _
    · rfl
  | reclaim q v => exact head_drainStep ..
  | _ =>
    simp only [step]
    repeat' split
    all_goals rfl

namespace Crowd

variable {x : Crowd α} {c : Call α} {p : Point α} {g : Ghost}

/-- What thread `i` takes the head of the stack `s` to be. -/
def seen? (x : Crowd α) (s i : Nat) : Option Address := (x.point i).bind (Point.seen? s)

theorem point?_within {κ ρ β : Type} {n : Next κ ρ} {point : κ → Point α}
    {result : ρ → Next (Point α) (Answer α)} (f : Option (Point α) → β)
    (ends : ∀ r q, result r = .goto q → f (some q) = f none) :
    f (n.within point result).point? = f (n.point?.map point) := by
  cases n with
  | goto q => rfl
  | done r =>
    change f (result r).point? = f none
    cases hr : result r with
    | goto q => exact ends r q hr
    | done a => rfl
    | fault f => rfl
  | fault f => rfl

/-- An operation that does not look at the head of the stack `s`. -/
theorem round_away {head' : Address} {next : Option (Point α)} (head : head' = (m.hazard s).head)
    (goes : ∀ q, p.retries s q = false) (effect : ∀ t e, p.effect? m = some (t, e) → t ≠ s)
    (seen : ∀ q, next = some q → q.seen? s = none) :
    Round i (m.hazard s).head head' (p.seen? s) (next.bind (Point.seen? s)) (stepBeats s i m p next) := by
  rw [stepBeats_eq_nil (by cases next <;> simp [goes]) (by simp [effectOn_of_ne effect])]
  refine .quiet head fun v hv => ?_
  obtain ⟨q, hq, hv⟩ := Option.bind_eq_some_iff.mp hv
  simp [seen q hq] at hv

theorem Stable.exists_plain (k : x.Stable g) (hb : x.busy i = some (c, p)) {a : Address}
    (ha : p.node? = some a) : ∃ y, x.memory.nodes.plain? a = some y := by
  obtain ⟨v, hv⟩ := Option.isSome_iff_exists.mp (k.item?_isSome ⟨c, p, hb, ha⟩)
  obtain ⟨y, hy, -⟩ := Option.map_eq_some_iff.mp hv
  exact ⟨y, hy⟩

/-- The effect that the operation on one stack has is none on another. -/
theorem Stable.effect?_ne (k : x.Stable g) {t : Nat} (hb : x.busy i = some (c, p)) (hc : c.stack? = some t)
    (ht : t ≠ s) (u : Nat) (e : Effect α) (he : p.effect? x.memory = some (u, e)) : u ≠ s := by
  rintro rfl
  exact ht (Option.some.inj (hc.symm.trans ((k.proper.proper i c p hb).stack_of_effect? he)))

/-- An operation on the stack `t` looks at the head of the stack `s` if these are the same. -/
theorem round_of_part {κ : Type} {t : Nat} {head' : Address} {q : κ} {next : Option κ} {point : κ → Point α}
    {own : κ → Option Address} (seen : ∀ q, (point q).seen? s = if t = s then own q else none)
    (goes : t ≠ s → ∀ q', (point q).retries s q' = false) (head : t ≠ s → head' = (m.hazard s).head)
    (effect : t ≠ s → ∀ u e, (point q).effect? m = some (u, e) → u ≠ s)
    (here : t = s → Round i (m.hazard s).head head' (own q) (next.bind own)
      (stepBeats s i m (point q) (next.map point))) :
    Round i (m.hazard s).head head' ((point q).seen? s) ((next.map point).bind (Point.seen? s))
      (stepBeats s i m (point q) (next.map point)) := by
  by_cases ht : t = s
  · have own_eq : Point.seen? s ∘ point = own := funext fun q => (seen q).trans (if_pos ht)
    rw [Option.bind_map, own_eq, seen, if_pos ht]
    exact here ht
  · refine round_away (head ht) (goes ht) (effect ht) fun q' hq' => ?_
    obtain ⟨q'', -, rfl⟩ := Option.map_eq_some_iff.mp hq'
    exact (seen q'').trans (if_neg ht)

theorem Stable.round_push (k : x.Stable g) {t : Nat} {q : Push α} (hb : x.busy i = some (c, .hazardPush t q))
    (s : Nat) :
    Round i (x.memory.hazard s).head ((q.step x.memory t).memory.hazard s).head
      ((Point.hazardPush t q : Point α).seen? s)
      (((q.step x.memory t).next.point?.map (Point.hazardPush t)).bind (Point.seen? s))
      (stepBeats s i x.memory (.hazardPush t q)
        ((q.step x.memory t).next.point?.map (Point.hazardPush t))) := by
  refine round_of_part (fun _ => rfl) (fun ht q' => ?_) (Push.head_of_ne · q)
    (k.effect?_ne hb (k.proper.proper i c _ hb).1) fun ht => ?_
  · cases q' <;> simp [Point.retries, ht]
  · subst ht
    refine Push.round fun a seen hq => ?_
    subst hq
    exact k.exists_plain hb rfl

theorem Stable.round_pop (k : x.Stable g) {t : Nat} {place : Place} {own : Option Nat} {q : Pop α}
    (hb : x.busy i = some (c, .hazardPop t place own q)) (s : Nat) :
    Round i (x.memory.hazard s).head ((q.step x.memory t place).memory.hazard s).head
      ((Point.hazardPop t place own q : Point α).seen? s)
      (((q.step x.memory t place).next.point?.map (Point.hazardPop t place own)).bind (Point.seen? s))
      (stepBeats s i x.memory (.hazardPop t place own q)
        ((q.step x.memory t place).next.point?.map (Point.hazardPop t place own))) := by
  refine round_of_part (fun _ => rfl) (fun ht q' => ?_) (Pop.head_of_ne · place q)
    (k.effect?_ne hb (k.proper.proper i c _ hb).1) fun ht => ?_
  · cases q' <;> simp [Point.retries, ht]
  · subst ht
    refine Pop.round fun a next hq => ?_
    subst hq
    exact k.exists_plain hb rfl

/-- What a step of thread `i` does to the head of the stack `s` and to what the thread takes it to be. -/
theorem Stable.round_step (k : x.Stable g) (hb : x.busy i = some (c, p)) (s : Nat) :
    Round i (x.memory.hazard s).head ((Operation.step (x.memory, x.me i) p).memory.1.hazard s).head (p.seen? s)
      ((Operation.step (x.memory, x.me i) p).next.point?.bind (Point.seen? s))
      (stepBeats s i x.memory p (Operation.step (x.memory, x.me i) p).next.point?) := by
  have onRecords (hp : p.OnRecords) (goes : ∀ q, p.retries s q = false) (effect : p.effect? x.memory = none) :
      Round i (x.memory.hazard s).head ((Operation.step (x.memory, x.me i) p).memory.1.hazard s).head
        (p.seen? s) ((Operation.step (x.memory, x.me i) p).next.point?.bind (Point.seen? s))
        (stepBeats s i x.memory p (Operation.step (x.memory, x.me i) p).next.point?) := by
    obtain ⟨⟨ts, hts⟩, next, -⟩ := Operation.stays_step hp x.memory (x.me i)
    refine round_away (by rw [hts]; rfl) goes (by simp [effect]) fun q hq => ?_
    rcases ho : Operation.step (x.memory, x.me i) p with ⟨st, q' | a | f, notes⟩ <;> rw [ho] at next hq <;>
      cases hq
    obtain hq | ⟨t, place, own, rfl⟩ := next
    · cases q <;> first | rfl | exact hq.elim
    · exact ite_self none
  cases p with
  | hazardPush t q =>
    refine (point?_within (fun next => Round i _ _ _ (next.bind (Point.seen? s))
      (stepBeats s i x.memory (.hazardPush t q) next)) fun r q' h => ?_).mpr (k.round_push hb s)
    cases h
  | hazardPop t place own q =>
    refine (point?_within (fun next => Round i _ _ _ (next.bind (Point.seen? s))
      (stepBeats s i x.memory (.hazardPop t place own q) next)) fun r q' h => ?_).mpr (k.round_pop hb s)
    cases own <;> cases h
    rfl
  | drain l t q =>
    refine round_away (Pop.head_drainStep l t q) (fun _ => rfl) (fun u e he => by cases he) fun q' hq' => ?_
    rcases ho : x.memory.drainStep l t q with ⟨m, q'' | r | f, notes⟩ <;>
      simp [Operation.step, ho, Outcome.within, Next.within, Next.point?] at hq'
    subst hq'
    rfl
  | acquire | popWith | publish | dropSlot | takeBack | letGo | release | exit | exitRelease =>
    exact onRecords trivial (fun _ => rfl) rfl
  | _ => exact ((k.orderly.seated_of_busy hb).fitting _ rfl).elim

theorem miss?_of_retries (h : p.retries s p) : ∃ o, p.miss? m = some o := by
  cases p with
  | hazardPush t q =>
    cases q with
    | link a seen => exact ⟨_, rfl⟩
    | _ => simp [Point.retries, Push.retries] at h
  | hazardPop t place own q =>
    cases q with
    | protect q => cases q <;> simp [Point.retries, Pop.retries] at h
    | _ => simp [Point.retries, Pop.retries] at h
  | _ => cases h

/-- An exchange that misses fails if it has found another head than it expects. -/
theorem round_miss {q : Point α} {m' : Memory α} (hm : p.miss? m = some (m', q)) :
    Round i (m.hazard s).head (m'.hazard s).head (p.seen? s) (q.seen? s)
      (if p.retries s q ∧ p.seen? s ≠ some (m.hazard s).head then [.fails i] else []) := by
  unfold Point.miss? at hm
  split at hm
  · rename_i t node seen
    obtain ⟨rfl, rfl⟩ := Prod.mk.inj (Option.some.inj hm)
    by_cases ht : t = s
    · subst ht
      by_cases hseen : seen = (m.hazard t).head
      · subst hseen
        rw [if_neg (by simp [Point.seen?, Push.seen?])]
        exact .quiet rfl fun v hv => .inr hv
      · rw [if_pos (by simp [Point.retries, Push.retries, Point.seen?, Push.seen?, hseen])]
        exact .fails seen rfl (if_pos rfl) hseen fun v hv => by
          simpa [Point.seen?, Push.seen?, eq_comm] using hv
    · rw [if_neg (by simp [Point.retries, ht])]
      exact .quiet rfl fun v hv => by simp [Point.seen?, ht] at hv
  · obtain ⟨rfl, rfl⟩ := Prod.mk.inj (Option.some.inj hm)
    rw [if_neg (by simp [Point.retries, Pop.retries])]
    exact .quiet rfl fun v hv => by simp [Point.seen?, Pop.seen?] at hv
  · obtain ⟨rfl, rfl⟩ := Prod.mk.inj (Option.some.inj hm)
    rw [if_neg (by simp [Point.retries, Pop.retries])]
    exact .quiet rfl fun v hv => by simp [Point.seen?, Pop.seen?] at hv
  · obtain ⟨rfl, rfl⟩ := Prod.mk.inj (Option.some.inj hm)
    rw [if_neg (by simp [Point.retries])]
    exact .quiet rfl fun v hv => by cases hv
  · cases hm

theorem seen?_start {me : Thread} (h : c.start? m me = some p) : p.seen? s = none := by
  obtain hp | ⟨t, v, granted, rfl⟩ | ⟨t, rfl⟩ := c.start_cases h
  · cases p <;> first | rfl | exact hp.elim
  · exact ite_self none
  · rfl

/-- Thread `i` starts over because of the head of the stack `s`. -/
def retries (x y : Crowd α) (s i : Nat) : Bool :=
  (x.point i).any fun p => (y.point i).any (p.retries s)

/-- What a move adds to the history of the head of the stack `s`. An exchange that misses what it
finds has not failed. -/
def headBeats (s : Nat) (x : Crowd α) (mv : Move α) : List (Beat Nat) :=
  (match mv with
    | .step i => if x.retries (x.move mv) s i then [.fails i] else []
    | .miss i =>
      if x.retries (x.move mv) s i ∧ x.seen? s i ≠ some (x.memory.hazard s).head then [.fails i] else []
    | _ => []) ++ (moments s x mv).filterMap Beat.ofMoment?

theorem seen?_set {st : Operation.State α} {b : Option (Call α × Point α)} :
    (x.set i st b).seen? s i = (b.map Prod.snd).bind (Point.seen? s) := by
  simp [seen?, point, set]

theorem seen?_of_busy (hb : x.busy i = some (c, p)) : x.seen? s i = p.seen? s := by
  simp [seen?, point, hb]

theorem round_still {mv : Move α} (s i : Nat) (h : x.move mv = x) (beats : headBeats s x mv = []) :
    Round i (x.memory.hazard s).head ((x.move mv).memory.hazard s).head (x.seen? s i)
      ((x.move mv).seen? s i) (headBeats s x mv) := by
  rw [h, beats]
  exact .quiet rfl fun v hv => .inr hv

theorem round_call (x : Crowd α) (s i : Nat) (c : Call α) :
    Round i (x.memory.hazard s).head ((x.move (.call i c)).memory.hazard s).head (x.seen? s i)
      ((x.move (.call i c)).seen? s i) (headBeats s x (.call i c)) := by
  cases hb : x.busy i with
  | some b => exact round_still s i (by simp [move, hb]) (by simp [headBeats, moments, hb])
  | none =>
    cases hc : c.start? x.memory (x.me i) with
    | none => exact round_still s i (by simp [move, hb, hc]) (by simp [headBeats, moments, hb, hc])
    | some p =>
      have after : x.move (.call i c) = x.set i (x.memory, x.me i) (some (c, p)) := by
        simp only [move, hb, hc]
      have own : (x.move (.call i c)).seen? s i = none := by
        rw [after, seen?_set]
        exact seen?_start hc
      rw [own, after]
      by_cases hs : c.stack? = some s
      · rw [show headBeats s x (.call i c) = [.begins i] by simp [headBeats, moments, hb, hc, hs, Beat.ofMoment?]]
        exact .begins rfl rfl
      · rw [show headBeats s x (.call i c) = [] by simp [headBeats, moments, hb, hc, hs]]
        exact .rest rfl

theorem Stable.round_turn (k : x.Stable g) (s i : Nat) :
    Round i (x.memory.hazard s).head ((x.move (.step i)).memory.hazard s).head (x.seen? s i)
      ((x.move (.step i)).seen? s i) (headBeats s x (.step i)) := by
  cases hb : x.busy i with
  | none =>
    exact round_still s i (by simp [Crowd.move, hb]) (by simp [headBeats, moments, hb, retries, point])
  | some b =>
    obtain ⟨c, p⟩ := b
    have after : (x.move (.step i)).memory = (Operation.step (x.memory, x.me i) p).memory.1 ∧
        (x.move (.step i)).point i = (Operation.step (x.memory, x.me i) p).next.point? := by
      rcases ho : Operation.step (x.memory, x.me i) p with ⟨st, q | a | f, notes⟩
      · simp [Crowd.move, hb, ho, set, point, Next.point?]
      · simp [Crowd.move, hb, ho, set, point, Next.point?]
      · exact absurd ⟨c, p, f, hb, by rw [ho]⟩ (k.not_faults i)
    have beats : headBeats s x (.step i) =
        stepBeats s i x.memory p (Operation.step (x.memory, x.me i) p).next.point? := by
      have point : x.point i = some p := by simp [point, hb]
      simp only [headBeats, retries, after.2, point, Option.any_some, moments_step s hb,
        List.filterMap_append, stepBeats]
      cases effectOn s (p.effect? x.memory) <;> cases (Operation.step (x.memory, x.me i) p).next <;>
        by_cases hc : c.stack? = some s <;> simp [hc, Beat.ofMoment?]
    rw [beats, after.1, seen?_of_busy hb, seen?, after.2]
    exact k.round_step hb s

theorem round_missing (x : Crowd α) (s i : Nat) :
    Round i (x.memory.hazard s).head ((x.move (.miss i)).memory.hazard s).head (x.seen? s i)
      ((x.move (.miss i)).seen? s i) (headBeats s x (.miss i)) := by
  cases hb : x.busy i with
  | none => exact round_still s i (by simp [move, hb]) (by simp [headBeats, moments, hb, retries, point])
  | some b =>
    obtain ⟨c, p⟩ := b
    cases hm : p.miss? x.memory with
    | none =>
      have goes : ¬p.retries s p := fun h => by
        obtain ⟨o, ho⟩ := miss?_of_retries (m := x.memory) h
        simp [hm] at ho
      exact round_still s i (by simp [move, hb, hm])
        (by simp [headBeats, moments, hb, retries, point, move, hm, goes])
    | some o =>
      obtain ⟨m', q⟩ := o
      have after : x.move (.miss i) = x.set i (m', x.me i) (some (c, q)) := by simp only [move, hb, hm]
      have beats : headBeats s x (.miss i) =
          if p.retries s q ∧ p.seen? s ≠ some (x.memory.hazard s).head then [.fails i] else [] := by
        simp [headBeats, moments, after, retries, point, hb, set, seen?_of_busy hb]
      rw [beats, after, seen?_set, seen?_of_busy hb]
      exact round_miss hm

theorem Stable.round_move (k : x.Stable g) (s : Nat) (mv : Move α) :
    ∃ i, Round i (x.memory.hazard s).head ((x.move mv).memory.hazard s).head (x.seen? s i)
      ((x.move mv).seen? s i) (headBeats s x mv) ∧ ∀ j ≠ i, (x.move mv).seen? s j = x.seen? s j := by
  have others {i : Nat} (hi : mv.thread? = some i) (j : Nat) (hj : j ≠ i) :
      (x.move mv).seen? s j = x.seen? s j := by
    rw [seen?, seen?, point, point, busy_move_of_ne fun e => hj (Option.some.inj (e.symm.trans hi))]
  cases mv with
  | call i c => exact ⟨i, round_call x s i c, others rfl⟩
  | step i => exact ⟨i, k.round_turn s i, others rfl⟩
  | miss i => exact ⟨i, round_missing x s i, others rfl⟩
  | change c => exact ⟨0, .quiet (c.heads x.memory s).1 fun v hv => .inr hv, fun j _ => rfl⟩

/-- Whoever has seen another head of the stack `s` than is there now is yet to start over. -/
theorem chased_head (s : Nat) (ms : List (Move α)) :
    Chased ((play move (headBeats s) start ms).1.memory.hazard s).head
      ((play move (headBeats s) start ms).1.seen? s) (play move (headBeats s) start ms).2 := by
  refine (play_induction
    (fun (x : Crowd α) h => (∃ g, x.Stable g) ∧ Chased (x.memory.hazard s).head (x.seen? s) h)
    ⟨stable_start, .start _ fun _ => rfl⟩ (fun x h mv ⟨⟨g, k⟩, chased⟩ => ?_) ms).2
  obtain ⟨g', k', -⟩ := k.move mv
  obtain ⟨i, round, others⟩ := k.round_move s mv
  exact ⟨⟨g', k'⟩, chased.round round others⟩

end Crowd

end Hazard

end LockFreeStack
