import LockFreeStack.Proofs.Counted.Content
import LockFreeStack.Proofs.Retries

/-!
Progress on a counted stack. An exchange of the head fails only where another thread has exchanged it
since the operation began. Raising the count of a node is such an exchange and has no effect on the
content, so two pops can keep each other from detaching a node.
-/

namespace LockFreeStack

/-- What the note of a step of thread `i` tells about the head of the stack. -/
def Beat.ofNote? {ι α : Type} (i : ι) (effect : Bool) : Note α → Option (Beat ι)
  | .action (.headCas _ _ success _) => some (if success then .changes i effect else .fails i)
  | _ => none

namespace Counted

variable {ι α : Type} {i j : ι} {m : Store α}

/-- What a push takes the head of the stack to be. -/
def Push.seen? : Push α → Option (Pair Address)
  | link _ seen => some seen
  | _ => none

def Pop.seen? : Pop α → Option (Pair Address)
  | bump seen => some seen
  | readNext held | detach held _ => some held
  | giveBack _ now | releaseLate _ now => some now
  | _ => none

def Point.seen? : Point α → Option (Pair Address)
  | push p => p.seen?
  | pop p => p.seen?

/-- The part of the history of the head that one step of thread `i` adds. -/
def stepBeats (i : ι) (m : Store α) (p : Point α) : List (Beat ι) :=
  (p.step m).notes.filterMap (Beat.ofNote? i (p.effect? m).isSome)

theorem Push.round (i : ι) (effect : Bool) (m : Store α) (p : Push α) :
    Round i m.head (p.step m).memory.head p.seen? ((p.step m).next.point?.bind seen?)
      ((p.step m).notes.filterMap (Beat.ofNote? i effect)) := by
  cases p with
  | allocate v granted => cases granted <;> exact .rest rfl
  | load a => exact .quiet rfl fun v hv => .inl (Option.some.inj hv).symm
  | link a seen =>
    simp only [step]
    cases m.nodes.counted? a with
    | none => exact .rest rfl
    | some x =>
      by_cases hs : m.head = seen
      · simp only [exchanged, hs, decide_true]
        exact .settles effect
      · simp only [exchanged, hs, decide_false]
        exact .fails seen rfl rfl (Ne.symm hs) fun v hv => (Option.some.inj hv).symm

theorem Pop.round (i : ι) (effect : Bool) (m : Store α) (p : Pop α) :
    Round i m.head (p.step m).memory.head p.seen? ((p.step m).next.point?.bind seen?)
      ((p.step m).notes.filterMap (Beat.ofNote? i effect)) := by
  cases p with
  | load => exact .quiet rfl fun v hv => .inl (Option.some.inj hv).symm
  | bump seen =>
    simp only [step]
    cases hb : seen.bump with
    | error e => exact .rest rfl
    | ok held =>
      by_cases hs : m.head = seen
      · simp only [exchanged, hs, decide_true]
        refine .changes effect fun v hv => ?_
        by_cases hn : held.address = .null <;> simp only [hn, ↓reduceIte] at hv <;> cases hv
        rfl
      · simp only [exchanged, hs, decide_false]
        exact .fails seen rfl rfl (Ne.symm hs) fun v hv => (Option.some.inj hv).symm
  | detach held next =>
    simp only [step]
    by_cases hs : m.head = held
    · simp only [exchanged, hs, decide_true]
      exact .settles effect
    · simp only [exchanged, hs, decide_false]
      exact .fails held rfl rfl (Ne.symm hs) fun v hv => (Option.some.inj hv).symm
  | readNext held =>
    simp only [step]
    cases m.nodes.counted? held.address with
    | none => exact .rest rfl
    | some x => exact .quiet rfl fun v hv => .inr hv
  | giveBack held now =>
    simp only [step]
    cases m.nodes.counted? held.address with
    | none => exact .rest rfl
    | some x =>
      obtain ⟨v, next, before⟩ := x
      refine .quiet rfl fun v hv => .inr ?_
      by_cases hb : before = 1 <;> simp only [hb, ↓reduceIte] at hv <;> exact hv
  | releaseLate a now =>
    simp only [step]
    cases m.nodes.isLiveAt a with
    | false => exact .rest rfl
    | true =>
      cases a <;> exact .quiet rfl fun v hv => .inr hv
  | release a v =>
    simp only [step]
    cases m.nodes.isLiveAt a with
    | false => exact .rest rfl
    | true => cases a <;> exact .rest rfl
  | take held | fold held v =>
    simp only [step]
    repeat' split
    all_goals exact .rest rfl

theorem Push.notes_of_fault {m' : Store α} {p : Push α} {f : Fault} {notes : List (Note α)}
    (h : p.step m = ⟨m', .fault f, notes⟩) : notes = [] := by
  cases p
  all_goals
    simp only [step] at h
    repeat' split at h
  all_goals cases h
  all_goals rfl

theorem Pop.notes_of_fault {m' : Store α} {p : Pop α} {f : Fault} {notes : List (Note α)}
    (h : p.step m = ⟨m', .fault f, notes⟩) : notes = [] := by
  cases p
  all_goals
    simp only [step] at h
    repeat' split at h
  all_goals cases h
  all_goals rfl

/-- A step that does what memory safety forbids has no notes. -/
theorem Point.notes_of_fault {p : Point α} {f : Fault} (h : (p.step m).next = .fault f) :
    (p.step m).notes = [] := by
  cases p with
  | push p =>
    simp only [step, Outcome.within] at h ⊢
    rcases ho : p.step m with ⟨m', q | a | f', notes⟩ <;> rw [ho] at h
    · cases h
    · cases h
    · exact Push.notes_of_fault ho
  | pop p =>
    simp only [step, Outcome.within] at h ⊢
    rcases ho : p.step m with ⟨m', q | a | f', notes⟩ <;> rw [ho] at h
    · cases h
    · cases h
    · exact Pop.notes_of_fault ho

theorem Point.round (i : ι) (m : Store α) (p : Point α) :
    Round i m.head (p.step m).memory.head p.seen? ((p.step m).next.point?.bind Point.seen?)
      (stepBeats i m p) := by
  cases p with
  | push p =>
    have r := p.round i ((Point.push p).effect? m).isSome m
    simp only [stepBeats, step, Outcome.within]
    rcases ho : p.step m with ⟨m', q | a | f, notes⟩ <;> rw [ho] at r <;> exact r
  | pop p =>
    have r := p.round i ((Point.pop p).effect? m).isSome m
    simp only [stepBeats, step, Outcome.within]
    rcases ho : p.step m with ⟨m', q | a | f, notes⟩ <;> rw [ho] at r <;> exact r

namespace Crowd

variable [DecidableEq ι] {x : Crowd ι α} {p : Point α}

/-- What thread `i` takes the head of the stack to be. -/
def seen? (x : Crowd ι α) (i : ι) : Option (Pair Address) := (x.point i).bind Point.seen?

/-- What a move adds to the history of the head. An exchange that misses what it finds has not
failed. -/
def headBeats (x : Crowd ι α) : Move ι α → List (Beat ι)
  | .call i _ => if (x.point i).isNone then [.begins i] else []
  | .step i => ((x.point i).map (stepBeats i x.store)).getD []
  | .miss i =>
    match x.point i with
    | some (.push (.link _ seen)) => if x.store.head = seen then [] else [.fails i]
    | _ => []
  | .recycle _ => []

/-- What thread `i` does when it moves on from a point. -/
theorem round_set {m : Store α} {b : Option (Point α)} {bs : List (Beat ι)} (hp : x.point i = some p)
    (r : Round i x.store.head m.head p.seen? (b.bind Point.seen?) bs) :
    Round i x.store.head (x.set i m b).store.head (x.seen? i) ((x.set i m b).seen? i) bs := by
  simpa [seen?, set, hp] using r

omit [DecidableEq ι] in
theorem round_still (x : Crowd ι α) (i : ι) : Round i x.store.head x.store.head (x.seen? i) (x.seen? i) [] :=
  .quiet rfl fun _ hv => .inr hv

theorem round_call (x : Crowd ι α) (i : ι) (c : Call α) :
    Round i x.store.head (x.move (.call i c)).store.head (x.seen? i) ((x.move (.call i c)).seen? i)
      (headBeats x (.call i c)) := by
  simp only [move, headBeats]
  cases hp : x.point i with
  | some p => exact round_still x i
  | none =>
    refine .begins rfl ?_
    cases c <;> simp [seen?, set, Call.start, Point.seen?, Push.seen?, Pop.seen?]

theorem round_step (x : Crowd ι α) (i : ι) :
    Round i x.store.head (x.move (.step i)).store.head (x.seen? i) ((x.move (.step i)).seen? i)
      (headBeats x (.step i)) := by
  simp only [move, headBeats]
  cases hp : x.point i with
  | none => exact round_still x i
  | some p =>
    have r := p.round i x.store
    simp only [Option.map_some, Option.getD_some]
    rcases ho : p.step x.store with ⟨m, q | a | f, notes⟩ <;> rw [ho] at r
    · exact round_set hp r
    · exact round_set hp r
    · rw [stepBeats, Point.notes_of_fault (by rw [ho])]
      exact round_still x i

/-- An exchange that misses fails if it has found another head than it expects. -/
theorem round_miss (x : Crowd ι α) (i : ι) :
    Round i x.store.head (x.move (.miss i)).store.head (x.seen? i) ((x.move (.miss i)).seen? i)
      (headBeats x (.miss i)) := by
  rcases hp : x.point i with _ | (v | a | ⟨a, seen⟩) | p <;> simp only [move, headBeats, hp]
  case some.push.link =>
    refine round_set hp ?_
    by_cases hs : x.store.head = seen
    · rw [if_pos hs]
      exact .quiet rfl fun v hv => .inl (Option.some.inj hv).symm
    · rw [if_neg hs]
      exact .fails seen rfl rfl (Ne.symm hs) fun v hv => (Option.some.inj hv).symm
  all_goals exact round_still x i

theorem chased_move {h : List (Beat ι)} (k : Chased x.store.head x.seen? h) (mv : Move ι α) :
    Chased (x.move mv).store.head (x.move mv).seen? (h ++ headBeats x mv) := by
  have others {i : ι} (hi : mv.thread? = some i) (j : ι) (hj : j ≠ i) :
      (x.move mv).seen? j = x.seen? j := by
    rw [seen?, seen?, move_point_of_ne fun e => hj (Option.some.inj (e.symm.trans hi))]
  cases mv with
  | call i c => exact k.round (round_call x i c) (others rfl)
  | step i => exact k.round (round_step x i) (others rfl)
  | miss i => exact k.round (round_miss x i) (others rfl)
  | recycle n =>
    rw [show headBeats x (.recycle n) = [] from rfl, List.append_nil]
    exact k

/-- The history of the head over a run. -/
def heard (ms : List (Move ι α)) : List (Beat ι) := (play move headBeats start ms).2

/-- The exchanges of an operation fail at most as often as other threads have pushed, popped and raised
counts since the operation began. -/
theorem failures_le (ms : List (Move ι α)) (i : ι) :
    failures i (heard ms) ≤ effects i (heard ms) + stirs i (heard ms) := by
  have k : Chased (play move headBeats start ms).1.store.head (play move headBeats start ms).1.seen?
      (heard ms) :=
    play_induction (fun (x : Crowd ι α) h => Chased x.store.head x.seen? h) (.start _ fun _ => rfl)
      (fun x h mv k => chased_move k mv) ms
  rw [← rivals_eq]
  exact (k i).1

/-- Two pops that hold references to the same node `a`, and are both about to detach it. Thread `j` has
raised the count after thread `i`. -/
structure Duel (x : Crowd ι α) (i j : ι) (a : Address) (next : Pair Address) (k : UInt64) : Prop where
  behind : x.point i = some (.pop (.detach ⟨k, a⟩ next))
  ahead : x.point j = some (.pop (.detach ⟨k + 1, a⟩ next))
  head : x.store.head = ⟨k + 1, a⟩
  there : ∃ v, x.store.nodes.counted? a = some (v, next, (2 - k).toInt64)

section Turn

variable {m m' : Store α} {q : Point α} {b b' : Option (Point α)} {notes : List (Note α)}

theorem set_set : (x.set i m b).set i m' b' = x.set i m' b' := by
  simp only [set, Function.update_idem]

theorem move_set_step (ho : p.step m = ⟨m', .goto q, notes⟩) :
    (x.set i m (some p)).move (.step i) = x.set i m' (some q) := by
  have hp : (x.set i m (some p)).point i = some p := by simp [set]
  have hs : (x.set i m (some p)).store = m := rfl
  simp only [move, hp, hs, ho, set_set]

theorem move_set_stop {a : Answer α} (ho : p.step m = ⟨m', .done a, notes⟩) :
    (x.set i m (some p)).move (.step i) = x.set i m' none := by
  have hp : (x.set i m (some p)).point i = some p := by simp [set]
  have hs : (x.set i m (some p)).store = m := rfl
  simp only [move, hp, hs, ho, set_set]

theorem headBeats_set_step {n : Next (Point α) (Answer α)} (ho : p.step m = ⟨m', n, notes⟩) :
    headBeats (x.set i m (some p)) (.step i) = notes.filterMap (Beat.ofNote? i (p.effect? m).isSome) := by
  simp [headBeats, set, stepBeats, ho]

end Turn

/-- Taking one reference after the other off a node never brings its count to one. -/
theorem toInt64_two_sub_ne_one {k : UInt64} (hk : 2 ≤ k.toNat) : (2 - k).toInt64 ≠ 1 := by
  intro h
  have h : 2 - k = 1 := congrArg Int64.toUInt64 h
  have h : k = 1 := by grind
  rw [h] at hk
  exact absurd hk (by decide)

theorem toInt64_two_sub_succ (k : UInt64) : (2 - k).toInt64 - 1 = (2 - (k + 1)).toInt64 := by
  rw [show 2 - (k + 1) = 2 - k - 1 by grind, UInt64.toInt64_sub (2 - k) 1]
  rfl

theorem toNat_succ {k : UInt64} (h : k.toNat + 1 < UInt64.size) : (k + 1).toNat = k.toNat + 1 := by
  rw [UInt64.toNat_add, UInt64.toNat_one]
  exact Nat.mod_eq_of_lt h

/-- A pop that has seen the head raises its count, and is going to detach the node. -/
theorem play_raise {nodes : Nodes α} {a : Address} {next : Pair Address} {k : UInt64} {v : α} {c : Int64}
    (x : Crowd ι α) (i : ι) (there : nodes.counted? a = some (v, next, c)) (ha : a ≠ .null)
    (fits : k.toNat + 1 < UInt64.size) :
    play move headBeats (x.set i ⟨nodes, ⟨k, a⟩⟩ (some (.pop (.bump ⟨k, a⟩)))) (List.replicate 2 (.step i)) =
      (x.set i ⟨nodes, ⟨k + 1, a⟩⟩ (some (.pop (.detach ⟨k + 1, a⟩ next))), [.changes i false]) := by
  have raised : (⟨k, a⟩ : Pair Address).bump = .ok ⟨k + 1, a⟩ := if_pos fits
  have bump : (Point.pop (.bump ⟨k, a⟩) : Point α).step ⟨nodes, ⟨k, a⟩⟩ =
      ⟨⟨nodes, ⟨k + 1, a⟩⟩, .goto (.pop (.readNext ⟨k + 1, a⟩)), [exchanged ⟨k, a⟩ ⟨k + 1, a⟩ ⟨k, a⟩]⟩ := by
    simp [Point.step, Pop.step, raised, ha, Outcome.within, Next.within]
  have readNext : (Point.pop (.readNext ⟨k + 1, a⟩) : Point α).step ⟨nodes, ⟨k + 1, a⟩⟩ =
      ⟨⟨nodes, ⟨k + 1, a⟩⟩, .goto (.pop (.detach ⟨k + 1, a⟩ next)), []⟩ := by
    simp [Point.step, Pop.step, there, Outcome.within, Next.within]
  rw [List.replicate_succ, play_cons, move_set_step bump, headBeats_set_step bump,
    List.replicate_succ, play_cons, move_set_step readNext, headBeats_set_step readNext]
  simp [Beat.ofNote?, exchanged, play, Point.effect?, raised, ha]

/-- The thread that is behind fails to detach the node, gives its reference back, raises the count and
is ahead. -/
theorem Duel.turn {a : Address} {next : Pair Address} {k : UInt64} (d : x.Duel i j a next k) (hij : i ≠ j)
    (ha : a ≠ .null) (hk : 2 ≤ k.toNat) (fits : k.toNat + 2 < UInt64.size) :
    (play move headBeats x (List.replicate 4 (.step i))).1.Duel j i a next (k + 1) ∧
      (play move headBeats x (List.replicate 4 (.step i))).2 = [.fails i, .changes i false] := by
  obtain ⟨v, there⟩ := d.there
  let nodes := x.store.nodes.updateAt a (·.setInternal ((2 - k).toInt64 - 1))
  have there' : nodes.counted? a = some (v, next, (2 - (k + 1)).toInt64) := by
    rw [Nodes.counted?_setInternal, if_pos rfl, there, toInt64_two_sub_succ]
    rfl
  have start : x = x.set i x.store (some (.pop (.detach ⟨k, a⟩ next))) := by
    rw [set, ← d.behind, Function.update_eq_self]
  have detach : (Point.pop (.detach ⟨k, a⟩ next) : Point α).step x.store =
      ⟨x.store, .goto (.pop (.giveBack ⟨k, a⟩ ⟨k + 1, a⟩)), [exchanged ⟨k, a⟩ next ⟨k + 1, a⟩]⟩ := by
    simp [Point.step, Pop.step, d.head, Outcome.within, Next.within]
  have giveBack : (Point.pop (.giveBack ⟨k, a⟩ ⟨k + 1, a⟩) : Point α).step x.store =
      ⟨⟨nodes, ⟨k + 1, a⟩⟩, .goto (.pop (.bump ⟨k + 1, a⟩)), [.action (.countSub 1 (2 - k).toInt64)]⟩ := by
    simp only [Point.step, Pop.step, there, if_neg (toInt64_two_sub_ne_one hk), d.head, Outcome.within,
      Next.within]
    rfl
  have small : (k + 1).toNat + 1 < UInt64.size := by
    rw [toNat_succ (by omega)]
    omega
  rw [start, List.replicate_succ, play_cons, move_set_step detach, headBeats_set_step detach,
    List.replicate_succ, play_cons, move_set_step giveBack, headBeats_set_step giveBack,
    play_raise x i there' ha small]
  constructor
  · exact ⟨by simpa [set, Function.update_of_ne (Ne.symm hij)] using d.ahead, by simp [set], rfl, v, there'⟩
  · simp [Beat.ofNote?, exchanged]

/-- `n` times, each of the two takes the steps of a turn. -/
def clash (i j : ι) (n : Nat) : List (Move ι α) :=
  (List.replicate n (List.replicate 4 (.step i) ++ List.replicate 4 (.step j))).flatten

omit [DecidableEq ι] in
theorem clash_succ (i j : ι) (n : Nat) :
    (clash i j (n + 1) : List (Move ι α)) =
      List.replicate 4 (.step i) ++ (List.replicate 4 (.step j) ++ clash i j n) :=
  List.append_assoc ..

theorem Duel.clash {a : Address} {next : Pair Address} (hij : i ≠ j) (ha : a ≠ .null) (n : Nat) :
    ∀ {x : Crowd ι α} {k : UInt64}, x.Duel i j a next k → 2 ≤ k.toNat →
      k.toNat + 2 * n + 1 < UInt64.size →
      (play move headBeats x (clash i j n)).2 =
        (List.replicate n [.fails i, .changes i false, .fails j, .changes j false]).flatten := by
  induction n with
  | zero => exact fun _ _ _ => rfl
  | succ n ih =>
    intro x k d hk fits
    have one : (k + 1).toNat = k.toNat + 1 := toNat_succ (by omega)
    have two : (k + 1 + 1).toNat = k.toNat + 2 := by rw [toNat_succ (by omega), one]
    obtain ⟨d', own⟩ := d.turn hij ha hk (by omega)
    obtain ⟨d'', other⟩ := d'.turn (Ne.symm hij) ha (by omega) (by omega)
    rw [clash_succ, play_append, play_append, own, other, ih d'' (by omega) (by omega)]
    rfl

/-- A pop up to the point where it is going to detach the node on top. -/
theorem play_pop {a : Address} {next : Pair Address} {k : UInt64} {v : α} {c : Int64} (idle : x.point i = none)
    (head : x.store.head = ⟨k, a⟩) (ha : a ≠ .null) (there : x.store.nodes.counted? a = some (v, next, c))
    (fits : k.toNat + 1 < UInt64.size) :
    play move headBeats x (.call i .pop :: List.replicate 3 (.step i)) =
      (x.set i ⟨x.store.nodes, ⟨k + 1, a⟩⟩ (some (.pop (.detach ⟨k + 1, a⟩ next))),
        [.begins i, .changes i false]) := by
  have call : x.move (.call i .pop) = x.set i x.store (some (.pop .load)) := by
    simp only [move, idle]
    rfl
  have begins : headBeats x (.call i .pop) = [.begins i] := by simp [headBeats, idle]
  have load : (Point.pop .load : Point α).step x.store =
      ⟨⟨x.store.nodes, ⟨k, a⟩⟩, .goto (.pop (.bump ⟨k, a⟩)), [.action (.headLoad (.pair ⟨k, a⟩))]⟩ := by
    simp [Point.step, Pop.step, ← head, Outcome.within, Next.within]
  rw [play_cons, call, begins, List.replicate_succ, play_cons, move_set_step load, headBeats_set_step load,
    play_raise x i there ha fits]
  rfl

/-- A push on a stack that nobody has used. -/
theorem play_push (i : ι) (v : α) :
    ∃ nodes, play move headBeats start (.call i (.push v true) :: List.replicate 3 (.step i)) =
        (start.set i ⟨nodes, ⟨1, .node 0⟩⟩ none, [.begins i, .changes i true]) ∧
      nodes.counted? (.node 0) = some (v, ⟨0, .null⟩, 0) := by
  let fresh : Nodes α := Heap.alloc .empty (.counted v ⟨0, .null⟩ 0)
  have there : fresh.counted? (.node 0) = some (v, ⟨0, .null⟩, 0) := by
    rw [Nodes.counted?_alloc]
    rfl
  have call : start.move (.call i (.push v true)) =
      start.set i ⟨.empty, ⟨0, .null⟩⟩ (some (.push (.allocate v true))) := rfl
  have begins : headBeats start (.call i (.push v true)) = [.begins i] := rfl
  have allocate : (Point.push (.allocate v true)).step ⟨.empty, ⟨0, .null⟩⟩ =
      ⟨⟨fresh, ⟨0, .null⟩⟩, .goto (.push (.load (.node 0))), []⟩ := rfl
  have load : (Point.push (.load (.node 0)) : Point α).step ⟨fresh, ⟨0, .null⟩⟩ =
      ⟨⟨fresh, ⟨0, .null⟩⟩, .goto (.push (.link (.node 0) ⟨0, .null⟩)),
        [.action (.headLoad (.pair ⟨0, .null⟩))]⟩ := rfl
  have link : (Point.push (.link (.node 0) ⟨0, .null⟩) : Point α).step ⟨fresh, ⟨0, .null⟩⟩ =
      ⟨⟨fresh.updateAt (.node 0) (·.setPair ⟨0, .null⟩), ⟨1, .node 0⟩⟩, .done .ok,
        [exchanged ⟨0, .null⟩ ⟨1, .node 0⟩ ⟨0, .null⟩]⟩ := by
    simp [Point.step, Push.step, there, Outcome.within, Next.within, Answer.ofPush]
  refine ⟨fresh.updateAt (.node 0) (·.setPair ⟨0, .null⟩), ?_, ?_⟩
  · rw [play_cons, call, begins, List.replicate_succ, play_cons, move_set_step allocate,
      headBeats_set_step allocate, List.replicate_succ, play_cons, move_set_step load, headBeats_set_step load,
      List.replicate_succ, play_cons, move_set_stop link, headBeats_set_step link]
    simp [Beat.ofNote?, exchanged, play, Point.effect?, there]
  · rw [Nodes.counted?_setPair, if_pos rfl, there]
    rfl

/-- Thread `i` pushes a value, and then both threads pop up to the point where they are going to detach
its node. -/
def opening (i j : ι) (v : α) : List (Move ι α) :=
  (.call i (.push v true) :: List.replicate 3 (.step i)) ++ ((.call i .pop :: List.replicate 3 (.step i)) ++
    (.call j .pop :: List.replicate 3 (.step j)))

theorem duel_opening (hij : i ≠ j) (v : α) :
    (play move headBeats start (opening i j v)).1.Duel i j (.node 0) ⟨0, .null⟩ 2 ∧
      (play move headBeats start (opening i j v)).2 =
        [.begins i, .changes i true, .begins i, .changes i false, .begins j, .changes j false] := by
  obtain ⟨nodes, push, there⟩ := play_push i v
  let store (k : UInt64) : Store α := ⟨nodes, ⟨k, .node 0⟩⟩
  let held (k : UInt64) : Option (Point α) := some (.pop (.detach ⟨k, .node 0⟩ ⟨0, .null⟩))
  have first : play move headBeats (start.set i (store 1) none) (.call i .pop :: List.replicate 3 (.step i)) =
      (start.set i (store 2) (held 2), [.begins i, .changes i false]) := by
    rw [play_pop (a := .node 0) (k := 1) (by simp [set]) rfl nofun there (by decide), set_set]
    rfl
  have second : play move headBeats (start.set i (store 2) (held 2))
      (.call j .pop :: List.replicate 3 (.step j)) =
        ((start.set i (store 2) (held 2)).set j (store 3) (held 3), [.begins j, .changes j false]) :=
    play_pop (a := .node 0) (k := 2) (by simp [set, Function.update_of_ne (Ne.symm hij), start]) rfl nofun there
      (by decide)
  rw [opening, play_append, play_append, push, first, second]
  exact ⟨⟨by simp [set, Function.update_of_ne hij, held], by simp [set, held], rfl, v, there⟩, rfl⟩

/-- Two pops after a push keep each other from detaching the node, for as long as the count of the head
has room. Nothing is pushed, popped or found empty meanwhile. -/
theorem fruitless (hij : i ≠ j) (v : α) {n : Nat} (fits : 2 * n + 3 < UInt64.size) :
    failures i (heard (opening i j v ++ clash i j n)) = n ∧ effects i (heard (opening i j v ++ clash i j n)) = 0 ∧
      failures j (heard (opening i j v ++ clash i j n)) = n ∧
        effects j (heard (opening i j v ++ clash i j n)) = 0 := by
  obtain ⟨duel, opened⟩ := duel_opening hij v
  have room : 2 + 2 * n + 1 < UInt64.size := by omega
  have clashed := Duel.clash (a := .node 0) hij nofun n duel (by decide) room
  have told : heard (opening i j v ++ clash i j n) =
      [.begins i, .changes i true, .begins i, .changes i false, .begins j, .changes j false] ++
        (List.replicate n [.fails i, .changes i false, .fails j, .changes j false]).flatten := by
    rw [heard, play_append, opened, clashed]
  have later (l : ι) :
      .begins l ∉ (List.replicate n [Beat.fails i, .changes i false, .fails j, .changes j false]).flatten := by
    simp [List.mem_flatten, List.mem_replicate]
  have mine : since i [.begins i, .changes i true, .begins i, .changes i false, .begins j, .changes j false] =
      [.changes i false, .begins j, .changes j false] := by
    simp [since, List.rtakeWhile, List.takeWhile, Ne.symm hij]
  have others : since j [.begins i, .changes i true, .begins i, .changes i false, .begins j, .changes j false] =
      [.changes j false] := by
    simp [since, List.rtakeWhile, List.takeWhile]
  rw [told]
  unfold failures effects
  rw [since_append _ (later i), since_append _ (later j), mine, others]
  simp [List.count_flatten, List.countP_flatten, hij, Ne.symm hij, Beat.isEffectBy]

/-- Three failures each, and nothing that took effect. -/
theorem fruitless_three :
    failures 0 (heard (opening 0 1 7 ++ clash 0 1 3 : List (Move Nat Nat))) = 3 ∧
      effects 0 (heard (opening 0 1 7 ++ clash 0 1 3 : List (Move Nat Nat))) = 0 ∧
        failures 1 (heard (opening 0 1 7 ++ clash 0 1 3 : List (Move Nat Nat))) = 3 ∧
          effects 1 (heard (opening 0 1 7 ++ clash 0 1 3 : List (Move Nat Nat))) = 0 :=
  fruitless (by decide) 7 (by decide)

end Crowd

end Counted

end LockFreeStack
