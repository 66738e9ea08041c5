import LockFreeStack.Proofs.Solo.Counted
import LockFreeStack.Proofs.Solo.Hazard

/-!
For one thread the two kinds of stacks are the same. The life of either is the life of a pile, so the
answers are those of a plain list, and nodes are released and values dropped by the same operations in
the same order.
-/

namespace LockFreeStack.Solo

variable {α : Type}

/-- A plain list after a request, its top first, and the answer. -/
def onList (vs : List α) : Request α → List α × Answer α
  | .push v => (v :: vs, .ok)
  | .tryPush v granted => if granted then (v :: vs, .ok) else (vs, .trouble (.failure .allocation))
  | .pop => (vs.tail, .popped vs.head?)
  | .isEmpty => (vs, .flag vs.isEmpty)
  | .fill ws => (ws.reverse ++ vs, .ok)
  | .drain => ([], .values vs)

def answersOnList (vs : List α) : List (Request α) → List (Answer α)
  | [] => []
  | r :: rest =>
    let (vs', a) := onList vs r
    a :: answersOnList vs' rest

namespace Pile

def values (p : Pile α) : List α := p.content.map Prod.snd

theorem values_fill (p : Pile α) (vs : List α) : (p.fill vs).pile.values = vs.reverse ++ p.values := by
  induction vs generalizing p with
  | nil => rfl
  | cons v vs ih =>
    rw [fill, ih, List.reverse_cons, List.append_assoc]
    rfl

theorem answer_fill (p : Pile α) (vs : List α) : (p.fill vs).answer = .ok := by
  induction vs generalizing p with
  | nil => rfl
  | cons v vs ih => exact ih _

/-- The values of a pile are a plain list. -/
theorem perform_values (p : Pile α) (r : Request α) :
    ((p.perform r).pile.values, (p.perform r).answer) = onList p.values r := by
  cases r with
  | push v => rfl
  | tryPush v granted => cases granted <;> rfl
  | pop =>
    obtain ⟨_ | ⟨⟨k, v⟩, rest⟩, made⟩ := p
    · rfl
    · rfl
  | isEmpty =>
    refine Prod.ext rfl (congrArg Answer.flag ?_)
    exact List.isEmpty_map.symm
  | fill vs => exact Prod.ext (p.values_fill vs) (p.answer_fill vs)
  | drain => rfl

theorem performAll_values (p : Pile α) (rs : List (Request α)) :
    (p.performAll rs).2.map Prod.fst = answersOnList p.values rs := by
  induction rs generalizing p with
  | nil => rfl
  | cons r rest ih =>
    simp only [performAll, answersOnList, ← p.perform_values r, List.map_cons, ih]

end Pile

theorem life_eq_pile (kind : StackKind) (access : Access) {capacity : Nat} (some : 0 < capacity)
    (rs : List (Request α)) (few : rs.length ≤ 2 ^ 62) :
    life kind access capacity rs = .ok (Pile.life rs) := by
  cases kind with
  | hazard =>
    obtain ⟨x, made, start⟩ := hazardFor_new (α := α) some
    exact (hazard_serves Nat.one_ne_zero).life_eq access made start rs few
  | counted => exact counted_serves.life_eq access rfl (countedFor_new 1) rs few

/-- A stack of either kind, used by one thread and then dropped, answers like a plain list and has the
life of a pile. -/
theorem interchangeable {capacity : Nat} (some : 0 < capacity) (rs : List (Request α))
    (few : rs.length < 2 ^ 62) (access : Access) :
    life .hazard access capacity rs = life .counted access capacity rs ∧
      (Pile.life rs).shown.map Prod.fst = answersOnList [] rs ∧
      ∀ kind, life kind access capacity rs = .ok (Pile.life rs) ∧
        (run kind access capacity (rs.map Request.op)).map Report.life =
          .ok (answersOnList [] rs, ((Pile.life rs).shown.map Prod.snd).flatten,
            (Pile.life rs).teardown, (Pile.life rs).allocated) := by
  have lives (kind : StackKind) := life_eq_pile kind access some rs (Nat.le_of_lt few)
  have answers : (Pile.life rs).shown.map Prod.fst = answersOnList [] rs :=
    Pile.performAll_values ⟨[], 0⟩ rs
  refine ⟨(lives .hazard).trans (lives .counted).symm, answers, fun kind => ⟨lives kind, ?_⟩⟩
  rw [life_run, lives, Except.map, answers]

/-- Some requests of each sort. -/
def errands : List (Request Nat) :=
  [.push 1, .tryPush 2 true, .tryPush 3 false, .pop, .isEmpty, .fill [4, 5], .pop, .drain, .pop,
    .push 6, .push 7]

theorem interchangeable_errands :
    0 < 1 ∧ errands.length < 2 ^ 62 ∧
      life .hazard .direct 1 errands = life .counted .direct 1 errands ∧
      life .counted .direct 1 errands = .ok
        ⟨[(.ok, []), (.ok, []), (.trouble (.failure .allocation), [.dropped 3]),
          (.popped (some 2), [.freed 1]), (.flag false, []), (.ok, []), (.popped (some 5), [.freed 3]),
          (.values [4, 1], [.freed 2, .freed 0]), (.popped none, []), (.ok, []), (.ok, [])],
          [.dropped 7, .freed 5, .dropped 6, .freed 4], 6⟩ := by
  have few : errands.length < 2 ^ 62 := by decide
  obtain ⟨same, -, lives⟩ := interchangeable Nat.zero_lt_one errands few .direct
  exact ⟨Nat.zero_lt_one, few, same, (lives .counted).1⟩

end LockFreeStack.Solo
