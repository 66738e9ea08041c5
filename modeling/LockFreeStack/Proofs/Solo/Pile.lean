import LockFreeStack.Solo
import LockFreeStack.Proofs.Settlement
import Mathlib.Algebra.Group.Nat.Defs

/-!
What one thread sees of a stack of either kind: a pile of values, each in a node of its own. A node
goes when its value is popped, and what is left goes from the top down when the stack is dropped.
-/

namespace LockFreeStack.Solo

variable {α : Type}

/-- What a thread may ask a stack of either kind for. -/
inductive Request (α : Type) where
  | push (v : α)
  | tryPush (v : α) (granted : Bool)
  | pop
  | isEmpty
  | fill (vs : List α)
  | drain

def Request.op : Request α → Op α
  | push v => .push v
  | tryPush v granted => .tryPush v granted
  | pop => .pop
  | isEmpty => .isEmpty
  | fill vs => .fill vs
  | drain => .drain

/-- The values from the top down with the numbers of their nodes, and how many nodes there have
been. -/
structure Pile (α : Type) where
  content : List (Nat × α)
  made : Nat

namespace Pile

/-- A pile after a request, the answer, and what has become of nodes and values meanwhile. -/
structure Shown (α : Type) where
  pile : Pile α
  answer : Answer α
  settled : List (Note α)

/-- A value that cannot be taken in for want of memory is dropped. -/
def push (p : Pile α) (v : α) (granted : Bool) : Shown α :=
  if granted then ⟨⟨(p.made, v) :: p.content, p.made + 1⟩, .ok, []⟩
  else ⟨p, .trouble (.failure .allocation), [.dropped v]⟩

def pop (p : Pile α) : Shown α :=
  match p.content with
  | [] => ⟨p, .popped none, []⟩
  | (k, v) :: rest => ⟨⟨rest, p.made⟩, .popped (some v), [.freed k]⟩

def isEmpty (p : Pile α) : Shown α := ⟨p, .flag p.content.isEmpty, []⟩

def fill (p : Pile α) : List α → Shown α
  | [] => ⟨p, .ok, []⟩
  | v :: vs => (p.push v true).pile.fill vs

def drain (p : Pile α) : Shown α :=
  ⟨⟨[], p.made⟩, .values (p.content.map Prod.snd), p.content.map fun x => .freed x.1⟩

def perform (p : Pile α) : Request α → Shown α
  | .push v => p.push v true
  | .tryPush v granted => p.push v granted
  | .pop => p.pop
  | .isEmpty => p.isEmpty
  | .fill vs => p.fill vs
  | .drain => p.drain

def performAll (p : Pile α) : List (Request α) → Pile α × List (Answer α × List (Note α))
  | [] => (p, [])
  | r :: rest =>
    let o := p.perform r
    let (p', shown) := o.pile.performAll rest
    (p', (o.answer, o.settled) :: shown)

end Pile

/-- What a thread sees of a stack from its making to its end: each answer with what was settled by
the operation, what was settled by the drop, and the number of nodes. -/
structure Life (α : Type) where
  shown : List (Answer α × List (Note α))
  teardown : List (Note α)
  allocated : Nat

def Pile.life (rs : List (Request α)) : Life α :=
  let (p, shown) := performAll ⟨[], 0⟩ rs
  ⟨shown, estate p.content, p.made⟩

namespace Session

def replies (access : Access) (x : Session α) : List (Op α) → Session α × List (Answer α × List (Note α))
  | [] => (x, [])
  | op :: rest =>
    let ⟨x, a, notes⟩ := x.perform access op
    let (x, shown) := replies access x rest
    (x, (a, settlements notes) :: shown)

/-- The replies are the answers of the run, with its notes told apart. -/
theorem performAll_eq (access : Access) (x : Session α) (ops : List (Op α)) :
    (x.performAll access ops).1 = (x.replies access ops).1 ∧
      (x.performAll access ops).2.1 = (x.replies access ops).2.map Prod.fst ∧
      settlements (x.performAll access ops).2.2 = ((x.replies access ops).2.map Prod.snd).flatten := by
  induction ops generalizing x with
  | nil => exact ⟨rfl, rfl, rfl⟩
  | cons op rest ih =>
    obtain ⟨hx, has, hnotes⟩ := ih (x.perform access op).session
    refine ⟨hx, congrArg (_ :: ·) has, ?_⟩
    simp only [performAll, replies, settlements_append, hnotes, List.map_cons, List.flatten_cons]

end Session

/-- The life of a stack with one thread. -/
def life (kind : StackKind) (access : Access) (capacity : Nat) (rs : List (Request α)) :
    Except Panic (Life α) :=
  (Session.new 1 kind capacity).map fun x =>
    let (⟨(m, _), s⟩, shown) := x.replies access (rs.map Request.op)
    let (m, notes) := m.dropStack s
    ⟨shown, settlements notes, m.nodes.size⟩

/-- What the report of a run says about a life. -/
def Report.life (r : Report α) : List (Answer α) × List (Note α) × List (Note α) × Nat :=
  (r.answers, settlements r.notes, settlements r.teardown, r.allocated)

theorem life_run (kind : StackKind) (access : Access) (capacity : Nat) (rs : List (Request α)) :
    (run kind access capacity (rs.map Request.op)).map Report.life =
      (life kind access capacity rs).map fun l =>
        (l.shown.map Prod.fst, (l.shown.map Prod.snd).flatten, l.teardown, l.allocated) := by
  unfold run life
  cases Session.new 1 kind capacity with
  | error e => rfl
  | ok x =>
    obtain ⟨hx, has, hnotes⟩ := x.performAll_eq access (rs.map Request.op)
    simp only [Except.map, Report.life, has, hnotes, hx]

open Session

/-- A reply shows what the pile shows, and leaves the session in the relation `R` to it. -/
structure Shows (R : Session α → Pile α → Prop) (r : Reply α) (o : Pile.Shown α) : Prop where
  after : R r.session o.pile
  answer : r.answer = o.answer
  settled : settlements r.notes = o.settled

/-- Sessions of a kind that serve like a pile. The number in `R` is one of pops that may have found
the stack empty. -/
structure Serves (R : Nat → Session α → Pile α → Prop) : Prop where
  mono : ∀ {n n' x p}, n ≤ n' → R n x p → R n' x p
  push : ∀ {n x p} (v : α) (granted : Bool), R n x p → Shows (R n) (x.push v granted) (p.push v granted)
  pop : ∀ {n x p}, R n x p → p.content ≠ [] → Shows (R n) x.pop p.pop
  miss : ∀ {n x p}, R n x p → p.content = [] → n < 2 ^ 62 → Shows (R (n + 1)) x.pop p.pop
  isEmpty : ∀ {n x p}, R n x p → Shows (R n) (finish x.state x.stack (.isEmpty x.stack)) p.isEmpty
  size : ∀ {n x p}, R n x p → x.state.1.nodes.size = p.made ∧ p.content.length ≤ p.made
  drop : ∀ {n x p}, R n x p → settlements (x.state.1.dropStack x.stack).2 = estate p.content ∧
    (x.state.1.dropStack x.stack).1.nodes.size = p.made

namespace Serves

variable {R : Nat → Session α → Pile α → Prop} {n : Nat} {x : Session α} {p : Pile α}

theorem fill (s : Serves R) (h : R n x p) (vs : List α) : Shows (R n) (x.fill vs) (p.fill vs) := by
  induction vs generalizing x p with
  | nil => exact ⟨h, rfl, rfl⟩
  | cons v vs ih =>
    obtain ⟨after, -, settled⟩ := s.push v true h
    obtain ⟨after', answer', settled'⟩ := ih after
    refine ⟨after', answer', ?_⟩
    have hnone : settlements (x.push v true).notes = [] := settled
    simp only [Session.fill, settlements_append, hnone, List.nil_append]
    exact settled'

/-- Popping goes on until nothing is left, and finds that out once. -/
theorem drainFrom (s : Serves R) (h : R n x p) (few : n < 2 ^ 62) {fuel : Nat}
    (enough : p.content.length < fuel) (met : List α) :
    Shows (R (n + 1)) (x.drain fuel met)
      ⟨⟨[], p.made⟩, .values (met.reverse ++ p.content.map Prod.snd),
        p.content.map fun y => .freed y.1⟩ := by
  obtain ⟨content, made⟩ := p
  induction content generalizing x fuel met with
  | nil =>
    obtain ⟨fuel, rfl⟩ : ∃ fuel', fuel = fuel' + 1 := ⟨fuel - 1, by simp at enough; omega⟩
    obtain ⟨after, answer, settled⟩ := s.miss h rfl few
    rcases hpop : x.pop with ⟨y, a, notes⟩
    rw [hpop] at after answer settled
    obtain rfl : a = .popped none := answer
    simp only [Session.drain, hpop]
    exact ⟨after, by simp, settled⟩
  | cons z rest ih =>
    obtain ⟨k, v⟩ := z
    obtain ⟨fuel, rfl⟩ : ∃ fuel', fuel = fuel' + 1 := ⟨fuel - 1, by simp at enough; omega⟩
    obtain ⟨after, answer, settled⟩ := s.pop h (by simp)
    rcases hpop : x.pop with ⟨y, a, notes⟩
    rw [hpop] at after answer settled
    obtain rfl : a = .popped (some v) := answer
    obtain ⟨after', answer', settled'⟩ := ih (v :: met) after (by simpa using enough)
    simp only [Session.drain, hpop]
    refine ⟨after', by simpa using answer', ?_⟩
    simp only [settlements_append, settled', List.map_cons]
    rw [show settlements notes = [.freed k] from settled]
    rfl

theorem perform (s : Serves R) (access : Access) (h : R n x p) (few : n < 2 ^ 62) (r : Request α) :
    Shows (R (n + 1)) (x.perform access r.op) (p.perform r) := by
  have more {o : Reply α} {q : Pile.Shown α} (t : Shows (R n) o q) : Shows (R (n + 1)) o q :=
    ⟨s.mono (Nat.le_succ n) t.after, t.answer, t.settled⟩
  cases r with
  | push v => exact more (s.push v true h)
  | tryPush v granted => exact more (s.push v granted h)
  | pop =>
    by_cases hnil : p.content = []
    · exact s.miss h hnil few
    · exact more (s.pop h hnil)
  | isEmpty => exact more (s.isEmpty h)
  | fill vs => exact more (s.fill h vs)
  | drain =>
    obtain ⟨hsize, hle⟩ := s.size h
    exact s.drainFrom h few (by rw [hsize]; omega) []

theorem replies (s : Serves R) (access : Access) (h : R n x p) (rs : List (Request α))
    (few : n + rs.length ≤ 2 ^ 62) :
    (∃ n', R n' (x.replies access (rs.map Request.op)).1 (p.performAll rs).1) ∧
      (x.replies access (rs.map Request.op)).2 = (p.performAll rs).2 := by
  induction rs generalizing n x p with
  | nil => exact ⟨⟨n, h⟩, rfl⟩
  | cons r rs ih =>
    rw [List.length_cons] at few
    obtain ⟨after, answer, settled⟩ := s.perform access h (by omega) r
    obtain ⟨hrest, hshown⟩ := ih after (by omega)
    refine ⟨hrest, ?_⟩
    simp only [List.map_cons, Session.replies, Pile.performAll]
    rw [hshown, answer, settled]

/-- The life of a stack that serves like a pile is the pile's. -/
theorem life_eq (s : Serves R) {kind : StackKind} {capacity : Nat} (access : Access)
    (made : Session.new 1 kind capacity = .ok x) (start : R 0 x ⟨[], 0⟩) (rs : List (Request α))
    (few : rs.length ≤ 2 ^ 62) : life kind access capacity rs = .ok (Pile.life rs) := by
  obtain ⟨⟨n, after⟩, hshown⟩ := s.replies access start rs (by omega)
  obtain ⟨hnotes, hsize⟩ := s.drop after
  simp only [life, made, Except.map, Pile.life, hshown, hnotes, hsize]

end Serves

end LockFreeStack.Solo
