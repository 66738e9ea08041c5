import LockFreeStack.Layout

/-!
Addresses. A node is known by the place it lies at. Places are numbered in the order in which they
are first given out; after the release of its node a place can be given out again, so equal
addresses need not mean the same node.
-/

namespace LockFreeStack

/-- What a pointer holds: null, a bare number, or the `k`-th place of the nodes. -/
inductive Address where
  | null
  | number (word : UInt64)
  | node (k : Nat)
deriving DecidableEq, Inhabited

namespace Address

def ofWord (w : UInt64) : Address := if w = 0 then null else number w

/-- Where the nodes lie among the numbers: in the upper half of the addresses of a process. -/
def nodeBase : UInt64 := 0x600000000000

/-- Null comes first, then the numbers below the nodes, the nodes in the order of their places,
and the numbers above them. -/
def before : Address → Address → Bool
  | null, null => false
  | null, _ => true
  | number _, null => false
  | number v, number w => v < w
  | number w, node _ => w < nodeBase
  | node _, null => false
  | node _, number w => nodeBase ≤ w
  | node j, node k => j < k

/-- Insertion into an ascending list without repetitions. -/
def insert (a : Address) : List Address → List Address
  | [] => [a]
  | b :: rest => if a = b then b :: rest else if a.before b then a :: b :: rest else b :: a.insert rest

theorem mem_insert (a b : Address) (l : List Address) : b ∈ a.insert l ↔ b = a ∨ b ∈ l := by
  induction l with
  | nil => simp [insert]
  | cons c l ih =>
    unfold insert
    split
    · simp_all
    · split <;> simp_all [or_left_comm]

def text (l : Layout) : Address → String
  | null => l.word 0
  | number w => l.word w.toNat
  | node k => "n" ++ toString k

end Address

end LockFreeStack
