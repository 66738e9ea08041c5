import LockFreeStack.Failure

/-!
The head of a counted stack: an address together with the number of references taken through
this copy of it.
-/

namespace LockFreeStack

@[ext]
structure Pair (ρ : Type) where
  count : UInt64
  address : ρ
deriving DecidableEq

namespace Pair

variable {ρ : Type}

/-- One more reference. The count is a machine word and must not overflow. -/
def bump (p : Pair ρ) : Except Panic (Pair ρ) :=
  if p.count.toNat + 1 < UInt64.size then .ok { p with count := p.count + 1 } else .error .additionOverflow

theorem bump_eq_ok {p q : Pair ρ} (h : p.bump = .ok q) :
    q.address = p.address ∧ q.count.toNat = p.count.toNat + 1 := by
  unfold bump at h
  split at h
  · obtain rfl := Except.ok.inj h
    refine ⟨rfl, ?_⟩
    simp only [UInt64.toNat_add, UInt64.toNat_one]
    exact Nat.mod_eq_of_lt ‹_›
  · cases h

/-- What the detaching pop adds to the node's own count: all references but the list's and its own. -/
def surplus (p : Pair ρ) : Except Panic Int64 :=
  let count := p.count.toInt64
  if Int64.minValue.toInt ≤ count.toInt - 2 then .ok (count - 2) else .error .subtractionOverflow

def text (l : Layout) (p : Pair UInt64) : String :=
  l.record "CountedPtr"
    [("external_count", toString p.count.toNat), ("ptr", l.word p.address.toNat)]

end Pair

end LockFreeStack
