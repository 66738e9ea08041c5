import LockFreeStack.Directory
import LockFreeStack.Table.Claiming

/-!
What a thread knows of its slots. A claim is the ownership of one record and counts the references
to it; the slots that a thread holds and the pins of its cache are such references.
-/

namespace LockFreeStack

/-- A record of a table. -/
structure Place where
  table : Nat
  index : Nat
deriving DecidableEq

/-- `refs` counts the references that keep the claim. At zero the record goes back. -/
structure Claim where
  place : Place
  refs : Nat

/-- The cache remembers a claim without keeping it, unless it is pinned. -/
structure Cached where
  claim : Nat
  pinned : Bool
deriving DecidableEq

/-- The part of the memory that one thread alone uses. `claims` lists all claims it ever made,
`slots` the slots it holds by name, `lent` the slots lent to the bodies that are running, innermost
first. -/
structure Thread where
  token : Nat
  claims : Array Claim
  cache : List Cached
  slots : Directory String Nat
  lent : List Nat

namespace Thread

def new (token : Nat) : Thread := ⟨token, #[], [], .empty, []⟩

def place? (t : Thread) (c : Nat) : Option Place := (t.claims[c]?).map Claim.place

def refs (t : Thread) (c : Nat) : Nat := ((t.claims[c]?).map Claim.refs).getD 0

def isLive (t : Thread) (c : Nat) : Bool := t.refs c ≠ 0

def setRefs (t : Thread) (c n : Nat) : Thread :=
  { t with claims := t.claims.modify c fun x => { x with refs := n } }

theorem refs_setRefs (t : Thread) (c n d : Nat) (hc : c < t.claims.size) :
    (t.setRefs c n).refs d = if d = c then n else t.refs d := by
  simp only [setRefs, refs, Array.getElem?_modify]
  by_cases h : d = c
  · subst h; simp [hc]
  · simp [h, Ne.symm h]

@[simp] theorem place?_setRefs (t : Thread) (c n d : Nat) :
    (t.setRefs c n).place? d = t.place? d := by
  simp only [setRefs, place?, Array.getElem?_modify]
  split <;> cases t.claims[d]? <;> simp

/-- One more reference to a claim. -/
def keep (t : Thread) (c : Nat) : Thread := t.setRefs c (t.refs c + 1)

/-- One reference less, and whether it was the last. -/
def letGo (t : Thread) (c : Nat) : Thread × Bool := (t.setRefs c (t.refs c - 1), t.refs c = 1)

/-- The live claim in the cache on a table. -/
def claimOn? (t : Thread) (table : Nat) : Option Nat :=
  (t.cache.find? fun e => t.isLive e.claim && ((t.place? e.claim).map Place.table == some table)).map
    Cached.claim

def isPinned (t : Thread) (c : Nat) : Bool := t.cache.any fun e => e.claim == c && e.pinned

def setPinned (t : Thread) (c : Nat) (b : Bool) : Thread :=
  { t with cache := t.cache.map fun e => if e.claim = c then { e with pinned := b } else e }

/-- The cache keeps the claim from now on. -/
def pin (t : Thread) (c : Nat) : Thread :=
  if t.isPinned c then t else (t.keep c).setPinned c true

/-- A new claim with one reference to it, remembered in the cache. -/
def enter (t : Thread) (place : Place) : Thread :=
  { t with claims := t.claims.push ⟨place, 1⟩, cache := t.cache ++ [⟨t.claims.size, false⟩] }

def forget (t : Thread) (i : Nat) : Thread := { t with cache := t.cache.eraseIdx i }

/-- The slot meant by a name: `@` is the one lent to the innermost body. -/
def slot? (t : Thread) (name : String) : Option Nat :=
  if name = "@" then t.lent.head? else t.slots.get? name

end Thread

end LockFreeStack
