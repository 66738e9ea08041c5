import LockFreeStack.Answer
import Mathlib.Data.List.Perm.Basic

/-!
Histories of a stack that several threads use. A history lists in their order the calls of
operations, the effects on the stack's content and the answers. It is explained by a plain list if
the effects, replayed on one that is empty at first, lead to it, and if each thread accounts for
every answer with the effects that it has had between the call and the answer.
-/

namespace LockFreeStack

/-- What an operation does to the content of a stack, or finds out about it. -/
inductive Effect (α : Type) where
  | push (v : α)
  | pop (v : α)
  | empty

/-- `ι` are the threads and `ο` the operations. -/
inductive Moment (ι ο α : Type) where
  | call (i : ι) (c : ο)
  | effect (i : ι) (e : Effect α)
  | answer (i : ι) (a : Answer α)

variable {ι ο α : Type}

namespace Moment

def thread : Moment ι ο α → ι
  | call i _ | effect i _ | answer i _ => i

def effect? : Moment ι ο α → Option (Effect α)
  | effect _ e => some e
  | _ => none

end Moment

namespace Effect

/-- An effect on a plain list. A value is popped only from the top, and emptiness is found only
where there is nothing. -/
inductive Acts : Effect α → List α → List α → Prop where
  | push (v : α) (l : List α) : Acts (.push v) l (v :: l)
  | pop (v : α) (l : List α) : Acts (.pop v) (v :: l) l
  | empty : Acts .empty [] []

def pushed? : Effect α → Option α
  | push v => some v
  | _ => none

def popped? : Effect α → Option α
  | pop v => some v
  | _ => none

end Effect

/-- Effects that lead from the empty list to `l`. -/
inductive Replays : List (Effect α) → List α → Prop where
  | nil : Replays [] []
  | snoc {es : List (Effect α)} {l l' : List α} {e : Effect α} (h : Replays es l)
    (act : e.Acts l l') : Replays (es ++ [e]) l'

/-- A list before and after a move that has an effect or none. -/
def Turns (e : Option (Effect α)) (l l' : List α) : Prop :=
  match e with
  | none => l' = l
  | some e => e.Acts l l'

namespace Replays

theorem turn {es : List (Effect α)} {l l' : List α} {e : Option (Effect α)} (h : Replays es l)
    (t : Turns e l l') : Replays (es ++ e.toList) l' := by
  cases e with
  | none =>
    obtain rfl : l' = l := t
    simpa using h
  | some e => exact .snoc h t

/-- No value is lost, popped twice or invented. -/
theorem perm {es : List (Effect α)} {l : List α} (h : Replays es l) :
    (es.filterMap Effect.pushed?).Perm (es.filterMap Effect.popped? ++ l) := by
  induction h with
  | nil => exact .refl _
  | snoc _ act ih =>
    cases act with
    | push v l =>
      simp only [List.filterMap_append, List.filterMap_cons, List.filterMap_nil, Effect.pushed?,
        Effect.popped?, List.append_nil]
      exact (List.perm_append_singleton v _).trans ((ih.cons v).trans List.perm_middle.symm)
    | pop v l =>
      simpa only [List.filterMap_append, List.filterMap_cons, List.filterMap_nil, Effect.pushed?,
        Effect.popped?, List.append_nil, List.append_assoc, List.singleton_append] using ih
    | empty =>
      simpa only [List.filterMap_append, List.filterMap_cons, List.filterMap_nil, Effect.pushed?,
        Effect.popped?, List.append_nil] using ih

end Replays

/-- What a thread is doing, and the effects that it has had in its present operation. -/
inductive Activity (ο α : Type) where
  | idle
  | busy (c : ο) (es : List (Effect α))

/-- Thread `i` accounts for its part of a history: it calls one operation after the other, has
effects in the middle of an operation only, and answers what fits the effects. -/
inductive Account (Fits : ο → List (Effect α) → Answer α → Prop) (i : ι) :
    List (Moment ι ο α) → Activity ο α → Prop where
  | nil : Account Fits i [] .idle
  | other {h : List (Moment ι ο α)} {st : Activity ο α} {m : Moment ι ο α}
    (before : Account Fits i h st) (hm : m.thread ≠ i) : Account Fits i (h ++ [m]) st
  | call {h : List (Moment ι ο α)} {c : ο} (before : Account Fits i h .idle) :
    Account Fits i (h ++ [.call i c]) (.busy c [])
  | effect {h : List (Moment ι ο α)} {c : ο} {es : List (Effect α)} {e : Effect α}
    (before : Account Fits i h (.busy c es)) : Account Fits i (h ++ [.effect i e]) (.busy c (es ++ [e]))
  | answer {h : List (Moment ι ο α)} {c : ο} {es : List (Effect α)} {a : Answer α}
    (before : Account Fits i h (.busy c es)) (fits : Fits c es a) :
    Account Fits i (h ++ [.answer i a]) .idle

/-- The history is that of a plain list which now is `l`. -/
structure Explains (Fits : ο → List (Effect α) → Answer α → Prop) (h : List (Moment ι ο α))
    (l : List α) : Prop where
  replays : Replays (h.filterMap Moment.effect?) l
  accounts : ∀ i, ∃ st, Account Fits i h st

namespace Account

variable {Fits : ο → List (Effect α) → Answer α → Prop} {i : ι} {h : List (Moment ι ο α)}
  {st : Activity ο α}

theorem others (a : Account Fits i h st) (ms : List (Moment ι ο α)) (hm : ∀ m ∈ ms, m.thread ≠ i) :
    Account Fits i (h ++ ms) st := by
  induction ms generalizing h with
  | nil => simpa using a
  | cons m ms ih =>
    have := ih (.other a (hm m (by simp))) fun n hn => hm n (by simp [hn])
    simpa using this

theorem effects {c : ο} {es : List (Effect α)} (a : Account Fits i h (.busy c es))
    (e : Option (Effect α)) :
    Account Fits i (h ++ (e.map (Moment.effect i)).toList) (.busy c (es ++ e.toList)) := by
  cases e with
  | none => simpa using a
  | some e => exact a.effect

end Account

end LockFreeStack
