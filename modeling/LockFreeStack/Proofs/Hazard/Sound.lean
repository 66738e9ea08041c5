import LockFreeStack.Proofs.Hazard.Guarded
import LockFreeStack.Proofs.Parking.Stored

/-!
The invariant of hazard stacks: entries are stored and nodes placed where their one keeper finds
them, and every reader of a node is guarded. For each action on the shared memory there is one lemma
that it keeps the invariant.
-/

namespace LockFreeStack.Hazard

variable {α : Type}

/-- The shared memory as the stacks see it. -/
structure View (α : Type) where
  nodes : Nodes α
  entries : Entries
  tables : Tables
  head : Nat → Address
  first : Nat → Option Nat
  table : Nat → Nat

/-- What a thread has to do with nodes and entries at the point where it stands. -/
structure Role where
  hand : Hand := {}
  own : Option (Address × Grade) := none
  reading : Option Reading := none
  watch : Watch := .nothing
  deleter : Deleter := .node

/-- Where all nodes and entries are, and the nodes linked into each stack. -/
structure Ghost where
  stage : Address → Stage
  chain : Nat → List Address
  keeper : Nat → Keeper

namespace Ghost

variable (g : Ghost) (h : Entries)

def parked (e : Nat) : Option (Address × Nat) := parkedAt? h g.keeper e

/-- The nodes of the entries that thread `i` has yet to look at. -/
def DueTo (i : Nat) (a : Address) : Prop :=
  ∃ e s, g.keeper e = .due s i ∧ g.parked h e = some (a, s)

def Excludes (ρ : Nat → Role) (i : Nat) : Address → Nat → Prop :=
  (ρ i).watch.Excludes (g.DueTo h i)

variable {g h}

theorem DueTo.mono {g' : Ghost} {h' : Entries} {i : Nat} {a : Address} (hd : g'.DueTo h' i a)
    (le : ∀ e s, g'.keeper e = .due s i → g.keeper e = .due s i ∧ g'.parked h' e = g.parked h e) :
    g.DueTo h i a := by
  obtain ⟨e, s, hk, hp⟩ := hd
  exact ⟨e, s, (le e s hk).1, (le e s hk).2 ▸ hp⟩

end Ghost

structure Sound (v : View α) (ρ : Nat → Role) (g : Ghost) : Prop where
  stored : Stored (· = .node) v.entries v.first (fun i => (ρ i).hand) g.keeper
  placed : Placed v.nodes v.head (fun i => (ρ i).own) (g.parked v.entries) g.stage g.chain
  guarded : Guarded v.tables v.table v.nodes.below? (fun i => (ρ i).reading) (g.Excludes v.entries ρ)
    g.stage
  deleter : ∀ i, (ρ i).deleter = .node

theorem update_role {γ : Type} (f : Role → γ) (ρ : Nat → Role) (i : Nat) (r : Role) :
    (fun j => f (Function.update ρ i r j)) = Function.update (fun j => f (ρ j)) i (f r) := by
  funext j
  by_cases hj : j = i
  · subst hj
    simp
  · simp [hj]

namespace Sound

variable {v v' : View α} {ρ : Nat → Role} {g g' : Ghost} {i j k s t e n : Nat} {r : Role} {R : Reading}
  {a b : Address} {grade : Grade} {c : Chain} {x : Entry} {hd : Hand} {met : List Address}

theorem own_update (own : r.own = (ρ i).own) :
    Function.update (fun j => (ρ j).own) i r.own = fun j => (ρ j).own := by
  rw [own]
  exact Function.update_eq_self i _

/-- The readings of thread `j` are those of the state. -/
theorem backed (d : Sound v ρ g) (hr : (ρ j).reading = some R) :
    R.Backed v.tables v.table v.nodes.below? (g.Excludes v.entries ρ) g.stage :=
  d.guarded j R hr

theorem owned (d : Sound v ρ g) (ho : (ρ i).own = some (a, grade)) : g.stage a = .own i grade :=
  (d.placed.owned i a grade).mp ho

theorem exists_plain_of_own (d : Sound v ρ g) (ho : (ρ i).own = some (a, grade)) :
    ∃ x, v.nodes.plain? a = some x :=
  d.placed.exists_plain (by simp [d.owned ho])

theorem exists_plain_of_valid (d : Sound v ρ g) (hr : (ρ j).reading = some R) (hv : R.Valid) :
    ∃ x, v.nodes.plain? R.node = some x := by
  refine d.placed.exists_plain fun hf => ?_
  have home := (d.backed hr).home hv
  rw [hf] at home
  cases home

/-- A node that is still linked may have readers anywhere, if threads only watch nodes of their own. -/
theorem not_excludes (d : Sound v ρ g) (ha : g.stage a = .linked s)
    (watched : ∀ b, (ρ k).watch.node? = some b → ∃ grade, (ρ k).own = some (b, grade)) (n : Nat) :
    ¬g.Excludes v.entries ρ k a n := by
  have due : ¬g.DueTo v.entries k a := by
    rintro ⟨e, t, -, hp⟩
    rw [(d.placed.parked e a t).mp hp] at ha
    cases ha
  have own : (ρ k).watch.node? ≠ some a := by
    intro hw
    obtain ⟨grade, ho⟩ := watched a hw
    rw [d.owned ho] at ha
    cases ha
  unfold Ghost.Excludes
  cases hw : (ρ k).watch with
  | nothing => exact id
  | scan b m => exact fun he => own (by rw [hw, he.1]; rfl)
  | release b => exact fun he => own (by rw [hw, show a = b from he]; rfl)
  | snapshot c => exact fun he => due he.1
  | sort met => exact fun he => due he.1
  | delete b met =>
    rintro (he | he)
    · exact own (by rw [hw, he]; rfl)
    · exact due he.1

/-- Thread `i` moves on, and leaves to all others what they have and what they rely on. -/
theorem move (d : Sound v ρ g)
    (stored : Stored (· = .node) v'.entries v'.first (Function.update (fun j => (ρ j).hand) i r.hand) g'.keeper)
    (placed : Placed v'.nodes v'.head (Function.update (fun j => (ρ j).own) i r.own)
      (g'.parked v'.entries) g'.stage g'.chain)
    (table : v'.table = v.table)
    (records : ∀ j R, j ≠ i → (ρ j).reading = some R →
      v'.tables.record? R.place = v.tables.record? R.place)
    (nodes : ∀ j R, j ≠ i → (ρ j).reading = some R → R.Valid →
      (g'.stage R.node).home? = (g.stage R.node).home? ∧ v'.nodes.below? R.node = v.nodes.below? R.node)
    (due : ∀ k a, k ≠ i → g'.DueTo v'.entries k a → g.DueTo v.entries k a)
    (watch : ∀ j R, j ≠ i → (ρ j).reading = some R → R.Valid →
      R.Backed v.tables v.table v.nodes.below? (g.Excludes v.entries ρ) g.stage →
      ¬r.watch.Excludes (g'.DueTo v'.entries i) R.node R.place.index)
    (mine : ∀ R, r.reading = some R →
      R.Backed v'.tables v'.table v'.nodes.below? (g'.Excludes v'.entries (Function.update ρ i r)) g'.stage)
    (deleter : r.deleter = .node) : Sound v' (Function.update ρ i r) g' := by
  refine ⟨?_, ?_, ?_, fun j => ?_⟩
  · rwa [update_role Role.hand]
  · rwa [update_role Role.own]
  · rw [table] at mine ⊢
    rw [update_role Role.reading]
    refine d.guarded.turn (fun j R hj hr b => ?_) mine
    refine ⟨?_, ?_, fun hv => ?_, fun next hn => ?_, fun hv k he => ?_⟩
    · rw [records j R hj hr]
      exact b.published
    · exact b.table
    · rw [(nodes j R hj hr hv).1]
      exact b.home hv
    · rw [(nodes j R hj hr (Reading.valid_of_followed hn)).2]
      exact b.below next hn
    · unfold Ghost.Excludes at he
      by_cases hk : k = i
      · subst hk
        rw [Function.update_self] at he
        exact watch j R hj hr hv b he
      · rw [Function.update_of_ne hk] at he
        exact b.unread hv k (he.mono fun hd => due k _ hk hd)
  · by_cases hj : j = i
    · subst hj
      rwa [Function.update_self]
    · rw [Function.update_of_ne hj]
      exact d.deleter j

/-- Nothing is read through a node that no stack is the home of. -/
theorem node_ne (d : Sound v ρ g) (ha : (g.stage a).home? = none) (hr : (ρ j).reading = some R)
    (hv : R.Valid) : R.node ≠ a := by
  rintro rfl
  have home := (d.backed hr).home hv
  rw [ha] at home
  cases home

/-- The records may change where the thread reads. Nodes and entries stay where they are. -/
theorem quiet {ts : Tables} (d : Sound v ρ g) (due : r.hand.due = (ρ i).hand.due)
    (kept : r.hand.kept = (ρ i).hand.kept)
    (stack : r.hand.stack = (ρ i).hand.stack ∨ (ρ i).hand.due = none ∧ (ρ i).hand.kept = none)
    (own : r.own = (ρ i).own)
    (records : ∀ j R, j ≠ i → (ρ j).reading = some R → ts.record? R.place = v.tables.record? R.place)
    (watch : ∀ j R, j ≠ i → (ρ j).reading = some R → R.Valid →
      R.Backed v.tables v.table v.nodes.below? (g.Excludes v.entries ρ) g.stage →
      ¬r.watch.Excludes (g.DueTo v.entries i) R.node R.place.index)
    (mine : ∀ R, r.reading = some R →
      R.Backed ts v.table v.nodes.below? (g.Excludes v.entries (Function.update ρ i r)) g.stage)
    (deleter : r.deleter = .node) : Sound { v with tables := ts } (Function.update ρ i r) g := by
  refine d.move (d.stored.quiet due kept stack) ?_ rfl records (fun _ _ _ _ _ => ⟨rfl, rfl⟩)
    (fun _ _ _ hd => hd) watch mine deleter
  rw [own_update own]
  exact d.placed

/-- A thread with nothing in its hands goes on with nothing. -/
theorem rest {ts : Tables} (d : Sound v ρ g) (due : (ρ i).hand.due = none)
    (kept : (ρ i).hand.kept = none) (own : (ρ i).own = none)
    (records : ∀ j R, j ≠ i → (ρ j).reading = some R → ts.record? R.place = v.tables.record? R.place) :
    Sound { v with tables := ts } (Function.update ρ i {}) g :=
  d.quiet due.symm kept.symm (.inr ⟨due, kept⟩) own.symm records (fun _ _ _ _ _ _ => id)
    (by simp) rfl

/-- A thread stops reading. -/
theorem drop {o : Option Reading} (d : Sound v ρ g) (h : ρ i = { reading := o }) :
    Sound v (Function.update ρ i {}) g :=
  d.rest (by rw [h]) (by rw [h]) (by rw [h]) fun _ _ _ _ => rfl

/-- A thread with the same in its hands comes to know more about the readers of nodes. -/
theorem learn (d : Sound v ρ g) (hand : r.hand = (ρ i).hand) (own : r.own = (ρ i).own)
    (reading : r.reading = none) (deleter : r.deleter = .node)
    (watch : ∀ j R, j ≠ i → (ρ j).reading = some R → R.Valid →
      R.Backed v.tables v.table v.nodes.below? (g.Excludes v.entries ρ) g.stage →
      ¬r.watch.Excludes (g.DueTo v.entries i) R.node R.place.index) :
    Sound v (Function.update ρ i r) g :=
  d.quiet (by rw [hand]) (by rw [hand]) (.inl (by rw [hand])) own (fun _ _ _ _ => rfl) watch
    (by simp [reading]) deleter

theorem alloc (d : Sound v ρ g) (h : ρ i = {}) (val : α) (next : Address) :
    Sound { v with nodes := v.nodes.alloc (.plain val next) }
      (Function.update ρ i { own := some (.node v.nodes.next, .fresh) })
      { g with stage := Function.update g.stage (.node v.nodes.next) (.own i .fresh) } := by
  have free : g.stage (.node v.nodes.next) = .free := by
    have := d.placed.live (.node v.nodes.next)
    rw [v.nodes.plain?_next] at this
    simpa using this
  refine d.move (d.stored.quiet (by simp [h]) (by simp [h]) (by simp [h]))
    (d.placed.alloc (by simp [h]) val next) rfl (fun _ _ _ _ => rfl) (fun j R hj hr hv => ?_)
    (fun _ _ _ hd => hd) (fun _ _ _ _ _ _ => id) (by simp) rfl
  have hne := d.node_ne (a := .node v.nodes.next) (by rw [free]; rfl) hr hv
  unfold Nodes.below?
  rw [Nodes.plain?_alloc, if_neg hne]
  exact ⟨by simp [hne], rfl⟩

theorem relink (d : Sound v ρ g) (h : ρ i = { own := some (a, .fresh) }) (next : Address) :
    Sound { v with nodes := v.nodes.updateAt a (·.setLink next) } ρ g := by
  have ha := d.owned (i := i) (by rw [h])
  rw [← Function.update_eq_self i ρ]
  refine d.move (d.stored.quiet rfl rfl (.inl rfl)) ?_ rfl (fun _ _ _ _ => rfl) (fun j R hj hr hv => ?_)
    (fun _ _ _ hd => hd) (by simp [h, Watch.Excludes]) (by simp [h]) (by rw [h])
  · rw [own_update rfl]
    exact d.placed.relink ha next
  · have hne := d.node_ne (a := a) (by rw [ha]; rfl) hr hv
    unfold Nodes.below?
    rw [Nodes.plain?_setLink, if_neg hne]
    exact ⟨rfl, rfl⟩

theorem push (d : Sound v ρ g) (h : ρ i = { own := some (a, .fresh) })
    (hb : v.nodes.below? a = some (v.head s)) :
    Sound { v with head := Function.update v.head s a } (Function.update ρ i {})
      { g with
        stage := Function.update g.stage a (.linked s)
        chain := Function.update g.chain s (a :: g.chain s) } := by
  have ha := d.owned (i := i) (by rw [h])
  refine d.move (d.stored.quiet (by simp [h]) (by simp [h]) (by simp [h]))
    (d.placed.push (by simp [h]) hb) rfl (fun _ _ _ _ => rfl) (fun j R hj hr hv => ?_)
    (fun _ _ _ hd => hd) (fun _ _ _ _ _ _ => id) (by simp) rfl
  have hne := d.node_ne (a := a) (by rw [ha]; rfl) hr hv
  exact ⟨by simp [hne], rfl⟩

/-- A pop replaces the node on top by the one that it has read to be below. -/
theorem pop {place : Place} (d : Sound v ρ g) (h : ρ i = { reading := some ⟨s, place, a, .followed b⟩ })
    (hs : v.head s = a) :
    ∃ l, g.chain s = a :: l ∧ Sound { v with head := Function.update v.head s b }
      (Function.update ρ i { own := some (a, .taken s) })
      { g with
        stage := Function.update g.stage a (.own i (.taken s))
        chain := Function.update g.chain s l } := by
  have hr : (ρ i).reading = some ⟨s, place, a, .followed b⟩ := by rw [h]
  have backed := d.backed hr
  have hv : Reading.Valid ⟨s, place, a, .followed b⟩ := by simp [Reading.Valid]
  have home : (g.stage a).home? = some s := backed.home hv
  have hnull : a ≠ .null := by
    rintro rfl
    rw [d.placed.stage_null] at home
    cases home
  obtain ⟨b', l, hc, hb', hp⟩ := d.placed.top hs hnull
  obtain rfl := Option.some.inj (hb'.symm.trans (backed.below b rfl))
  refine ⟨l, hc, ?_⟩
  refine d.move (d.stored.quiet (by simp [h]) (by simp [h]) (by simp [h]))
    (d.placed.pop (by simp [h]) hc hb' hp) rfl (fun _ _ _ _ => rfl) (fun j R hj hr hv => ⟨?_, rfl⟩)
    (fun _ _ _ hd => hd) (fun _ _ _ _ _ _ => id) (by simp) rfl
  by_cases hR : R.node = a
  · rw [hR, home]
    simp [Stage.home?]
  · simp [hR]

/-- A node is released that its keeper has found to have no reader. -/
theorem release (d : Sound v ρ g) (own : (ρ i).own = some (a, grade))
    (unread : ∀ n, (ρ i).watch.Excludes (g.DueTo v.entries i) a n) (hand : r.hand = (ρ i).hand)
    (hown : r.own = none) (reading : r.reading = none)
    (watch : ∀ b n, r.watch.Excludes (g.DueTo v.entries i) b n →
      (ρ i).watch.Excludes (g.DueTo v.entries i) b n) (deleter : r.deleter = .node) :
    Sound { v with nodes := v.nodes.release a } (Function.update ρ i r)
      { g with stage := Function.update g.stage a .free } := by
  refine d.move (d.stored.quiet (by rw [hand]) (by rw [hand]) (.inl (by rw [hand])))
    (by rw [hown]; exact d.placed.release own) rfl (fun _ _ _ _ => rfl) (fun j R hj hr hv => ?_)
    (fun _ _ _ hd => hd) (fun j R hj hr hv b he => b.unread hv i (watch _ _ he)) (by simp [reading])
    deleter
  have hne : R.node ≠ a := fun h => (d.backed hr).unread hv i (h ▸ unread _)
  unfold Nodes.below?
  rw [Nodes.plain?_release, if_neg hne]
  exact ⟨by simp [hne], rfl⟩

/-- A node that may have readers gets an entry of its own. -/
theorem park (d : Sound v ρ g) (h : ρ i = { own := some (a, .taken s) }) :
    Sound { v with entries := v.entries.alloc ⟨a, .node, none⟩ }
      (Function.update ρ i { hand := ⟨s, none, some ⟨v.entries.next, v.entries.next⟩⟩ })
      { g with
        stage := Function.update g.stage a (.parked v.entries.next s)
        keeper := Function.update g.keeper v.entries.next (.kept s i) } := by
  have ha := d.owned (i := i) (by rw [h])
  have free : g.parked v.entries v.entries.next = none := by
    simp [Ghost.parked, parkedAt?, Heap.get?_next]
  have parked : Ghost.parked { g with
      stage := Function.update g.stage a (.parked v.entries.next s)
      keeper := Function.update g.keeper v.entries.next (.kept s i) }
      (v.entries.alloc ⟨a, .node, none⟩) =
        Function.update (g.parked v.entries) v.entries.next (some (a, s)) := parkedAt?_alloc ..
  refine d.move (d.stored.park (by simp [h]) (by simp [h]) rfl a s) ?_ rfl (fun _ _ _ _ => rfl)
    (fun j R hj hr hv => ⟨?_, rfl⟩) (fun k b hk hd => hd.mono fun e t he => ?_)
    (fun _ _ _ _ _ _ => id) (by simp) rfl
  · have := d.placed.park (i := i) (by rw [h]) free s
    rwa [← parked] at this
  · by_cases hR : R.node = a
    · simp [hR, ha, Stage.home?]
    · simp [hR]
  · have hne : e ≠ v.entries.next := by
      rintro rfl
      simp at he
    simp only [Function.update_of_ne hne] at he
    exact ⟨he, by rw [parked, Function.update_of_ne hne]⟩

/-- The chain that goes back is linked to what the list's head is taken for. -/
theorem relinkEntry (d : Sound v ρ g) (h : ρ i = { hand := ⟨s, none, some c⟩ }) (seen : Option Nat) :
    Sound { v with entries := v.entries.update c.last fun y => { y with next := seen } } ρ g := by
  have parked : g.parked (v.entries.update c.last fun y => { y with next := seen }) =
      g.parked v.entries := parkedAt?_relink ..
  rw [← Function.update_eq_self i ρ]
  refine d.move ?_ ?_ rfl (fun _ _ _ _ => rfl) (fun _ _ _ _ _ => ⟨rfl, rfl⟩)
    (fun k b hk hd => hd.mono fun e t he => ⟨he, congrFun parked e⟩) (by simp [h, Watch.Excludes])
    (by simp [h]) (by rw [h])
  · rw [Function.update_eq_self (f := fun j => (ρ j).hand)]
    exact d.stored.relink (i := i) (by rw [h]) seen
  · rw [own_update rfl, parked]
    exact d.placed

/-- The chain that goes back is the front part of the list from now on. -/
theorem linkEntry (d : Sound v ρ g) (h : ρ i = { hand := ⟨s, none, some c⟩ })
    (hx : v.entries.get? c.last = some x) (hn : x.next = v.first s) :
    Sound { v with first := Function.update v.first s (some c.first) } (Function.update ρ i {})
      { g with keeper := fun e => (g.keeper e).pass (.kept s i) (.listed s) } := by
  have parked : Ghost.parked { g with keeper := fun e => (g.keeper e).pass (.kept s i) (.listed s) }
      v.entries = g.parked v.entries := parkedAt?_pass _ _ rfl
  refine d.move (d.stored.link (by simp [h]) (by simp [h]) (by simp [h]) hx hn) ?_ rfl
    (fun _ _ _ _ => rfl) (fun _ _ _ _ _ => ⟨rfl, rfl⟩)
    (fun k b hk hd => hd.mono fun e t he => ⟨?_, congrFun parked e⟩) (fun _ _ _ _ _ _ => id) (by simp) rfl
  · rw [parked, own_update (by rw [h])]
    exact d.placed
  · rwa [Keeper.pass_eq_iff (by simp) (by simp)] at he

/-- A pass begins with the whole list. -/
theorem takeList (d : Sound v ρ g) (h : ρ i = {}) (hs : v.first s = some e) :
    Sound { v with first := Function.update v.first s none }
      (Function.update ρ i { hand := ⟨s, some e, none⟩, watch := .snapshot {} })
      { g with keeper := fun e => (g.keeper e).pass (.listed s) (.due s i) } := by
  have parked : Ghost.parked { g with keeper := fun e => (g.keeper e).pass (.listed s) (.due s i) }
      v.entries = g.parked v.entries := parkedAt?_pass _ _ rfl
  refine d.move (hs ▸ d.stored.take (by simp [h]) (by simp [h]) s) ?_ rfl
    (fun _ _ _ _ => rfl) (fun _ _ _ _ _ => ⟨rfl, rfl⟩)
    (fun k b hk hd => hd.mono fun e t he => ⟨?_, congrFun parked e⟩)
    (fun _ _ _ _ _ _ he => Nat.not_lt_zero _ he.2.1) (by simp) rfl
  · rw [parked, own_update (by rw [h])]
    exact d.placed
  · rwa [Keeper.pass_eq_iff (by simp) (by simp [hk.symm])] at he

/-- An entry whose node is published goes back. -/
theorem keep (d : Sound v ρ g) {kept : Option Chain}
    (h : ρ i = { hand := ⟨s, some e, kept⟩, watch := .sort met }) (hx : v.entries.get? e = some x) :
    Sound { v with entries := v.entries.update e fun y => { y with next := kept.map Chain.first } }
      (Function.update ρ i
        { hand := ⟨s, x.next, some ⟨e, (kept.map Chain.last).getD e⟩⟩, watch := .sort met })
      { g with keeper := Function.update g.keeper e (.kept s i) } := by
  obtain ⟨-, -, mine, -⟩ := d.stored.next_due (i := i) (e := e) (by rw [h])
  rw [h] at mine
  have stored := d.stored.keep (i := i) (e := e) (by rw [h]) hx
  rw [h] at stored
  have parked : Ghost.parked { g with keeper := Function.update g.keeper e (.kept s i) }
      (v.entries.update e fun y => { y with next := kept.map Chain.first }) = g.parked v.entries :=
    (parkedAt?_relink ..).trans (parkedAt?_update _ _ _ (by rw [mine]; rfl))
  have due (k : Nat) (b : Address)
      (hd : Ghost.DueTo { g with keeper := Function.update g.keeper e (.kept s i) }
        (v.entries.update e fun y => { y with next := kept.map Chain.first }) k b) :
      g.DueTo v.entries k b := by
    refine hd.mono fun d t hd => ⟨?_, congrFun parked d⟩
    by_cases hde : d = e
    · simp [hde] at hd
    · simpa only [Function.update_of_ne hde] using hd
  refine d.move stored ?_ rfl (fun _ _ _ _ => rfl) (fun _ _ _ _ _ => ⟨rfl, rfl⟩)
    (fun k b _ => due k b) (fun j R hj hr hv b he => b.unread hv i ?_) (by simp) rfl
  · rw [parked, own_update (by rw [h])]
    exact d.placed
  · unfold Ghost.Excludes
    rw [h]
    exact he.mono (due i R.node)

/-- An entry whose node is not published goes, and the node is the pass's to delete. -/
theorem unlink (d : Sound v ρ g) {kept : Option Chain}
    (h : ρ i = { hand := ⟨s, some e, kept⟩, watch := .sort met }) (hx : v.entries.get? e = some x)
    (hm : x.address ∉ met) :
    Sound { v with entries := v.entries.free e }
      (Function.update ρ i
        { hand := ⟨s, x.next, kept⟩
          own := some (x.address, .spent s)
          watch := .delete x.address met
          deleter := x.deleter })
      { g with
        stage := Function.update g.stage x.address (.own i (.spent s))
        keeper := Function.update g.keeper e .nobody } := by
  obtain ⟨x', hx', mine, -⟩ := d.stored.next_due (i := i) (e := e) (by rw [h])
  obtain rfl := Option.some.inj (hx.symm.trans hx')
  rw [h] at mine
  have stored := d.stored.unlink (i := i) (e := e) (by rw [h]) hx
  rw [h] at stored
  have here : g.parked v.entries e = some (x.address, s) := by
    simp [Ghost.parked, parkedAt?, hx, mine, Keeper.stack?]
  have parked : Ghost.parked { g with keeper := Function.update g.keeper e .nobody } (v.entries.free e) =
      Function.update (g.parked v.entries) e none := parkedAt?_free ..
  have hs := (d.placed.parked e x.address s).mp here
  have due (k : Nat) (b : Address)
      (hd : Ghost.DueTo { g with keeper := Function.update g.keeper e .nobody } (v.entries.free e) k b) :
      g.DueTo v.entries k b := by
    refine hd.mono fun d t hd => ?_
    by_cases hde : d = e
    · simp [hde] at hd
    · simp only [Function.update_of_ne hde] at hd
      exact ⟨hd, by rw [parked, Function.update_of_ne hde]⟩
  refine d.move stored ?_ rfl (fun _ _ _ _ => rfl) (fun j R hj hr hv => ⟨?_, rfl⟩)
    (fun k b _ => due k b) (fun j R hj hr hv b he => b.unread hv i ?_) (by simp)
    (d.stored.deleter e x hx)
  · have := d.placed.unpark (i := i) (by rw [h]) here
    rwa [← parked] at this
  · by_cases hR : R.node = x.address
    · simp [hR, hs, Stage.home?]
    · simp [hR]
  · unfold Ghost.Excludes
    rw [h]
    obtain he | he := he
    · exact ⟨he ▸ ⟨e, s, mine, here⟩, he ▸ hm⟩
    · exact ⟨due i _ he.1, he.2⟩

/-- The stack that a node due to a thread was linked into. -/
theorem home_of_due (d : Sound v ρ g) (hd : g.DueTo v.entries i a) :
    (g.stage a).home? = some (ρ i).hand.stack := by
  obtain ⟨e, s, hk, hp⟩ := hd
  rw [(d.placed.parked e a s).mp hp, d.stored.stack e s i (.inl hk)]
  rfl

/-- The record of a reader is that of the table of the node's home. -/
theorem place_eq (d : Sound v ρ g) (hr : (ρ j).reading = some R) (hv : R.Valid)
    (home : (g.stage R.node).home? = some s) : R.place = ⟨v.table s, R.place.index⟩ := by
  have backed := d.backed hr
  obtain rfl := Option.some.inj ((backed.home hv).symm.trans home)
  rw [← backed.table]

/-- No reader has a record behind the last one of the table. -/
theorem index_lt (d : Sound v ρ g) (hr : (ρ j).reading = some R) (hv : R.Valid)
    (home : (g.stage R.node).home? = some s) (hn : v.tables.record? ⟨v.table s, n⟩ = none) :
    R.place.index < n := by
  obtain ⟨x, hx, -⟩ := (d.backed hr).published
  rw [d.place_eq hr hv home] at hx
  by_contra hle
  simp only [Tables.record?] at hx hn
  split at hx
  · rename_i t ht
    rw [ht] at hn
    simp only [Array.getElem?_eq_none_iff] at hn
    rw [Array.getElem?_eq_none (by omega)] at hx
    cases hx
  · cases hx

/-- The record looked at publishes something else than the node taken off. -/
theorem scanNext (d : Sound v ρ g) {y : Record}
    (h : ρ i = { own := some (a, .taken s), watch := .scan a n })
    (hn : v.tables.record? ⟨v.table s, n⟩ = some y) (hy : y.published ≠ a) :
    Sound v (Function.update ρ i { own := some (a, .taken s), watch := .scan a (n + 1) }) g := by
  have ha := d.owned (i := i) (by rw [h])
  refine d.learn (by rw [h]) (by rw [h]) rfl rfl fun j R hj hr hv b he => ?_
  obtain ⟨hR, hlt⟩ := he
  by_cases hi : R.place.index = n
  · obtain ⟨x, hx, hp⟩ := b.published
    rw [d.place_eq hr hv (s := s) (by rw [hR, ha]; rfl), hi, hn] at hx
    obtain rfl := Option.some.inj hx
    exact hy (hp.trans hR)
  · refine b.unread hv i ?_
    unfold Ghost.Excludes
    rw [h]
    exact ⟨hR, by omega⟩

/-- All records have been looked at. -/
theorem scanEnd (d : Sound v ρ g) (h : ρ i = { own := some (a, .taken s), watch := .scan a n })
    (hn : v.tables.record? ⟨v.table s, n⟩ = none) :
    Sound v (Function.update ρ i { own := some (a, .taken s), watch := .release a }) g := by
  have ha := d.owned (i := i) (by rw [h])
  refine d.learn (by rw [h]) (by rw [h]) rfl rfl fun j R hj hr hv b hR => b.unread hv i ?_
  unfold Ghost.Excludes
  rw [h]
  exact ⟨hR, d.index_lt hr hv (by rw [show R.node = a from hR, ha]; rfl) hn⟩

/-- The record looked at goes into the snapshot. -/
theorem snapshotNext (d : Sound v ρ g) {y : Record} {c : Scan.Collected}
    (h : ρ i = { hand := ⟨s, some e, none⟩, watch := .snapshot c })
    (hn : v.tables.record? ⟨v.table s, c.next⟩ = some y) :
    Sound v (Function.update ρ i
      { hand := ⟨s, some e, none⟩
        watch := .snapshot ⟨c.next + 1,
          if y.published = .null then c.met else y.published.insert c.met⟩ }) g := by
  refine d.learn (by rw [h]) (by rw [h]) rfl rfl fun j R hj hr hv b he => ?_
  obtain ⟨due, hlt, hmet⟩ := he
  have home := d.home_of_due due
  rw [h] at home
  by_cases hi : R.place.index = c.next
  · obtain ⟨x, hx, hp⟩ := b.published
    rw [d.place_eq hr hv home, hi, hn] at hx
    obtain rfl := Option.some.inj hx
    have hnull : y.published ≠ .null := by
      intro hnull
      rw [← hp, hnull, d.placed.stage_null] at home
      cases home
    rw [if_neg hnull] at hmet
    exact hmet ((Address.mem_insert _ _ _).mpr (.inl hp.symm))
  · refine b.unread hv i ?_
    unfold Ghost.Excludes
    rw [h]
    refine ⟨due, Nat.lt_of_le_of_ne (Nat.le_of_lt_succ hlt) hi, fun hm => hmet ?_⟩
    split
    · exact hm
    · exact (Address.mem_insert _ _ _).mpr (.inr hm)

/-- The snapshot is complete. -/
theorem snapshotEnd (d : Sound v ρ g) {c : Scan.Collected}
    (h : ρ i = { hand := ⟨s, some e, none⟩, watch := .snapshot c })
    (hn : v.tables.record? ⟨v.table s, c.next⟩ = none) :
    Sound v (Function.update ρ i { hand := ⟨s, some e, none⟩, watch := .sort c.met }) g := by
  refine d.learn (by rw [h]) (by rw [h]) rfl rfl fun j R hj hr hv b he => b.unread hv i ?_
  have home := d.home_of_due he.1
  rw [h] at home
  unfold Ghost.Excludes
  rw [h]
  exact ⟨he.1, d.index_lt hr hv home hn, he.2⟩

end Sound

end LockFreeStack.Hazard
