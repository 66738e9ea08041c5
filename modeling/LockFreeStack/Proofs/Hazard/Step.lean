import LockFreeStack.Proofs.Hazard.Proper

/-!
The steps of a thread keep the invariant. Each has the effect on the nodes linked into the stacks
that its point announces.
-/

namespace LockFreeStack.Hazard

variable {α κ β : Type}

/-- What an effect does to the nodes linked into the stacks. -/
inductive Shift (h : Nodes α) (chain : Nat → List Address) :
    (Nat → List Address) → Option (Nat × Effect α) → Prop where
  | stay : Shift h chain chain none
  | push {s : Nat} {a next : Address} {v : α} (there : h.plain? a = some (v, next)) :
    Shift h chain (Function.update chain s (a :: chain s)) (some (s, .push v))
  | pop {s : Nat} {a next : Address} {v : α} {l : List Address} (there : h.plain? a = some (v, next))
    (top : chain s = a :: l) : Shift h chain (Function.update chain s l) (some (s, .pop v))
  | empty {s : Nat} (none : chain s = []) : Shift h chain chain (some (s, .empty))

/-- Thread `i` gets to the role `r`, with the effect `e`. -/
def Advances (v : View α) (ρ : Nat → Role) (i : Nat) (g : Ghost) (e : Option (Nat × Effect α))
    (v' : View α) (r : Role) : Prop :=
  ∃ g', Sound v' (Function.update ρ i r) g' ∧ Shift v.nodes g.chain g'.chain e

/-- Wherever the step leads, the invariant is kept, and it ends with nothing but good results. -/
def Goes (v : View α) (ρ : Nat → Role) (i : Nat) (g : Ghost) (e : Option (Nat × Effect α))
    (role : κ → Role) (good : β → Prop) (o : Outcome (Memory α) κ β α) : Prop :=
  match o.next with
  | .goto q => Advances v ρ i g e o.memory.view (role q)
  | .done b => good b ∧ Advances v ρ i g e o.memory.view {}
  | .fault _ => False

variable {m : Memory α} {v v' : View α} {ρ : Nat → Role} {g g' : Ghost} {i s : Nat} {c : Chain} {r : Role}

theorem Advances.stay (d : Sound v' (Function.update ρ i r) g') (hc : g'.chain = g.chain) :
    Advances v ρ i g none v' r :=
  ⟨g', d, hc ▸ .stay⟩

/-- The thread stays in its role. -/
theorem Advances.refl (d : Sound v' ρ g) (h : ρ i = r) : Advances v ρ i g none v' r :=
  ⟨g, by rwa [← h, Function.update_eq_self], .stay⟩

theorem Goes.good {e : Option (Nat × Effect α)} {role : κ → Role} {good : β → Prop}
    {o : Outcome (Memory α) κ β α} {b : β} (k : Goes v ρ i g e role good o) (hb : o.next = .done b) :
    good b := by
  unfold Goes at k
  rw [hb] at k
  exact k.1

/-- A part's step seen from the whole. -/
theorem Goes.within {κ' β' : Type} {e : Option (Nat × Effect α)} {role : κ → Role} {role' : κ' → Role}
    {good : β → Prop} {good' : β' → Prop} {o : Outcome (Memory α) κ β α} {point : κ → κ'}
    {result : β → Next κ' β'} (k : Goes v ρ i g e role good o) (same : ∀ q, role' (point q) = role q)
    (ends : ∀ b, good b → (∃ q, result b = .goto q ∧ role' q = {}) ∨ ∃ b', result b = .done b' ∧ good' b') :
    Goes v ρ i g e role' good' (o.within id point result) := by
  obtain ⟨m, q | b | f, notes⟩ := o
  · show Advances _ _ _ _ _ _ (role' (point q))
    rw [same]
    exact k
  · obtain ⟨hb, a⟩ := k
    obtain ⟨q, hq, hrole⟩ | ⟨b', hb', hgood⟩ := ends b hb
    · simp only [Goes, Outcome.within, Next.within, hq, hrole]
      exact a
    · simp only [Goes, Outcome.within, Next.within, hb']
      exact ⟨hgood, a⟩
  · exact k

theorem update_first (hs : s < m.hazards.size) :
    Function.update m.view.first s (m.list (m.hazard s).list).head = m.view.first :=
  Function.update_eq_self_iff.mpr (Memory.first_eq hs).symm

/-- A list that keeps its entries and its head. -/
theorem view_setParking_of_eq (tidy : m.Tidy) (hs : s < m.hazards.size) {p : Parking}
    (entries : p.entries = m.entries) (head : p.list.head = (m.list (m.hazard s).list).head) :
    (m.withoutEntries.setParking (m.hazard s).list p).view = m.view := by
  rw [Memory.view_setParking tidy hs, entries, head, update_first hs]
  rfl

namespace Sound

theorem insertStep (d : Sound m.view ρ g) (tidy : m.Tidy) (hs : s < m.hazards.size)
    (h : ρ i = { hand := ⟨s, none, some c⟩ }) (p : Insert.Point) :
    Goes m.view ρ i g none (fun _ => { hand := ⟨s, none, some c⟩ }) (fun _ => True)
      (m.insertStep (m.hazard s).list c p) := by
  have hf : m.first s = (m.list (m.hazard s).list).head := Memory.first_eq hs
  cases p with
  | load =>
    show Advances _ _ _ _ _ (m.withoutEntries.setParking (m.hazard s).list _).view _
    rw [view_setParking_of_eq tidy hs rfl rfl]
    exact .refl d h
  | link seen =>
    obtain ⟨x, hx⟩ := d.stored.last_kept (i := i) (c := c) (by rw [h])
    have hx : m.entries.get? c.last = some x := hx
    have relinked := d.relinkEntry h seen
    by_cases hseen : (m.list (m.hazard s).list).head = seen
    · simp only [Goes, Memory.insertStep, Insert.step, Memory.parking, hx, hseen, ↓reduceIte,
        Outcome.within, Next.within, true_and, Memory.view_setParking tidy hs]
      exact .stay (relinked.linkEntry h (x := { x with next := seen }) (by
        rw [Heap.get?_update, if_pos rfl]
        exact congrArg _ hx) (hf.trans hseen).symm) rfl
    · simp only [Goes, Memory.insertStep, Insert.step, Memory.parking, hx, hseen, ↓reduceIte,
        Outcome.within, Next.within, Memory.view_setParking tidy hs, update_first hs]
      exact .refl relinked h

section Drain

/-- The next step of a pass over the list of the stack `s` keeps the invariant, and a pass ends
without trouble. -/
def DrainGoes (m : Memory α) (ρ : Nat → Role) (i : Nat) (g : Ghost) (s : Nat) (p : Drain.Point) :
    Prop :=
  Goes m.view ρ i g none (Drain.Point.role s) (fun r => ∃ n, r = .ok n)
    (m.drainStep (m.hazard s).list (m.hazard s).table p)

theorem goes_detach (d : Sound m.view ρ g) (tidy : m.Tidy) (hs : s < m.hazards.size) (h : ρ i = {}) :
    DrainGoes m ρ i g s .detach := by
  have hf : m.first s = (m.list (m.hazard s).list).head := Memory.first_eq hs
  cases hl : (m.list (m.hazard s).list).head with
  | none =>
    have same := view_setParking_of_eq tidy hs (p := ⟨m.entries, m.list (m.hazard s).list⟩) rfl rfl
    simp only [DrainGoes, Goes, Memory.drainStep, Drain.step, Memory.parking, hl, Outcome.within,
      Next.within, same]
    exact ⟨⟨0, rfl⟩, .refl d h⟩
  | some e =>
    simp only [DrainGoes, Goes, Memory.drainStep, Drain.step, Memory.parking, hl, Outcome.within,
      Next.within, Memory.view_setParking tidy hs]
    exact .stay (d.takeList h (hf.trans hl)) rfl

theorem goes_snapshot {first : Nat} {c : Scan.Collected} (d : Sound m.view ρ g) (tidy : m.Tidy)
    (hs : s < m.hazards.size)
    (h : ρ i = { hand := ⟨s, some first, none⟩, watch := .snapshot c }) :
    DrainGoes m ρ i g s (.snapshot first c) := by
  have hn := m.records_table (m.hazard s).table c.next
  have same := view_setParking_of_eq tidy hs (p := m.parking (m.hazard s).list) rfl rfl
  cases hc : (m.table (m.hazard s).table).records[c.next]? with
  | none =>
    simp only [DrainGoes, Goes, Memory.drainStep, Drain.step, Scan.collect, hc, Outcome.within,
      Next.within, same]
    exact .stay (d.snapshotEnd h (hn.symm.trans hc)) rfl
  | some y =>
    simp only [DrainGoes, Goes, Memory.drainStep, Drain.step, Scan.collect, hc, Outcome.within,
      Next.within, same]
    exact .stay (d.snapshotNext h (hn.symm.trans hc)) rfl

theorem goes_walk {w : Drain.Walk} (d : Sound m.view ρ g) (tidy : m.Tidy) (hs : s < m.hazards.size)
    (h : ρ i = { hand := ⟨s, w.at?, w.kept⟩, watch := .sort w.met }) :
    DrainGoes m ρ i g s (.walk w) := by
  have same := view_setParking_of_eq tidy hs (p := m.parking (m.hazard s).list) rfl rfl
  cases ha : w.at? with
  | none =>
    simp only [DrainGoes, Goes, Memory.drainStep, Drain.step, ha, Outcome.within, Next.within, same]
    rw [ha] at h
    exact .stay (d.learn (by rw [h]; rfl) (by rw [h]; rfl) rfl rfl fun _ _ _ _ _ _ => id) rfl
  | some e =>
    rw [ha] at h
    obtain ⟨x, hx, -, hne⟩ := d.stored.next_due (i := i) (e := e) (by rw [h])
    have hx : m.entries.get? e = some x := hx
    by_cases hm : x.address ∈ w.met
    · simp only [DrainGoes, Goes, Memory.drainStep, Drain.step, ha, Memory.parking, hx, hne, ↓reduceIte,
        List.contains_iff_mem, hm, Drain.keep, Outcome.within, Next.within,
        Memory.view_setParking tidy hs, update_first hs]
      exact .stay (d.keep h hx) rfl
    · simp only [DrainGoes, Goes, Memory.drainStep, Drain.step, ha, Memory.parking, hx, hne, ↓reduceIte,
        List.contains_iff_mem, hm, Outcome.within, Next.within, Memory.view_setParking tidy hs, update_first hs]
      exact .stay (d.unlink h hx hm) rfl

theorem goes_delete {a : Address} {deleter : Deleter} {w : Drain.Walk} (d : Sound m.view ρ g)
    (h : ρ i = (Drain.Point.delete a deleter w).role s) : DrainGoes m ρ i g s (.delete a deleter w) := by
  obtain rfl : deleter = .node := by
    have := d.deleter i
    rwa [h] at this
  have own : (ρ i).own = some (a, .spent s) := by rw [h]; rfl
  obtain ⟨x, hx⟩ := d.exists_plain_of_own own
  have live : m.nodes.isLiveAt a := Nodes.isLiveAt_of_plain? hx
  simp only [DrainGoes, Goes, Memory.drainStep, Memory.deletable, live, ↓reduceIte]
  refine .stay (d.release own (fun n => ?_) (by rw [h]; rfl) rfl rfl (fun b n he => ?_) rfl) rfl
  · rw [h]
    exact .inl rfl
  · rw [h]
    exact .inr he

theorem goes_settle {w : Drain.Walk} (d : Sound m.view ρ g) (tidy : m.Tidy) (hs : s < m.hazards.size)
    (h : ρ i = { hand := ⟨s, none, w.kept⟩ }) : DrainGoes m ρ i g s (.settle w) := by
  cases hk : w.kept with
  | none =>
    rw [hk] at h
    simp only [DrainGoes, Goes, Memory.drainStep, Drain.step, Memory.parking, hk, Outcome.within,
      Next.within]
    rw [view_setParking_of_eq tidy hs rfl rfl]
    exact ⟨⟨_, rfl⟩, .stay (d.rest (by rw [h]) (by rw [h]) (by rw [h]) fun _ _ _ _ => rfl) rfl⟩
  | some c =>
    rw [hk] at h
    simp only [DrainGoes, Goes, Memory.drainStep, Drain.step, Memory.parking, hk, Outcome.within,
      Next.within]
    rw [view_setParking_of_eq tidy hs rfl rfl]
    exact .refl d h

theorem goes_restore {q : Insert.Point} {deferred reclaimed : Nat} (d : Sound m.view ρ g)
    (tidy : m.Tidy) (hs : s < m.hazards.size) (h : ρ i = { hand := ⟨s, none, some c⟩ }) :
    DrainGoes m ρ i g s (.restore c q deferred reclaimed) := by
  have k := d.insertStep tidy hs h q
  simp only [Goes, Memory.insertStep, Outcome.within] at k
  simp only [DrainGoes, Goes, Memory.drainStep, Drain.step, Outcome.within]
  rcases ho : Insert.step (α := α) c (m.parking (m.hazard s).list) q with ⟨m', q' | u | f, notes⟩ <;>
    rw [ho] at k
  · exact k
  · exact ⟨⟨_, rfl⟩, k.2⟩
  · exact k

theorem drainStep (d : Sound m.view ρ g) (tidy : m.Tidy) (hs : s < m.hazards.size) (p : Drain.Point)
    (h : ρ i = p.role s) : DrainGoes m ρ i g s p := by
  cases p with
  | detach => exact d.goes_detach tidy hs h
  | snapshot first c => exact d.goes_snapshot tidy hs h
  | walk w => exact d.goes_walk tidy hs h
  | delete a deleter w => exact d.goes_delete h
  | settle w => exact d.goes_settle tidy hs h
  | restore c q deferred reclaimed => exact d.goes_restore tidy hs h

end Drain

theorem pushStep (d : Sound m.view ρ g) (hs : s < m.hazards.size) (p : Push α) (h : ρ i = p.role) :
    Goes m.view ρ i g ((Point.hazardPush s p).effect? m) Push.role (fun _ => True) (p.step m s) := by
  cases p with
  | allocate v granted =>
    cases granted with
    | true => exact .stay (d.alloc h v .null) rfl
    | false => exact ⟨trivial, .refl d h⟩
  | load a => exact .refl d h
  | link a seen =>
    obtain ⟨⟨v, next⟩, hx⟩ := d.exists_plain_of_own (show (ρ i).own = some (a, .fresh) by rw [h]; rfl)
    have hx : m.nodes.plain? a = some (v, next) := hx
    have relinked := d.relink h seen
    -- The node's own link is set before the head is looked at.
    have head : (Memory.hazard { m with nodes := m.nodes.updateAt a (·.setLink seen) } s).head =
        (m.hazard s).head := rfl
    by_cases hseen : (m.hazard s).head = seen
    · have hb : (m.nodes.updateAt a (·.setLink seen)).below? a = some (m.view.head s) := by
        rw [Nodes.below?, Nodes.plain?_setLink, if_pos rfl, hx]
        exact congrArg some hseen.symm
      simp only [Goes, Push.step, hx, head, if_pos hseen, Point.effect?_link hseen hx]
      rw [Memory.view_setHead (m := { m with nodes := m.nodes.updateAt a (·.setLink seen) }) hs]
      exact ⟨trivial, _, relinked.push h hb, .push hx⟩
    · simp only [Goes, Push.step, hx, head, if_neg hseen, Point.effect?_link_of_ne hseen]
      exact .refl relinked h

section Pop

variable {place : Place} {a next : Address} {val : α} {n : Nat}

/-- The thread goes on with the node that it reads. -/
theorem readOn {R R' : Reading} (d : Sound v ρ g) (h : ρ i = { reading := some R })
    (stack : R'.stack = R.stack) (place : R'.place = R.place) (node : R'.node = R.node)
    (home : R'.Valid → (g.stage R.node).home? = some R.stack)
    (below : ∀ next, R'.trust = .followed next → v.nodes.below? R.node = some next)
    (unread : R'.Valid → ∀ k, ¬g.Excludes v.entries ρ k R.node R.place.index) :
    Sound v (Function.update ρ i { reading := some R' }) g := by
  have b := d.backed (show (ρ i).reading = some R by rw [h])
  refine d.quiet (by rw [h]) (by rw [h]) (.inl (by rw [h])) (by rw [h]) (fun _ _ _ _ => rfl)
    (fun _ _ _ _ _ _ => id) ?_ rfl
  rintro _ ⟨⟩
  refine ⟨?_, ?_, ?_, ?_, fun hv k => ?_⟩
  · rw [place, node]
    exact b.published
  · rw [place, stack]
    exact b.table
  · rw [stack, node]
    exact home
  · rw [node]
    exact below
  · rw [place, node]
    unfold Ghost.Excludes
    by_cases hk : k = i
    · subst hk
      rw [Function.update_self]
      exact id
    · rw [Function.update_of_ne hk]
      exact unread hv k

/-- A thread publishes what it has read. -/
theorem publish (d : Sound v ρ g) (h : ρ i = {}) (mine : ∃ x, v.tables.record? place = some x)
    (apart : ∀ j R, j ≠ i → (ρ j).reading = some R → R.place ≠ place) (ht : place.table = v.table s)
    (a : Address) :
    Sound { v with tables := v.tables.publish place a }
      (Function.update ρ i { reading := some ⟨s, place, a, .asked⟩ }) g := by
  refine d.quiet (by rw [h]) (by rw [h]) (.inl (by rw [h])) (by rw [h]) (fun j R hj hr => ?_)
    (fun _ _ _ _ _ _ => id) ?_ rfl
  · rw [Tables.record?_publish, if_neg (apart j R hj hr)]
  · rintro _ ⟨⟩
    obtain ⟨x, hx⟩ := mine
    refine ⟨⟨{ x with published := a }, ?_, rfl⟩, ht, fun hv => absurd rfl hv, nofun, fun hv => absurd rfl hv⟩
    rw [Tables.record?_publish, if_pos rfl, hx]
    rfl

theorem withdraw (d : Sound v ρ g) (h : ρ i = {})
    (apart : ∀ j R, j ≠ i → (ρ j).reading = some R → R.place ≠ place) :
    Sound { v with tables := v.tables.publish place .null } (Function.update ρ i {}) g := by
  refine d.rest (by rw [h]) (by rw [h]) (by rw [h]) fun j R hj hr => ?_
  rw [Tables.record?_publish, if_neg (apart j R hj hr)]

/-- The head is still what the thread publishes. -/
theorem validate (d : Sound v ρ g) (h : ρ i = { reading := some ⟨s, place, a, .asked⟩ })
    (watchful : ∀ k, (ρ k).Watchful) (hs : v.head s = a) (ha : a ≠ .null) :
    Sound v (Function.update ρ i { reading := some ⟨s, place, a, .granted⟩ }) g := by
  have linked := d.placed.stage_top hs ha
  refine d.readOn h rfl rfl rfl (fun _ => ?_) nofun fun _ k => ?_
  · rw [linked]
    rfl
  · exact d.not_excludes linked (watchful k) _

/-- The thread has read the link of the node that it publishes. -/
theorem follow (d : Sound v ρ g) (h : ρ i = { reading := some ⟨s, place, a, .granted⟩ })
    (hb : v.nodes.below? a = some next) :
    Sound v (Function.update ρ i { reading := some ⟨s, place, a, .followed next⟩ }) g := by
  have hr : (ρ i).reading = some ⟨s, place, a, .granted⟩ := by rw [h]
  have hv : Reading.Valid ⟨s, place, a, .granted⟩ := by simp [Reading.Valid]
  have b := d.backed hr
  refine d.readOn h rfl rfl rfl (fun _ => b.home hv) ?_ fun _ => b.unread hv
  rintro _ ⟨⟩
  exact hb

/-- The thread takes its publication back before it looks for readers. -/
theorem clear (d : Sound v ρ g) (h : ρ i = { own := some (a, .taken s) })
    (apart : ∀ j R, j ≠ i → (ρ j).reading = some R → R.place ≠ place) :
    Sound { v with tables := v.tables.publish place .null }
      (Function.update ρ i { own := some (a, .taken s), watch := .scan a 0 }) g := by
  refine d.quiet (by rw [h]) (by rw [h]) (.inl (by rw [h])) (by rw [h]) (fun j R hj hr => ?_)
    (fun _ _ _ _ _ _ he => Nat.not_lt_zero _ he.2) (by simp) rfl
  rw [Tables.record?_publish, if_neg (apart j R hj hr)]

/-- The next step of a pop keeps the invariant, and a pop with a record ends without trouble. -/
def PopGoes (m : Memory α) (ρ : Nat → Role) (i : Nat) (g : Ghost) (s : Nat) (place : Place)
    (own : Option Nat) (p : Pop α) : Prop :=
  Goes m.view ρ i g ((Point.hazardPop s place own p).effect? m) (Pop.role s place)
    (fun r => ∃ o, r = .ok o) (p.step m s place)

variable {own : Option Nat}

theorem goes_validate (d : Sound m.view ρ g) (watchful : ∀ k, (ρ k).Watchful)
    (h : ρ i = { reading := some ⟨s, place, a, .asked⟩ }) :
    PopGoes m ρ i g s place own (.protect (.validate a)) := by
  by_cases ha : a = (m.hazard s).head
  · by_cases hn : a = .null
    · subst hn
      simp only [PopGoes, Goes, Pop.step, Protect.step, Outcome.within, Next.within, if_pos ha, ↓reduceIte,
        Point.effect?_validate ha.symm]
      exact ⟨g, d.drop h, .empty (d.placed.chain_eq_nil ha.symm)⟩
    · simp only [PopGoes, Goes, Pop.step, Protect.step, Outcome.within, Next.within, if_pos ha, if_neg hn,
        Point.effect?_validate_of_ne (.inr hn)]
      exact .stay (d.validate h watchful ha.symm hn) rfl
  · simp only [PopGoes, Goes, Pop.step, Protect.step, Outcome.within, Next.within, if_neg ha,
      Point.effect?_validate_of_ne (.inl ha)]
    exact .stay (d.drop h) rfl

theorem goes_readNext (d : Sound m.view ρ g) (h : ρ i = { reading := some ⟨s, place, a, .granted⟩ }) :
    PopGoes m ρ i g s place own (.readNext a) := by
  have hr : (ρ i).reading = some ⟨s, place, a, .granted⟩ := by rw [h]
  obtain ⟨⟨w, next⟩, hx⟩ := d.exists_plain_of_valid hr (by simp [Reading.Valid])
  have hx : m.nodes.plain? a = some (w, next) := hx
  simp only [PopGoes, Goes, Pop.step, hx]
  exact .stay (d.follow h (by simp [Nodes.below?, Memory.view, hx])) rfl

theorem goes_detachNode (d : Sound m.view ρ g) (hs : s < m.hazards.size)
    (h : ρ i = { reading := some ⟨s, place, a, .followed next⟩ }) :
    PopGoes m ρ i g s place own (.detach a next) := by
  by_cases ha : (m.hazard s).head = a
  · have hr : (ρ i).reading = some ⟨s, place, a, .followed next⟩ := by rw [h]
    obtain ⟨⟨w, below⟩, hx⟩ := d.exists_plain_of_valid hr (by simp [Reading.Valid])
    have hx : m.nodes.plain? a = some (w, below) := hx
    obtain ⟨l, hc, popped⟩ := d.pop h ha
    simp only [PopGoes, Goes, Pop.step, if_pos ha, Point.effect?_detach ha hx, Memory.view_setHead hs]
    exact ⟨_, popped, .pop hx hc⟩
  · simp only [PopGoes, Goes, Pop.step, if_neg ha, Point.effect?_detach_of_ne ha]
    exact .stay (d.drop h) rfl

theorem goes_take (d : Sound m.view ρ g) (h : ρ i = { own := some (a, .taken s) }) :
    PopGoes m ρ i g s place own (.take a) := by
  obtain ⟨⟨w, next⟩, hx⟩ := d.exists_plain_of_own (show (ρ i).own = some (a, .taken s) by rw [h])
  have hx : m.nodes.plain? a = some (w, next) := hx
  simp only [PopGoes, Goes, Pop.step, hx]
  exact .refl d h

theorem goes_scan (d : Sound m.view ρ g) (h : ρ i = { own := some (a, .taken s), watch := .scan a n }) :
    PopGoes m ρ i g s place own (.scan a val n) := by
  have hn := m.records_table (m.hazard s).table n
  have hnull : a ≠ .null := by
    rintro rfl
    have ho := d.owned (show (ρ i).own = some (.null, .taken s) by rw [h])
    rw [d.placed.stage_null] at ho
    cases ho
  cases hr : (m.table (m.hazard s).table).records[n]? with
  | none =>
    simp only [PopGoes, Goes, Pop.step, Scan.find, if_neg hnull, hr]
    exact .stay (d.scanEnd h (hn.symm.trans hr)) rfl
  | some y =>
    by_cases hy : y.published = a
    · simp only [PopGoes, Goes, Pop.step, Scan.find, if_neg hnull, hr, if_pos hy, ↓reduceIte]
      exact .stay (d.learn (by rw [h]; rfl) (by rw [h]; rfl) rfl rfl fun _ _ _ _ _ _ => id) rfl
    · simp only [PopGoes, Goes, Pop.step, Scan.find, if_neg hnull, hr, if_neg hy]
      exact .stay (d.scanNext h (hn.symm.trans hr) hy) rfl

theorem goes_release (d : Sound m.view ρ g) (h : ρ i = { own := some (a, .taken s), watch := .release a }) :
    PopGoes m ρ i g s place own (.release a val) := by
  have hown : (ρ i).own = some (a, .taken s) := by rw [h]
  obtain ⟨x, hx⟩ := d.exists_plain_of_own hown
  have live : m.nodes.isLiveAt a := Nodes.isLiveAt_of_plain? hx
  simp only [PopGoes, Goes, Pop.step, if_pos live]
  refine .stay (d.release hown (fun n => ?_) (by rw [h]; rfl) rfl rfl (fun b n he => he.elim) rfl) rfl
  rw [h]
  rfl

theorem goes_park (d : Sound m.view ρ g) (tidy : m.Tidy) (hs : s < m.hazards.size)
    (h : ρ i = { own := some (a, .taken s) }) : PopGoes m ρ i g s place own (.park a val) := by
  simp only [PopGoes, Goes, Pop.step, Memory.park, Parking.park, Memory.view_setParking tidy hs,
    Memory.parking, update_first hs]
  exact .stay (d.park h) rfl

theorem goes_check (d : Sound m.view ρ g) (h : ρ i = {}) : PopGoes m ρ i g s place own (.check val) := by
  by_cases he : (m.list (m.hazard s).list).isEmpty
  · simp only [PopGoes, Goes, Pop.step, if_pos he]
    exact ⟨⟨_, rfl⟩, .refl d h⟩
  · simp only [PopGoes, Goes, Pop.step, if_neg he]
    exact .refl d h

theorem popStep (d : Sound m.view ρ g) (tidy : m.Tidy) (hs : s < m.hazards.size)
    (watchful : ∀ k, (ρ k).Watchful) (mine : ∃ x, m.tables.record? place = some x)
    (apart : ∀ j R, j ≠ i → (ρ j).reading = some R → R.place ≠ place)
    (ht : place.table = (m.hazard s).table) (own : Option Nat) (p : Pop α) (h : ρ i = p.role s place) :
    PopGoes m ρ i g s place own p := by
  cases p with
  | protect q =>
    cases q with
    | load => exact .refl d h
    | publish a => exact .stay (d.publish h mine apart ht a) rfl
    | validate a => exact d.goes_validate watchful h
  | withdraw => exact ⟨⟨_, rfl⟩, .stay (d.withdraw h apart) rfl⟩
  | readNext a => exact d.goes_readNext h
  | detach a next => exact d.goes_detachNode hs h
  | take a => exact d.goes_take h
  | clear a w => exact .stay (d.clear h apart) rfl
  | scan a w n => exact d.goes_scan h
  | release a w => exact d.goes_release h
  | park a w => exact d.goes_park tidy hs h
  | insert c q w =>
    exact (d.insertStep tidy hs h q).within (fun _ => rfl) fun _ _ => .inl ⟨.check w, rfl, rfl⟩
  | check w => exact d.goes_check h
  | reclaim q w =>
    refine (d.drainStep tidy hs q h).within (fun _ => rfl) ?_
    rintro _ ⟨n, rfl⟩
    exact .inr ⟨_, rfl, _, rfl⟩

end Pop

end Sound

end LockFreeStack.Hazard
