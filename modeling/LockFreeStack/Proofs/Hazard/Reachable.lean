import LockFreeStack.Proofs.Hazard.Step

/-!
The invariant holds in every state that a crowd comes to.
-/

namespace LockFreeStack

variable {α : Type}

/-- A step of an operation as its shared memory sees it. -/
def Outcome.shared {κ β : Type} (o : Outcome (Operation.State α) κ β α) : Outcome (Memory α) κ β α :=
  ⟨o.memory.1, o.next, o.notes⟩

theorem Point.OnRecords.role {p : Point α} (hp : p.OnRecords) (c : Hazard.Call α) : p.role c = {} := by
  cases p <;> first | rfl | exact hp.elim

namespace Hazard

variable {v v' : View α} {ρ : Nat → Role} {g : Ghost}

/-- What happens apart from the threads leaves nodes, entries and the records in use alone. -/
theorem Sound.change (d : Sound v ρ g) (nodes : v'.nodes.plain? = v.nodes.plain?)
    (entries : v'.entries.get? = v.entries.get?) (head : v'.head = v.head) (first : v'.first = v.first)
    (records : ∀ j R, (ρ j).reading = some R →
      v'.tables.record? R.place = v.tables.record? R.place ∧ v'.table R.stack = v.table R.stack) :
    Sound v' ρ g := by
  have below : v'.nodes.below? = v.nodes.below? := by
    funext a
    simp only [Nodes.below?, nodes]
  have parked : g.parked v'.entries = g.parked v.entries := by
    funext e
    simp only [Ghost.parked, parkedAt?, entries]
  have excludes : g.Excludes v'.entries ρ = g.Excludes v.entries ρ := by
    funext i
    have due : g.DueTo v'.entries i = g.DueTo v.entries i := by
      funext a
      simp only [Ghost.DueTo, parked]
    simp only [Ghost.Excludes, due]
  refine ⟨first ▸ d.stored.congr entries, head ▸ parked ▸ d.placed.congr nodes, fun j R hr => ?_,
    d.deleter⟩
  obtain ⟨record, table⟩ := records j R hr
  have b := d.backed hr
  rw [below, excludes]
  refine ⟨record ▸ b.published, b.table.trans table.symm, b.home, b.below, b.unread⟩

theorem Sound.missInsert {m : Memory α} {i s : Nat} {c : Chain} (d : Sound m.view ρ g) (tidy : m.Tidy)
    (hs : s < m.hazards.size) (h : ρ i = { hand := ⟨s, none, some c⟩ }) (seen : Option Nat) :
    Advances m.view ρ i g none (m.missInsert (m.hazard s).list c seen).1.view
      { hand := ⟨s, none, some c⟩ } := by
  have hf : m.first s = (m.list (m.hazard s).list).head := Memory.first_eq hs
  unfold Memory.missInsert Insert.miss Memory.parking
  rw [Memory.view_setParking tidy hs, Function.update_eq_self_iff.mpr (by exact hf.symm)]
  exact .refl (d.relinkEntry h seen) h

theorem Call.role_start {m : Memory α} {me : Thread} {p : Point α} (c : Call α)
    (h : c.start? m me = some p) : p.role c = {} := by
  obtain hp | ⟨s, v, granted, rfl⟩ | ⟨s, rfl⟩ := c.start_cases h
  · exact hp.role c
  · rfl
  · rfl

theorem list_push_empty (m : Memory α) (l : Nat) :
    (m.lists.push .empty)[l]?.getD .empty = m.lists[l]?.getD .empty := by
  rw [Array.getElem?_push]
  split
  · rename_i hl
    simp [hl]
  · rfl

/-- A new stack is empty, and nothing is parked on its list. -/
theorem Change.heads (c : Change) (m : Memory α) (s : Nat) :
    ((c.apply m).hazard s).head = (m.hazard s).head ∧ (c.apply m).first s = m.first s := by
  cases c with
  | registry capacity =>
    simp only [apply]
    split <;> exact ⟨rfl, rfl⟩
  | stack t =>
    simp only [apply]
    split
    · simp only [Memory.hazard, Memory.first, Memory.addHazard, Memory.addList, Memory.addHandle,
        Memory.list, list_push_empty]
      rw [Array.getElem?_push]
      split
      · rename_i hs
        simp [hs, ParkedList.empty]
      · exact ⟨rfl, rfl⟩
    · exact ⟨rfl, rfl⟩
  | _ => exact ⟨rfl, rfl⟩

namespace Crowd

variable {x : Crowd α} {i j : Nat} {c : Call α} {p : Point α} {R : Reading}

structure Stable (x : Crowd α) (g : Ghost) : Prop where
  orderly : x.Orderly
  proper : x.Proper
  sound : Sound x.memory.view x.role g

/-- The effect of a move on the content of a stack. -/
def effect? (x : Crowd α) : Move α → Option (Nat × Effect α)
  | .step i => (x.busy i).bind fun b => b.2.effect? x.memory
  | _ => none

theorem role_eq (hb : x.busy i = some (c, p)) : x.role i = p.role c := by
  simp only [role, hb, roleOf]

/-- Who reads does so in the middle of a pop, and publishes in its own record. -/
theorem exists_hazardPop (hr : (x.role j).reading = some R) :
    ∃ c s own q, x.busy j = some (c, .hazardPop s R.place own q) ∧ R.stack = s := by
  unfold role at hr
  cases hb : x.busy j with
  | none =>
    rw [hb] at hr
    cases hr
  | some b =>
    obtain ⟨c, p⟩ := b
    rw [hb] at hr
    cases p with
    | hazardPop s place own q =>
      cases q with
      | protect q =>
        cases q <;> cases hr
        exact ⟨c, s, own, _, rfl, rfl⟩
      | reclaim q v => cases q <;> cases hr
      | readNext | detach =>
        cases hr
        exact ⟨c, s, own, _, rfl, rfl⟩
      | _ => cases hr
    | hazardPush s q => cases q <;> cases hr
    | drain l t q => cases q <;> cases hr
    | _ => cases hr

theorem Orderly.exists_record (o : x.Orderly) {s : Nat} {place : Place} {own : Option Nat} {q : Pop α}
    (hb : x.busy i = some (c, .hazardPop s place own q)) :
    ∃ r, x.memory.tables.record? place = some r ∧ r.owner = i + 1 := by
  have hs := o.seated_of_busy hb
  obtain ⟨d, hd, hplace⟩ := hs.fitting _ rfl
  rw [← o.token i]
  exact hs.owns.claimed d place hd hplace

/-- Nobody else writes to the record of a reader. -/
theorem Orderly.record_eq (o : x.Orderly) {ts : Tables} {token : Nat}
    (leaves : x.memory.tables.Leaves ts token) (ht : token ≠ j + 1)
    (hr : (x.role j).reading = some R) : ts.record? R.place = x.memory.tables.record? R.place := by
  obtain ⟨_, _, _, _, hb, -⟩ := exists_hazardPop hr
  obtain ⟨r, hrec, ho⟩ := o.exists_record hb
  rw [hrec, leaves R.place r (by omega) (by omega), hrec]

namespace Stable

theorem popStep {s : Nat} {place : Place} {own : Option Nat} {q : Pop α} (k : x.Stable g)
    (hb : x.busy i = some (c, .hazardPop s place own q)) :
    Goes x.memory.view x.role i g ((Point.hazardPop s place own q).effect? x.memory)
      (Pop.role s place) (fun r => ∃ o, r = .ok o) (q.step x.memory s place) := by
  obtain ⟨-, hs, ht⟩ := k.proper.proper i c _ hb
  obtain ⟨r, hr, ho⟩ := k.orderly.exists_record hb
  refine k.sound.popStep k.proper.tidy hs x.watchful_role ⟨r, hr⟩ (fun j R hj hR => ?_) ht own q
    (role_eq hb)
  -- Two readers with one record would both own it.
  rintro rfl
  obtain ⟨_, _, _, _, hb', -⟩ := exists_hazardPop hR
  obtain ⟨r', hr', ho'⟩ := k.orderly.exists_record hb'
  obtain rfl := Option.some.inj (hr.symm.trans hr')
  omega

theorem drainStep {l t : Nat} {q : Drain.Point} (k : x.Stable g)
    (hb : x.busy i = some (c, .drain l t q)) :
    Goes x.memory.view x.role i g none (fun q => (Point.drain l t q : Point α).role c)
      (fun r => ∃ n, r = .ok n) (x.memory.drainStep l t q) := by
  obtain ⟨s, hc, hs, rfl, rfl⟩ := k.proper.proper i c _ hb
  have hrole := role_eq hb
  simp only [Point.role, hc, Option.getD_some] at hrole ⊢
  exact k.sound.drainStep k.proper.tidy hs q hrole

theorem step (k : x.Stable g) (hb : x.busy i = some (c, p)) :
    Goes x.memory.view x.role i g (p.effect? x.memory) (Point.role c) (fun _ => True)
      (Operation.step (x.memory, x.me i) p).shared := by
  have hp := k.proper.proper i c p hb
  have hrole := role_eq hb
  have ht := k.orderly.token i
  have onRecords (hp : p.OnRecords) (effect : p.effect? x.memory = none) :
      Goes x.memory.view x.role i g (p.effect? x.memory) (Point.role c) (fun _ => True)
        (Operation.step (x.memory, x.me i) p).shared := by
    have leaves := (k.orderly.seats hb).leaves
    have stays := Operation.stays_step hp x.memory (x.me i)
    have idle : x.role i = {} := hrole.trans (hp.role c)
    rw [effect]
    rcases ho : Operation.step (x.memory, x.me i) p with ⟨⟨m, me⟩, n, notes⟩
    rw [ho] at leaves stays
    obtain ⟨⟨ts, rfl⟩, next, -⟩ := stays
    have rest : Advances x.memory.view x.role i g none (Memory.view { x.memory with tables := ts }) {} := by
      refine .stay (k.sound.rest ?_ ?_ ?_ fun j R hj hr => ?_) rfl
      · rw [idle]
      · rw [idle]
      · rw [idle]
      · exact k.orderly.record_eq leaves (by omega) hr
    cases n with
    | goto q =>
      have leads : q.role c = {} := by
        obtain hq | ⟨s, place, own, rfl⟩ := next
        · exact hq.role c
        · rfl
      simp only [Goes, Outcome.shared, leads]
      exact rest
    | done a => exact ⟨trivial, rest⟩
    | fault f => exact next
  cases p with
  | hazardPush s q =>
    exact (k.sound.pushStep hp.2 q hrole).within (fun _ => rfl) fun b _ => .inr ⟨.ofPush b, rfl, trivial⟩
  | hazardPop s place own q =>
    refine (k.popStep hb).within (fun _ => rfl) fun b _ => ?_
    cases own with
    | none => exact .inr ⟨.ofPop b, rfl, trivial⟩
    | some d => exact .inl ⟨.letGo d (.ofPop b), rfl, rfl⟩
  | drain l t q =>
    exact (k.drainStep hb).within (fun _ => rfl) fun b _ => .inr ⟨.ofCount b, rfl, trivial⟩
  | acquire | popWith | publish | dropSlot | takeBack | letGo | release | exit | exitRelease =>
    exact onRecords trivial rfl
  | _ => exact ((k.orderly.seated_of_busy hb).fitting _ rfl).elim

theorem miss {m : Memory α} {q : Point α} (k : x.Stable g) (hb : x.busy i = some (c, p))
    (hm : p.miss? x.memory = some (m, q)) :
    Advances x.memory.view x.role i g none m.view (q.role c) := by
  have hp := k.proper.proper i c p hb
  have hrole := role_eq hb
  unfold Point.miss? at hm
  split at hm
  · obtain ⟨rfl, rfl⟩ := Prod.mk.inj (Option.some.inj hm)
    exact .refl (k.sound.relink hrole _) hrole
  · obtain ⟨rfl, rfl⟩ := Prod.mk.inj (Option.some.inj hm)
    exact k.sound.missInsert k.proper.tidy hp.2.1 hrole _
  · obtain ⟨rfl, rfl⟩ := Prod.mk.inj (Option.some.inj hm)
    exact k.sound.missInsert k.proper.tidy hp.2.1 hrole _
  · obtain ⟨rfl, rfl⟩ := Prod.mk.inj (Option.some.inj hm)
    obtain ⟨s, hs, hlt, rfl, rfl⟩ := hp
    simp only [Point.role, hs, Option.getD_some] at hrole ⊢
    exact k.sound.missInsert k.proper.tidy hlt hrole _
  · cases hm

theorem change (k : x.Stable g) (c : Change) : Sound (c.apply x.memory).view x.role g := by
  have grows := c.grows x.memory
  have leaves := c.leaves x.memory
  refine k.sound.change ?_ ?_ ?_ ?_ fun j R hr => ⟨k.orderly.record_eq leaves (by omega) hr, ?_⟩
  · cases c with
    | registry capacity =>
      simp only [Change.apply]
      split <;> rfl
    | stack t =>
      simp only [Change.apply]
      split <;> rfl
    | recycleNode n => exact funext fun a => Nodes.plain?_recycle ..
    | _ => rfl
  · cases c with
    | registry capacity =>
      simp only [Change.apply]
      split <;> rfl
    | stack t =>
      simp only [Change.apply]
      split <;> rfl
    | _ => rfl
  · exact funext fun s => (c.heads x.memory s).1
  · exact funext fun s => (c.heads x.memory s).2
  · obtain ⟨_, s, _, _, hb, rfl⟩ := exists_hazardPop hr
    exact (grows _ (k.proper.proper j _ _ hb).2.1).2.1

/-- Every move keeps the invariant, and does to the nodes linked what its effect says. -/
theorem move (k : x.Stable g) (mv : Move α) :
    ∃ g', (x.move mv).Stable g' ∧ Shift x.memory.nodes g.chain g'.chain (x.effect? mv) := by
  have orderly := k.orderly.move mv
  have proper := k.proper.move k.orderly mv
  have stays (h : x.move mv = x) (he : x.effect? mv = none) :
      ∃ g', (x.move mv).Stable g' ∧ Shift x.memory.nodes g.chain g'.chain (x.effect? mv) :=
    ⟨g, by rwa [h], he ▸ .stay⟩
  have gets (i : Nat) (st : Operation.State α) (b : Option (Call α × Point α))
      (h : x.move mv = x.set i st b)
      (a : Advances x.memory.view x.role i g (x.effect? mv) st.1.view (roleOf b)) :
      ∃ g', (x.move mv).Stable g' ∧ Shift x.memory.nodes g.chain g'.chain (x.effect? mv) := by
    obtain ⟨g', d, sh⟩ := a
    refine ⟨g', ⟨orderly, proper, ?_⟩, sh⟩
    rw [h, role_set]
    exact d
  cases mv with
  | call i c =>
    cases hb : x.busy i with
    | some b => exact stays (by simp [Crowd.move, hb]) rfl
    | none =>
      cases hc : c.start? x.memory (x.me i) with
      | none => exact stays (by simp [Crowd.move, hb, hc]) rfl
      | some p =>
        refine gets i (x.memory, x.me i) (some (c, p)) (by simp [Crowd.move, hb, hc])
          (.refl k.sound ?_)
        rw [role, hb]
        exact (c.role_start hc).symm
  | step i =>
    cases hb : x.busy i with
    | none => exact stays (by simp [Crowd.move, hb]) (by simp [effect?, hb])
    | some b =>
      obtain ⟨c, p⟩ := b
      have s := k.step hb
      have he : x.effect? (.step i) = p.effect? x.memory := by simp [effect?, hb]
      rw [← he] at s
      rcases ho : Operation.step (x.memory, x.me i) p with ⟨st, q | a | f, notes⟩ <;> rw [ho] at s
      · exact gets i st (some (c, q)) (by simp only [Crowd.move, hb, ho]) s
      · exact gets i st none (by simp only [Crowd.move, hb, ho]) s.2
      · exact s.elim
  | miss i =>
    cases hb : x.busy i with
    | none => exact stays (by simp [Crowd.move, hb]) rfl
    | some b =>
      obtain ⟨c, p⟩ := b
      cases hm : p.miss? x.memory with
      | none => exact stays (by simp [Crowd.move, hb, hm]) rfl
      | some o =>
        exact gets i (o.1, x.me i) (some (c, o.2)) (by simp only [Crowd.move, hb, hm]) (k.miss hb hm)
  | change c => exact ⟨g, ⟨orderly, proper, k.change c⟩, .stay⟩

end Stable

end Crowd

end Hazard

end LockFreeStack
