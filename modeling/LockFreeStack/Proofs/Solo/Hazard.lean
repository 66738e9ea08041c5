import LockFreeStack.Proofs.Slot.Obtain
import LockFreeStack.Proofs.Solo.Session

/-!
A hazard stack with one thread and a registry of its own. The thread claims the first record when it
first pops and keeps it. Between two operations no record publishes anything, so a popped node is
found unprotected and its pop releases it.
-/

namespace LockFreeStack

variable {α : Type}

/-- No record of the table publishes anything. -/
def Table.Silent (t : Table) : Prop := ∀ (i : Nat) (r : Record), t.records[i]? = some r → r.published = .null

def Table.Unowned (t : Table) : Prop := ∀ (i : Nat) (r : Record), t.records[i]? = some r → r.owner = 0

namespace Table.Silent

variable {t : Table} (silent : t.Silent)

include silent

/-- What has been published and withdrawn again leaves no trace. -/
theorem withdrawn (i : Nat) (a : Address) : ((t.publish i a).publish i .null).Silent := by
  intro j r hr
  simp only [publish, record_update] at hr
  by_cases hj : i = j
  · obtain ⟨r', -, rfl⟩ := Option.map_eq_some_iff.mp (by simpa [hj] using hr)
    rfl
  · exact silent j r (by simpa [hj] using hr)

theorem owned (i token : Nat) : (t.setOwner i token).Silent := by
  intro j r hr
  simp only [setOwner, record_update] at hr
  split at hr
  · obtain ⟨r', hr', rfl⟩ := Option.map_eq_some_iff.mp hr
    exact silent j r' hr'
  · exact silent j r hr

end Table.Silent

/-- The claim of a thread that owns the first record of the first table, by its pin and so many other
references. -/
def Thread.seated (token refs : Nat) : Thread := ⟨token, #[⟨⟨0, 0⟩, refs + 1⟩], [⟨0, true⟩], .empty, []⟩

section Acquire

variable {t : Table} {token : Nat}

/-- The first acquisition claims the first record. -/
theorem Acquire.runs_claim (unowned : t.Unowned) (nonzero : token ≠ 0)
    (some : 0 < t.capacity) :
    Runs (α := α) (Acquire.step 0 true) (#[t], .new token) .lookup (t.capacity + 5) []
      (#[t.setOwner 0 token], .seated token 1) (.done (.ok 0)) := by
  have ht : (#[t] : Tables)[0]? = .some t := rfl
  have hr : t.records[0]? = .some t.records[0] := Array.getElem?_eq_getElem some
  have counts : (Thread.new token).Counts none := .new token
  have foreign (k : Nat) (r : Record) (hr : t.records[k]? = .some r) : r.owner ≠ (Thread.new token).token := by
    rw [unowned k r hr]
    exact nonzero.symm
  have check := Acquire.runs_check (α := α) ht true foreign (Nat.zero_add _)
  have seize := Acquire.runs_seize (α := α) ht true counts nonzero hr (unowned 0 _ hr)
  exact .quiet rfl rfl (.quiet rfl rfl (check.trans seize))

variable {m : Memory α} {me me' : Thread} {ts : Tables} {p : Acquire.Point} {s table n c : Nat}
  {place : Place} {q : List (Note α)}

/-- A pop that has acquired its claim goes on with it. -/
theorem Acquire.runs_operation
    (h : Runs (Acquire.step table true) (m.tables, me) p n q (ts, me') (.done (.ok c)))
    (hplace : me'.place? c = some place) :
    Runs Operation.step (m, me) (.acquire table (.pop s) p) n q ({ m with tables := ts }, me')
      (.goto (.hazardPop s place (some c) .start)) := by
  generalize hst : (m.tables, me) = st at h
  generalize hst' : (ts, me') = st' at h
  generalize ho : (Next.done (.ok c) : Next Acquire.Point (Except Trouble Nat)) = o at h
  induction h generalizing m me with
  | stay => cases ho
  | @step _ st₁ _ k k' _ notes _ _ h _ ih =>
    subst hst
    have hstep : Operation.step (m, me) (.acquire table (.pop s) k) =
        ⟨({ m with tables := st₁.1 }, st₁.2), .goto (.acquire table (.pop s) k'), notes⟩ := by
      simp only [Operation.step, Purpose.pins, h]
    exact .step hstep (ih rfl hst' ho)
  | last h =>
    subst hst hst' ho
    refine .last ?_
    simp only [Operation.step, Purpose.pins, h, Operation.acquired, hplace, List.append_nil]

end Acquire

/-- The memory of a hazard stack that is the only one. -/
def Memory.alone (h : Nodes α) (t : Table) (head : Address) : Memory α :=
  ⟨h, .empty, #[t], #[.empty], #[⟨head, 0, 0⟩], #[], #[]⟩

/-- With nothing parked the drop settles the linked nodes alone. -/
theorem Memory.dropHazard_alone (h : Nodes α) (t : Table) (head : Address) :
    let s := h.dropPlain h.size head
    ((alone h t head).dropHazard 0).1.nodes = s.memory ∧
      ((alone h t head).dropHazard 0).2 = s.notes ++ [.log (.hazardDropped s.count 0)] := by
  refine ⟨rfl, ?_⟩
  rw [← List.append_nil (h.dropPlain h.size head).notes]
  rfl

namespace Hazard

variable {h : Nodes α} {t : Table} {head next : Address} {v : α} {k : Nat}

theorem Push.runs (h : Nodes α) (t : Table) (head : Address) (v : α) :
    Runs (fun m => Push.step m 0) (.alone h t head) (.allocate v true) 3 []
      (.alone (Nodes.updateAt (h.alloc (.plain v .null)) (.node h.next) (·.setLink head)) t
        (.node h.next)) (.done (.ok ())) := by
  have there : Nodes.plain? (h.alloc (.plain v .null)) (.node h.next) = some (v, .null) := by
    simp [Nodes.plain?_alloc]
  have link : Push.step (.alone (h.alloc (.plain v .null)) t head) 0 (.link (.node h.next) head) =
      ⟨.alone (Nodes.updateAt (h.alloc (.plain v .null)) (.node h.next) (·.setLink head)) t
        (.node h.next), .done (.ok ()),
        [.action (.headCas (.link head) (.link (.node h.next)) true (.link head))]⟩ := by
    simp [Push.step, Memory.alone, there, Memory.hazard, Memory.setHead]
  exact .quiet rfl rfl (.quiet rfl rfl (.quietly link rfl))

/-- The record's address is withdrawn whether there was something to protect or not. -/
theorem Pop.runs_empty (h : Nodes α) (t : Table) :
    Runs (fun m => Pop.step m 0 ⟨0, 0⟩) (.alone h t .null) .start 4 []
      (.alone h ((t.publish 0 .null).publish 0 .null) .null) (.done (.ok none)) :=
  .quiet rfl rfl (.quiet rfl rfl (.quiet rfl rfl (.quietly rfl rfl)))

/-- A node that no record publishes is found unprotected. -/
theorem Pop.runs_scan (silent : t.Silent) (h : Nodes α) (next : Address) (k : Nat) (v : α) {i d : Nat} (hd : i + d = t.capacity) :
    Runs (fun m => Pop.step m 0 ⟨0, 0⟩) (.alone h t next) (.scan (.node k) v i) (d + 1) []
      (.alone h t next) (.goto (.release (.node k) v)) := by
  induction d generalizing i with
  | zero =>
    have hnone : t.records[i]? = none := Array.getElem?_eq_none (Nat.le_of_eq hd.symm)
    have scan : Pop.step (.alone h t next) 0 ⟨0, 0⟩ (.scan (.node k) v i) =
        ⟨.alone h t next, .goto (.release (.node k) v), []⟩ := by
      simp [Pop.step, Memory.alone, Memory.table, Memory.hazard, Scan.find, hnone]
    exact .quietly scan rfl
  | succ d ih =>
    have hlt : i < t.records.size := by
      have : t.capacity = t.records.size := rfl
      omega
    have hr : t.records[i]? = some t.records[i] := Array.getElem?_eq_getElem hlt
    have hnull : t.records[i].published = .null := silent i _ hr
    have scan : Pop.step (.alone h t next) 0 ⟨0, 0⟩ (.scan (.node k) v i) =
        ⟨.alone h t next, .goto (.scan (.node k) v (i + 1)), []⟩ := by
      simp [Pop.step, Memory.alone, Memory.table, Memory.hazard, Scan.find, hr, hnull]
    exact .quiet scan rfl (ih (by omega))

/-- The pop protects the node, detaches it, finds it protected by nobody and releases it. -/
theorem Pop.runs_node (there : h.plain? (.node k) = some (v, next))
    (silent : ((t.publish 0 (.node k)).publish 0 .null).Silent) :
    Runs (fun m => Pop.step m 0 ⟨0, 0⟩) (.alone h t (.node k)) .start (t.capacity + 10) [.freed k]
      (.alone (h.release (.node k)) ((t.publish 0 (.node k)).publish 0 .null) next)
      (.done (.ok (some v))) := by
  generalize ht : (t.publish 0 (.node k)).publish 0 .null = t' at silent
  have capacity : t'.capacity = t.capacity := by simp [← ht, Table.publish]
  have live : h.isLiveAt (.node k) := Nodes.isLiveAt_of_plain? there
  have validate : Pop.step (.alone h (t.publish 0 (.node k)) (.node k)) 0 ⟨0, 0⟩
      (.protect (.validate (.node k))) = ⟨.alone h (t.publish 0 (.node k)) (.node k),
        .goto (.readNext (.node k)), [.action (.headLoad (.link (.node k)))]⟩ := by
    simp [Pop.step, Protect.step, Memory.alone, Memory.hazard, Outcome.within, Next.within]
  have readNext : Pop.step (.alone h (t.publish 0 (.node k)) (.node k)) 0 ⟨0, 0⟩ (.readNext (.node k)) =
      ⟨.alone h (t.publish 0 (.node k)) (.node k), .goto (.detach (.node k) next), []⟩ := by
    simp [Pop.step, Memory.alone, there]
  have detach : Pop.step (.alone h (t.publish 0 (.node k)) (.node k)) 0 ⟨0, 0⟩
      (.detach (.node k) next) = ⟨.alone h (t.publish 0 (.node k)) next, .goto (.take (.node k)),
        [.action (.headCas (.link (.node k)) (.link next) true (.link (.node k)))]⟩ := by
    simp [Pop.step, Memory.alone, Memory.hazard, Memory.setHead]
  have take : Pop.step (.alone h (t.publish 0 (.node k)) next) 0 ⟨0, 0⟩ (.take (.node k)) =
      ⟨.alone h (t.publish 0 (.node k)) next, .goto (.clear (.node k) v), []⟩ := by
    simp [Pop.step, Memory.alone, there]
  have clear : Pop.step (.alone h (t.publish 0 (.node k)) next) 0 ⟨0, 0⟩ (.clear (.node k) v) =
      ⟨.alone h t' next, .goto (.scan (.node k) v 0), [.action (.hazardStore .null)]⟩ := by
    rw [← ht]
    rfl
  have release : Pop.step (.alone h t' next) 0 ⟨0, 0⟩ (.release (.node k) v) =
      ⟨.alone (h.release (.node k)) t' next, .goto (.check v), [.freed k]⟩ := by
    simp [Pop.step, Memory.alone, live, Address.freed]
  have scan := (Pop.runs_scan silent h next k v (Nat.zero_add t'.capacity)).trans
    (.step release (.quietly rfl rfl))
  rw [capacity] at scan
  exact .quiet rfl rfl (.quiet rfl rfl (.quiet validate rfl (.quiet readNext rfl (.quiet detach rfl
    (.quiet take rfl (.quiet clear rfl scan))))))

end Hazard

namespace Solo

open Session

variable {h : Nodes α} {t : Table} {head : Address} {me : Thread} {p : Pile α} {token n : Nat}
  {x : Session α}

/-- The thread owns no record yet, or it keeps the first one. -/
inductive Seat (token : Nat) (t : Table) : Thread → Prop where
  | none (unowned : t.Unowned) : Seat token t (.new token)
  | first : Seat token t (.seated token 0)

/-- A session with a hazard stack that holds the pile. Nothing is published and nothing is parked. -/
inductive HazardFor (token : Nat) : Session α → Pile α → Prop where
  | mk {h : Nodes α} {t : Table} {head : Address} {me : Thread} {p : Pile α} (filled : Filled h p)
    (chain : Piled h.openPlain? head p.content .null) (some : 0 < t.capacity) (silent : t.Silent)
    (seat : Seat token t me) : HazardFor token ⟨(.alone h t head, me), .hazard 0⟩ p

theorem le_patience_alone (h : Nodes α) (t : Table) (head : Address) (me : Thread) :
    64 + 8 * t.capacity ≤ Operation.patience (.alone h t head, me) := by
  simp only [Operation.patience, Memory.alone]
  simp
  omega

/-- What is beyond the nodes that stay as they are stays as it is. -/
theorem keep_chain {h' : Nodes α} {l : List (Nat × α)} {c : Address} (p : Piled h.openPlain? head l c)
    (same : ∀ k ∈ l.map Prod.fst, h'.plain? (.node k) = h.plain? (.node k)) :
    Piled h'.openPlain? head l c := by
  refine p.congr fun a k v b hk ho => ?_
  obtain ⟨rfl, hp⟩ := Nodes.openPlain?_eq_some.mp ho
  exact Nodes.openPlain?_eq_some.mpr ⟨rfl, (same k hk).trans hp⟩

namespace HazardFor

theorem push (v : α) (granted : Bool) (hx : HazardFor token x p) :
    Shows (HazardFor token) (x.push v granted) (p.push v granted) := by
  obtain @⟨h, t, head, me, p, filled, chain, some, silent, seat⟩ := hx
  have enough := le_patience_alone h t head me
  have within {n : Nat} {q : List (Note α)} {m' : Memory α} {r : Except Failure Unit}
      (hrun : Runs (fun m => Hazard.Push.step m 0) (.alone h t head) (.allocate v granted) n q m' (.done r)) :
      Runs Operation.step (.alone h t head, me) (.hazardPush 0 (.allocate v granted)) n q (m', me)
        (.done (.ofPush r)) :=
    hrun.within Operation.step (·, me) (.hazardPush 0) (fun r => .done (.ofPush r)) fun _ _ => rfl
  cases granted with
  | false =>
    have refused : Hazard.Push.step (.alone h t head) 0 (.allocate v false) =
        ⟨.alone h t head, .done (.error .allocation), [.dropped v]⟩ := rfl
    have hop := within (.last refused)
    exact finish_of_runs hop (by omega) (.mk filled chain some silent seat) rfl rfl
  | true =>
    have hop := within (Hazard.Push.runs h t head v)
    refine finish_of_runs hop (by omega) (.mk (filled.push _ _ v) ?_ some silent seat) rfl rfl
    have hnext : h.next = p.made := (Heap.next_of_spare filled.spare).trans filled.size
    refine .cons (b := head) ?_ (keep_chain chain fun k hk => ?_)
    · rw [Nodes.openPlain?_eq_some, ← hnext]
      simp [Nodes.plain?_setLink, Nodes.plain?_alloc]
    · have hne : k ≠ h.next := fun e => filled.next_notMem (e ▸ hk)
      simp [Nodes.plain?_setLink, Nodes.plain?_alloc, hne]

/-- A pop comes by the first record, which publishes nothing yet. -/
theorem runs_acquire (h : Nodes α) (head : Address) (nonzero : token ≠ 0) (some : 0 < t.capacity) (silent : t.Silent)
    (seat : Seat token t me) :
    ∃ n t', n ≤ t.capacity + 5 ∧ t'.capacity = t.capacity ∧ t'.Silent ∧
      Runs Operation.step (.alone h t head, me) (.acquire 0 (.pop 0) .lookup) n []
        (.alone h t' head, .seated token 1) (.goto (.hazardPop 0 ⟨0, 0⟩ (.some 0) .start)) := by
  cases seat with
  | none unowned =>
    have hrun := Acquire.runs_claim (α := α) unowned nonzero some
    exact ⟨_, _, Nat.le_refl _, Table.capacity_update .., silent.owned 0 token,
      Acquire.runs_operation hrun rfl⟩
  | first => exact ⟨1, t, by omega, rfl, silent, .quietly rfl rfl⟩

/-- The whole of a pop: the claim, the pop proper, and the reference given back. -/
theorem runs_pop (h : Nodes α) (head : Address) (nonzero : token ≠ 0) (some : 0 < t.capacity) (silent : t.Silent)
    (seat : Seat token t me) {k : Nat} {q : List (Note α)} {h' : Nodes α} {head' : Address}
    {r : Except Trouble (Option α)} {g : Table → Table}
    (pop : ∀ t' : Table, t'.Silent → t'.capacity = t.capacity →
      Runs (fun m => Hazard.Pop.step m 0 ⟨0, 0⟩) (.alone h t' head) .start k q
        (.alone h' (g t') head') (.done r)) :
    ∃ n t', n ≤ t.capacity + k + 6 ∧ t'.capacity = t.capacity ∧ t'.Silent ∧
      Runs Operation.step (.alone h t head, me) (.acquire 0 (.pop 0) .lookup) n q
        (.alone h' (g t') head', .seated token 0) (.done (.ofPop r)) := by
  obtain ⟨n, t', hn, capacity, silent', acquire⟩ := runs_acquire h head nonzero some silent seat
  have whole := (pop t' silent' capacity).within Operation.step (·, Thread.seated token 1)
    (.hazardPop 0 ⟨0, 0⟩ (.some 0)) (fun r => .goto (.letGo 0 (.ofPop r))) fun _ _ => rfl
  have letGo : Runs Operation.step (.alone h' (g t') head', .seated token 1) (.letGo 0 (.ofPop r)) 1 []
      (.alone h' (g t') head', .seated token 0) (.done (.ofPop r)) := .quietly rfl rfl
  have run := acquire.trans (whole.trans letGo)
  rw [List.nil_append, List.append_nil] at run
  exact ⟨_, t', by omega, capacity, silent', run⟩

theorem pop (nonzero : token ≠ 0) (hx : HazardFor token x p) : Shows (HazardFor token) x.pop p.pop := by
  obtain @⟨h, t, head, me, p, filled, chain, some, silent, seat⟩ := hx
  have enough := le_patience_alone h t head me
  obtain ⟨_ | ⟨⟨k, v⟩, rest⟩, made⟩ := p
  · cases chain
    obtain ⟨n, t', hn, capacity, silent', run⟩ := runs_pop h .null nonzero some silent seat
      fun t' _ _ => Hazard.Pop.runs_empty h t'
    refine finish_of_runs run (by omega) (.mk filled (.nil _) ?_ (silent'.withdrawn 0 _) .first) rfl rfl
    simpa [Table.publish, capacity] using some
  · cases chain
    rename_i next hopen chain
    obtain ⟨rfl, there⟩ := Nodes.openPlain?_eq_some.mp hopen
    obtain ⟨n, t', hn, capacity, silent', run⟩ := runs_pop h (.node k) nonzero some silent
      seat fun t' silent' capacity => capacity ▸ Hazard.Pop.runs_node there (silent'.withdrawn 0 _)
    refine finish_of_runs run (by omega) (.mk filled.pop ?_ ?_ (silent'.withdrawn 0 _) .first) rfl rfl
    · refine keep_chain chain fun j hj => ?_
      have hjk : j ≠ k := fun e => (List.nodup_cons.mp filled.nodup).1 (e ▸ hj)
      simp [Nodes.plain?_release, hjk]
    · simpa [Table.publish, capacity] using some

theorem isEmpty (hx : HazardFor token x p) :
    Shows (HazardFor token) (finish x.state x.stack (.isEmpty x.stack)) p.isEmpty := by
  obtain @⟨h, t, head, me, p, filled, chain, some, silent, seat⟩ := hx
  have enough := le_patience_alone h t head me
  have hrun : Runs Operation.step (.alone h t head, me) (.isEmpty (.hazard 0)) 1 [] (.alone h t head, me)
      (.done (.flag ((Memory.alone h t head).isEmpty (.hazard 0)))) :=
    .quietly rfl rfl
  refine finish_of_runs hrun (by omega) (.mk filled chain some silent seat) (congrArg Answer.flag ?_) rfl
  obtain ⟨content, made⟩ := p
  cases chain with
  | nil => rfl
  | cons hopen _ =>
    obtain ⟨rfl, -⟩ := Nodes.openPlain?_eq_some.mp hopen
    rfl

theorem drop (hx : HazardFor token x p) :
    settlements (x.state.1.dropStack x.stack).2 = estate p.content ∧
      (x.state.1.dropStack x.stack).1.nodes.size = p.made := by
  obtain @⟨h, t, head, me, p, filled, chain, some, silent, seat⟩ := hx
  have enough : p.content.length ≤ h.size := by
    have hle := filled.length_le
    rwa [← filled.size] at hle
  have hdrop := settles_plain.settles chain rfl filled.nodup enough
  obtain ⟨hnodes, hnotes⟩ := Memory.dropHazard_alone h t head
  rw [hdrop] at hnodes hnotes
  constructor
  · simp only [Memory.dropStack, hnotes, settlements_append, settlements_estate]
    exact List.append_nil _
  · simp only [Memory.dropStack, hnodes, Nodes.size_releaseAll]
    exact filled.size

end HazardFor

theorem hazard_serves (nonzero : token ≠ 0) : Serves fun _ => HazardFor (α := α) token where
  mono _ h := h
  push v granted h := h.push v granted
  pop h _ := h.pop nonzero
  miss h _ _ := h.pop nonzero
  isEmpty h := h.isEmpty
  size h := by
    obtain ⟨filled, -, -, -, -⟩ := h
    exact ⟨filled.size, filled.length_le⟩
  drop h := h.drop

/-- In a new registry nothing is published and nothing is claimed. -/
theorem hazardFor_new {capacity : Nat} (some : 0 < capacity) :
    ∃ x, Session.new (α := α) token .hazard capacity = .ok x ∧ HazardFor token x ⟨[], 0⟩ := by
  have blank (i : Nat) (r : Record) (hr : (Array.replicate capacity ({} : Record))[i]? = .some r) :
      r = {} := by
    rw [Array.getElem?_replicate] at hr
    simp_all
  have made : Table.new capacity = .ok ⟨.replicate capacity {}, 1⟩ := if_neg (Nat.ne_of_gt some)
  refine ⟨⟨(.alone .empty ⟨.replicate capacity {}, 1⟩ .null, .new token), .hazard 0⟩, ?_, ?_⟩
  · simp only [Session.new, made]
    rfl
  · refine .mk ⟨rfl, rfl, List.nodup_nil, nofun⟩ (.nil _) ?_ ?_ (.none ?_)
    · simpa [Table.capacity] using some
    · exact fun i r hr => congrArg Record.published (blank i r hr)
    · exact fun i r hr => congrArg Record.owner (blank i r hr)

end Solo

end LockFreeStack
