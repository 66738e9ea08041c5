import LockFreeStack.Proofs.Hazard.Reachable
import LockFreeStack.Proofs.Hazard.Sweep
import LockFreeStack.Proofs.Hazard.Tally
import LockFreeStack.Proofs.Parking.Course
import LockFreeStack.Proofs.Parking.Protection

/-!
What a pop leaves parked. A pop that takes a node while all other threads stand still frees the nodes
parked on its stack's list that no record publishes, the node it has taken included, whether it has
released that node at once or parked it and passed over the list.
-/

namespace LockFreeStack

variable {α : Type} {m m' : Memory α} {me : Thread}

/-- The record at this place publishes nothing. -/
def Tables.Silent (ts : Tables) (place : Place) : Prop :=
  ∀ r, ts.record? place = some r → r.published = .null

namespace Tables

variable {ts : Tables} {place : Place}

theorem silent_publish (ts : Tables) (place : Place) : (ts.publish place .null).Silent place := by
  intro r hr
  rw [record?_publish, if_pos rfl] at hr
  obtain ⟨r, -, rfl⟩ := Option.map_eq_some_iff.mp hr
  rfl

/-- Clearing a record that publishes nothing shows nothing new. -/
theorem Silent.published_publish (silent : ts.Silent place) (q : Place) :
    ((ts.publish place .null).record? q).map Record.published = (ts.record? q).map Record.published := by
  rw [record?_publish]
  split
  · rename_i hq
    rw [hq]
    cases hr : ts.record? place with
    | none => rfl
    | some r => simp [silent r hr]
  · rfl

theorem published_setOwner (ts : Tables) (place : Place) (n : Nat) (q : Place) :
    ((ts.setOwner place n).record? q).map Record.published = (ts.record? q).map Record.published := by
  rw [record?_setOwner]
  split
  · cases ts.record? q <;> rfl
  · rfl

end Tables

theorem Memory.shown_table (m : Memory α) (t k : Nat) :
    (m.table t).shown[k]? = (m.tables.record? ⟨t, k⟩).map Record.published := by
  rw [Table.shown_get?, records_table]

/-- What the records publish is all that decides what a table shows. -/
theorem Memory.shown_congr {t : Nat} (same : ∀ k, (m'.tables.record? ⟨t, k⟩).map Record.published =
    (m.tables.record? ⟨t, k⟩).map Record.published) : (m'.table t).shown = (m.table t).shown :=
  List.ext_getElem? fun k => by rw [shown_table, shown_table, same]

namespace Hazard

/-- What a pop starts with: its stack, with the list and the table, the node on top with its value, and
the deposits linked on the list. -/
structure Outset (α : Type) where
  stack : Nat
  list : Nat
  table : Nat
  top : Address
  value : Option α
  deposits : List Deposit

namespace Outset

variable {o : Outset α} {place : Place}

/-- The stack has its list and its table. -/
structure Home (o : Outset α) (m : Memory α) : Prop where
  stack : o.stack < m.hazards.size
  list : (m.hazard o.stack).list = o.list
  table : (m.hazard o.stack).table = o.table
  room : o.list < m.lists.size

theorem Home.list_setParking (home : o.Home m) (p : Parking) :
    (m.withoutEntries.setParking o.list p).list o.list = p.list := by
  rw [Memory.list_setParking home.room, Function.update_self]

/-- The nodes that the pop is to free or leave parked. -/
def Concerns (o : Outset α) (a : Address) : Prop := a ∈ o.deposits.map Deposit.address ∨ a = o.top

/-- Of the nodes that the pop is concerned with those published are left on the list, and the others are
gone. -/
structure Tidied (o : Outset α) (m : Memory α) (zs : List Deposit) : Prop where
  linked : m.entries.Linked (m.list o.list).head zs none
  parked : ∀ a, a ∈ zs.map Deposit.address ↔ o.Concerns a ∧ (m.table o.table).isProtected a
  freed : ∀ a, o.Concerns a → ¬(m.table o.table).isProtected a → m.nodes.isLiveAt a = false

/-- The node taken has been parked with the deposits if it is published, and is gone otherwise. -/
structure Retired (o : Outset α) (m : Memory α) (ys : List Deposit) : Prop where
  nodes : ∀ y ∈ ys, y.deleter = .node
  parked : ∀ a, a ∈ ys.map Deposit.address ↔
    a ∈ o.deposits.map Deposit.address ∨ a = o.top ∧ (m.table o.table).isProtected o.top
  freed : ¬(m.table o.table).isProtected o.top → m.nodes.isLiveAt o.top = false

/-- Nothing has happened to the stack and its list. -/
structure Fresh (o : Outset α) (m : Memory α) : Prop where
  linked : m.entries.Linked (m.list o.list).head o.deposits none
  top : (m.hazard o.stack).head = o.top
  value : (m.nodes.plain? o.top).map Prod.fst = o.value

/-- Where the pop stands, and what it has done to the list and to the node taken. -/
inductive Leaving (o : Outset α) (m : Memory α) (place : Place) : Pop α → Prop where
  | protect (fresh : o.Fresh m) (q : Protect.Point) : Leaving o m place (.protect q)
  | withdraw : Leaving o m place .withdraw
  | readNext (fresh : o.Fresh m) (a : Address) : Leaving o m place (.readNext a)
  | detach (fresh : o.Fresh m) (a next : Address) : Leaving o m place (.detach a next)
  | take (linked : m.entries.Linked (m.list o.list).head o.deposits none)
    (value : (m.nodes.plain? o.top).map Prod.fst = o.value) : Leaving o m place (.take o.top)
  | clear (linked : m.entries.Linked (m.list o.list).head o.deposits none) {v : α} (hv : o.value = some v) :
    Leaving o m place (.clear o.top v)
  | scan (linked : m.entries.Linked (m.list o.list).head o.deposits none) (silent : m.tables.Silent place)
    {v : α} (hv : o.value = some v) {k : Nat} (unseen : o.top ∉ (m.table o.table).shown.take k) :
    Leaving o m place (.scan o.top v k)
  | release (linked : m.entries.Linked (m.list o.list).head o.deposits none) (silent : m.tables.Silent place)
    {v : α} (hv : o.value = some v) (unseen : ¬(m.table o.table).isProtected o.top) :
    Leaving o m place (.release o.top v)
  | park (linked : m.entries.Linked (m.list o.list).head o.deposits none) (silent : m.tables.Silent place)
    {v : α} (hv : o.value = some v) (seen : (m.table o.table).isProtected o.top) :
    Leaving o m place (.park o.top v)
  | insert (linked : m.entries.Linked (m.list o.list).head o.deposits none) (silent : m.tables.Silent place)
    {v : α} (hv : o.value = some v) (seen : (m.table o.table).isProtected o.top) {e : Nat} {next : Option Nat}
    (live : m.entries.get? e = some ⟨o.top, .node, next⟩) (unused : e ∉ o.deposits.map Deposit.entry)
    (q : Insert.Point) : Leaving o m place (.insert ⟨e, e⟩ q v)
  | check {ys : List Deposit} (linked : m.entries.Linked (m.list o.list).head ys none) (retired : o.Retired m ys)
    (silent : m.tables.Silent place) {v : α} (hv : o.value = some v) : Leaving o m place (.check v)
  | detachList {ys : List Deposit} (linked : m.entries.Linked (m.list o.list).head ys none)
    (retired : o.Retired m ys) (silent : m.tables.Silent place) {v : α} (hv : o.value = some v) :
    Leaving o m place (.reclaim .detach v)
  | reclaim {ys : List Deposit} {calls : List (Address × Deleter)} (retired : o.Retired m ys)
    (nodup : (ys.map Deposit.entry).Nodup) (silent : m.tables.Silent place)
    (detached : (m.list o.list).head = none) {p : Drain.Point}
    (course : Drain.Course (m.table o.table) m.entries ys p calls)
    (called : ∀ x ∈ calls, m.nodes.isLiveAt x.1 = false) {v : α} (hv : o.value = some v) :
    Leaving o m place (.reclaim p v)

variable {ys : List Deposit} {calls : List (Address × Deleter)}

theorem Retired.congr (k : o.Retired m ys) (same : m'.tables = m.tables)
    (gone : ∀ a, m.nodes.isLiveAt a = false → m'.nodes.isLiveAt a = false) : o.Retired m' ys := by
  have table : m'.table o.table = m.table o.table := by simp only [Memory.table, same]
  exact ⟨k.nodes, by rw [table]; exact k.parked, fun h => gone _ (k.freed (table ▸ h))⟩

/-- Nothing is on the list any more, so nothing was published of what had been there. -/
theorem Retired.tidied_nil (k : o.Retired m []) (empty : (m.list o.list).head = none) : o.Tidied m [] := by
  have none (a : Address) : ¬(a ∈ o.deposits.map Deposit.address ∨
      a = o.top ∧ (m.table o.table).isProtected o.top) := fun h => by simpa using (k.parked a).mpr h
  refine ⟨empty ▸ .nil _ _, fun a => ?_, fun a ha hp => ?_⟩
  · refine ⟨fun h => by simp at h, ?_⟩
    rintro ⟨h | rfl, hp⟩
    · exact (none a (.inl h)).elim
    · exact (none _ (.inr ⟨rfl, hp⟩)).elim
  · obtain h | rfl := ha
    · exact (none a (.inl h)).elim
    · exact k.freed hp

/-- A pass over the list has freed all that is not published. -/
theorem Retired.tidied (k : o.Retired m ys)
    (linked : m.entries.Linked (m.list o.list).head (Drain.kept (m.table o.table) ys).reverse none)
    (called : ∀ x ∈ Drain.calls (m.table o.table) ys, m.nodes.isLiveAt x.1 = false) :
    o.Tidied m (Drain.kept (m.table o.table) ys).reverse := by
  refine ⟨linked, fun a => ?_, fun a ha hp => ?_⟩
  · have mem : a ∈ (Drain.kept (m.table o.table) ys).reverse.map Deposit.address ↔
        a ∈ ys.map Deposit.address ∧ (m.table o.table).isProtected a := by
      simp only [Drain.kept, List.map_reverse, List.mem_reverse, List.mem_map, List.mem_filter]
      constructor
      · rintro ⟨y, ⟨hy, hp⟩, rfl⟩
        exact ⟨⟨y, hy, rfl⟩, hp⟩
      · rintro ⟨⟨y, hy, rfl⟩, hp⟩
        exact ⟨y, ⟨hy, hp⟩, rfl⟩
    rw [mem, k.parked, Concerns]
    constructor
    · rintro ⟨h | ⟨rfl, -⟩, hp⟩
      · exact ⟨.inl h, hp⟩
      · exact ⟨.inr rfl, hp⟩
    · rintro ⟨h | rfl, hp⟩
      · exact ⟨.inl h, hp⟩
      · exact ⟨.inr ⟨rfl, hp⟩, hp⟩
  · obtain ha | rfl := ha
    · obtain ⟨y, hy, rfl⟩ := List.mem_map.mp ((k.parked a).mpr (.inl ha))
      exact called y.call (List.mem_map_of_mem (List.mem_filter.mpr ⟨hy, by simpa using hp⟩))
    · exact k.freed hp

/-- What a step of the pop comes to. -/
def Leads (o : Outset α) (place : Place)
    (out : Outcome (Memory α) (Pop α) (Except Trouble (Option α)) α) : Prop :=
  match out.next with
  | .goto q => o.Leaving out.memory place q
  | .done (.ok (some v)) =>
    o.value = some v ∧ (∃ zs, o.Tidied out.memory zs) ∧ out.memory.tables.Silent place
  | _ => True

section Step

variable (home : o.Home m)

include home

theorem leads_scan (linked : m.entries.Linked (m.list o.list).head o.deposits none)
    (silent : m.tables.Silent place) {v : α} (hv : o.value = some v) {k : Nat}
    (unseen : o.top ∉ (m.table o.table).shown.take k) :
    o.Leads place ((Pop.scan o.top v k).step m o.stack place) := by
  simp only [Leads, Pop.step, Scan.find, home.table]
  by_cases hn : o.top = .null
  · simp only [if_pos hn]
    refine .release linked silent hv fun h => ?_
    exact (Table.isProtected_iff.mp h).1 hn
  simp only [if_neg hn]
  have next := (m.table o.table).shown_get? k
  cases hr : (m.table o.table).records[k]? with
  | none =>
    rw [hr] at next
    have hlen : (m.table o.table).shown.length ≤ k := by simpa using next
    refine .release linked silent hv fun h => unseen ?_
    rw [List.take_of_length_le hlen]
    exact (Table.isProtected_iff.mp h).2
  | some r =>
    rw [hr] at next
    by_cases hp : r.published = o.top
    · simp only [if_pos hp]
      exact .park linked silent hv (Table.isProtected_of_record hr hp hn)
    · simp only [if_neg hp]
      refine .scan linked silent hv ?_
      rw [List.take_add_one, next]
      simpa [Ne.symm hp] using unseen

/-- The node is parked in an entry of its own. -/
theorem leads_park (linked : m.entries.Linked (m.list o.list).head o.deposits none)
    (silent : m.tables.Silent place) {v : α} (hv : o.value = some v)
    (seen : (m.table o.table).isProtected o.top) : o.Leads place ((Pop.park o.top v).step m o.stack place) := by
  have unused : m.entries.next ∉ o.deposits.map Deposit.entry := by
    intro h
    obtain ⟨x, hx, he⟩ := List.mem_map.mp h
    have content := linked.content x hx
    simp [Parking.content?, he, m.entries.get?_next] at content
  have same {x : Deposit} (hx : x ∈ o.deposits) :
      (m.entries.alloc ⟨o.top, .node, none⟩).get? x.entry = m.entries.get? x.entry := by
    refine (Heap.get?_alloc ..).trans (if_neg fun he => unused ?_)
    exact he ▸ List.mem_map_of_mem hx
  simp only [Leads, Pop.step, home.list, Memory.park, Parking.park]
  have live : (m.entries.alloc ⟨o.top, .node, none⟩).get? m.entries.next = some ⟨o.top, .node, none⟩ :=
    (Heap.get?_alloc ..).trans (if_pos rfl)
  refine .insert ?_ (by exact silent) hv (by exact seen) (by exact live) unused .load
  rw [home.list_setParking]
  exact linked.congr fun x hx => same hx

/-- The entry is linked to the head last seen, and goes on the list if that is the head still. -/
theorem leads_insert (hnode : ∀ x ∈ o.deposits, x.deleter = .node)
    (linked : m.entries.Linked (m.list o.list).head o.deposits none)
    (silent : m.tables.Silent place) {v : α} (hv : o.value = some v) (seen : (m.table o.table).isProtected o.top)
    {e : Nat} {next : Option Nat} (live : m.entries.get? e = some ⟨o.top, .node, next⟩)
    (unused : e ∉ o.deposits.map Deposit.entry) (q : Insert.Point) :
    o.Leads place ((Pop.insert ⟨e, e⟩ q v).step m o.stack place) := by
  cases q with
  | load =>
    simp only [Leads, Pop.step, home.list, Memory.insertStep, Insert.step, Outcome.within, Next.within, id_eq]
    refine .insert ?_ (by exact silent) hv (by exact seen) (by exact live) unused _
    rw [home.list_setParking]
    exact linked
  | link h =>
    have here : (m.entries.update e fun y => { y with next := h }).get? e = some ⟨o.top, .node, h⟩ := by
      simp [Heap.get?_update, live]
    have linked' : Entries.Linked (m.entries.update e fun y => { y with next := h }) (m.list o.list).head
        o.deposits none :=
      linked.congr fun x hx => (Heap.get?_update ..).trans
        (if_neg fun he => unused (List.mem_map.mpr ⟨x, hx, he⟩))
    have live' : (m.parking o.list).entries.get? e = some ⟨o.top, .node, next⟩ := live
    simp only [Leads, Pop.step, home.list, Memory.insertStep, Insert.step, live']
    by_cases hs : (m.list o.list).head = h
    · have hs' : (m.parking o.list).list.head = h := hs
      simp only [if_pos hs', Outcome.within, Next.within, id_eq]
      have onList : Entries.Linked (m.entries.update e fun y => { y with next := h }) (some e)
          (⟨e, o.top, .node⟩ :: o.deposits) none := .cons (x := ⟨e, o.top, .node⟩) here (hs ▸ linked')
      refine .check (by rw [home.list_setParking]; exact onList) ⟨?_, fun a => ?_, fun h => ?_⟩
        (by exact silent) hv
      · simpa using hnode
      · rw [List.map_cons, List.mem_cons, or_comm]
        exact or_congr_right ⟨fun h => ⟨h, seen⟩, fun h => h.1⟩
      · exact (h seen).elim
    · have hs' : ¬(m.parking o.list).list.head = h := hs
      simp only [if_neg hs', Outcome.within, Next.within, id_eq]
      refine .insert ?_ (by exact silent) hv (by exact seen) (by exact here) unused _
      rw [home.list_setParking]
      exact linked'

/-- A pass over the list goes on, or has freed all that is not published. -/
theorem leads_reclaim (retired : o.Retired m ys) (nodup : (ys.map Deposit.entry).Nodup)
    (silent : m.tables.Silent place) (detached : (m.list o.list).head = none) {p : Drain.Point}
    (course : Drain.Course (m.table o.table) m.entries ys p calls)
    (called : ∀ x ∈ calls, m.nodes.isLiveAt x.1 = false) {v : α} (hv : o.value = some v) :
    o.Leads place ((Pop.reclaim p v).step m o.stack place) := by
  have empty : (m.parking o.list).entries.Linked (m.parking o.list).list.head [] none := by
    rw [show (m.parking o.list).list.head = none from detached]
    exact .nil _ _
  have carries := course.carries (α := α) (m := m.parking o.list) nodup (rfl : (m.table o.table).shown = _) empty
    (by simp)
  by_cases hd : ∃ a d w, p = .delete a d w
  · obtain ⟨a, d, w, rfl⟩ := hd
    obtain ⟨y, hy, rfl, rfl⟩ := course.exists_delete
    have hn := retired.nodes y hy
    have gone (b : Address) (hb : m.nodes.isLiveAt b = false ∨ b = y.address) :
        (m.nodes.release y.address).isLiveAt b = false := by
      unfold Nodes.isLiveAt at hb ⊢
      rw [Nodes.at?_release]
      obtain hb | rfl := hb
      · split
        · rfl
        · exact hb
      · simp
    simp only [Leads, Pop.step, Memory.drainStep]
    by_cases live : m.deletable y.address y.deleter
    · have course' : Drain.Course (m.table o.table) m.entries ys (.walk w) (calls ++ [y.call]) := carries.course
      have memory : m.delete y.address y.deleter = { m with nodes := m.nodes.release y.address } := by
        rw [hn]
        rfl
      simp only [if_pos live, Outcome.within, Next.within, id_eq, memory]
      refine .reclaim (m := { m with nodes := m.nodes.release y.address })
        (retired.congr rfl fun b hb => gone b (.inl hb)) nodup silent detached course' (fun x hx => ?_) hv
      obtain hx | hx := List.mem_append.mp hx
      · exact gone _ (.inl (called x hx))
      · obtain rfl := List.mem_singleton.mp hx
        exact gone _ (.inr rfl)
    · simp only [if_neg live, Outcome.within, Next.within]
  · have step : m.drainStep o.list o.table p = (Drain.step (m.table o.table) (m.parking o.list) p).within
        (m.withoutEntries.setParking o.list ·) id .done := by
      cases p <;> first | rfl | exact (hd ⟨_, _, _, rfl⟩).elim
    have quiet := Drain.deletions_step (α := α) (m.table o.table) (m.parking o.list) fun a d w hp =>
      hd ⟨a, d, w, hp⟩
    simp only [Leads, Pop.step, home.list, home.table, step]
    rcases ho : Drain.step (α := α) (m.table o.table) (m.parking o.list) p with ⟨m', q | r | f, notes⟩ <;>
      simp only [Drain.Carries, ho] at carries quiet <;> simp only [Outcome.within, Next.within, id_eq]
    · have course' := carries.course
      rw [quiet, List.append_nil] at course'
      refine .reclaim (m := m.withoutEntries.setParking o.list m') (retired.congr rfl fun _ => id) nodup silent ?_
        course' called hv
      rw [home.list_setParking]
      exact carries.head.trans detached
    · obtain rfl := carries.result
      refine ⟨hv, ⟨_, Retired.tidied (retired.congr rfl fun _ => id) ?_ ?_⟩, silent⟩
      · rw [home.list_setParking]
        rw [← List.append_nil (Drain.kept _ _).reverse]
        exact carries.list
      · have all := carries.called
        rw [quiet, List.append_nil] at all
        exact all ▸ called

theorem leads_detach (retired : o.Retired m ys) (linked : m.entries.Linked (m.list o.list).head ys none)
    (silent : m.tables.Silent place) {v : α} (hv : o.value = some v) :
    o.Leads place ((Pop.reclaim .detach v).step m o.stack place) := by
  have same : m.withoutEntries.setParking o.list ⟨m.entries, m.list o.list⟩ = m :=
    Memory.setParking_list home.room m.entries
  simp only [Leads, Pop.step, home.list, Memory.drainStep, Drain.step, Memory.parking]
  cases hm : (m.list o.list).head with
  | none =>
    simp only [Outcome.within, Next.within, same]
    rw [hm] at linked
    obtain rfl : ys = [] := by simpa using (linked.unique (.nil _ _))
    exact ⟨hv, ⟨[], retired.tidied_nil hm⟩, silent⟩
  | some first =>
    simp only [Outcome.within, Next.within, id_eq]
    refine .reclaim (m := m.withoutEntries.setParking o.list _) (retired.congr rfl fun _ => id) linked.nodup
      silent ?_ (.scan (hm ▸ linked) fun a => by simp) (by simp) hv
    rw [home.list_setParking]

theorem Leaving.step {q : Pop α} (k : o.Leaving m place q) (hnode : ∀ x ∈ o.deposits, x.deleter = .node) :
    o.Leads place (q.step m o.stack place) := by
  cases k with
  | protect fresh q =>
    cases q with
    | load => exact .protect fresh _
    | publish a => exact .protect (by exact ⟨fresh.linked, fresh.top, fresh.value⟩) _
    | validate a =>
      simp only [Leads, Pop.step, Protect.step]
      by_cases hs : a = (m.hazard o.stack).head
      · simp only [if_pos hs, Outcome.within, Next.within]
        by_cases ha : a = .null
        · rw [if_pos ha]
          exact .withdraw
        · rw [if_neg ha]
          exact .readNext fresh a
      · simp only [if_neg hs, Outcome.within, Next.within]
        exact .protect fresh _
  | withdraw => trivial
  | readNext fresh a =>
    simp only [Leads, Pop.step]
    cases m.nodes.plain? a with
    | none => trivial
    | some x => exact .detach fresh _ _
  | detach fresh a next =>
    simp only [Leads, Pop.step]
    by_cases hs : (m.hazard o.stack).head = a
    · obtain rfl : o.top = a := fresh.top.symm.trans hs
      simp only [if_pos hs]
      exact .take fresh.linked fresh.value
    · simp only [if_neg hs]
      exact .protect fresh _
  | take linked value =>
    simp only [Leads, Pop.step]
    cases hx : m.nodes.plain? o.top with
    | none => trivial
    | some x =>
      rw [hx] at value
      exact .clear linked value.symm
  | clear linked hv => exact .scan (by exact linked) (m.tables.silent_publish place) hv (by simp)
  | scan linked silent hv unseen => exact leads_scan home linked silent hv unseen
  | release linked silent hv unseen =>
    simp only [Leads, Pop.step]
    by_cases live : m.nodes.isLiveAt o.top
    · simp only [if_pos live]
      refine .check (m := { m with nodes := m.nodes.release o.top }) linked ⟨hnode, fun a => ?_, fun _ => ?_⟩
        silent hv
      · exact ⟨.inl, fun h => h.elim id fun h => (unseen h.2).elim⟩
      · simp [Nodes.isLiveAt, Nodes.at?_release]
    · simp only [if_neg live]
  | park linked silent hv seen => exact leads_park home linked silent hv seen
  | insert linked silent hv seen live unused q =>
    exact leads_insert home hnode linked silent hv seen live unused q
  | check linked retired silent hv =>
    simp only [Leads, Pop.step, home.list]
    by_cases empty : (m.list o.list).isEmpty
    · have hm : (m.list o.list).head = none := by simpa [ParkedList.isEmpty] using empty
      rw [hm] at linked
      obtain rfl := linked.unique (.nil _ _)
      simp only [if_pos empty]
      exact ⟨hv, ⟨[], retired.tidied_nil hm⟩, silent⟩
    · simp only [if_neg empty]
      exact .detachList linked retired silent hv
  | detachList linked retired silent hv => exact leads_detach home retired linked silent hv
  | reclaim retired nodup silent detached course called hv =>
    exact leads_reclaim home retired nodup silent detached course called hv

end Step

/-- Other records that show the same do not matter. -/
theorem Tidied.congr {zs : List Deposit} (k : o.Tidied m zs) {ts : Tables}
    (same : ∀ k, (ts.record? ⟨o.table, k⟩).map Record.published =
      (m.tables.record? ⟨o.table, k⟩).map Record.published) : o.Tidied { m with tables := ts } zs := by
  have published (a : Address) : (Memory.table { m with tables := ts } o.table).isProtected a =
      (m.table o.table).isProtected a :=
    Table.isProtected_congr (Memory.shown_congr same)
  refine ⟨k.linked, fun a => ?_, fun a => ?_⟩
  · rw [published]
    exact k.parked a
  · rw [published]
    exact k.freed a

/-- The pop has taken its node and done with it. -/
structure Done (o : Outset α) (m : Memory α) (v : α) : Prop where
  value : o.value = some v
  tidied : ∃ zs, o.Tidied m zs

/-- Where a call of the pop stands, and what it has done to the list and to the node taken. -/
inductive Residue (o : Outset α) (m : Memory α) (me : Thread) : Point α → Prop where
  | acquire (fresh : o.Fresh m) (q : Acquire.Point) : Residue o m me (.acquire o.table (.pop o.stack) q)
  | popWith (fresh : o.Fresh m) (c : Nat) : Residue o m me (.popWith o.stack c)
  | pop {place : Place} {own : Option Nat} {q : Pop α} (leaving : o.Leaving m place q)
    (mine : ∀ c, own = some c → me.place? c = some place) : Residue o m me (.hazardPop o.stack place own q)
  | letGo {c : Nat} {answer : Answer α} (left : ∀ v, answer = .popped (some v) →
      o.Done m v ∧ ∀ place, me.place? c = some place → m.tables.Silent place) :
    Residue o m me (.letGo c answer)
  | release {place : Place} {q : Release.Point} {answer : Answer α} (left : ∀ v, answer = .popped (some v) →
      o.Done m v ∧ m.tables.Silent place) : Residue o m me (.release place q answer)

/-- What a step of the call comes to. -/
def Residue.Leads (o : Outset α) (out : Outcome (Operation.State α) (Point α) (Answer α) α) : Prop :=
  match out.next with
  | .goto q => o.Residue out.memory.1 out.memory.2 q
  | .done answer => ∀ v, answer = .popped (some v) → o.Done out.memory.1 v
  | .fault _ => True

namespace Residue

variable {p : Point α}

theorem leads_acquire (fresh : o.Fresh m) (q : Acquire.Point) :
    Leads o (Operation.step (m, me) (.acquire o.table (.pop o.stack) q)) := by
  simp only [Leads, Operation.step]
  rcases ho : Acquire.step (α := α) o.table (Purpose.pop o.stack).pins (m.tables, me) q with
    ⟨⟨ts, me'⟩, q' | (e | c) | f, notes⟩
  · exact .acquire (by exact ⟨fresh.linked, fresh.top, fresh.value⟩) q'
  · rintro v ⟨⟩
  · simp only [Operation.acquired]
    cases hp : me'.place? c with
    | none => rintro v ⟨⟩
    | some place =>
      refine .pop (.protect (by exact ⟨fresh.linked, fresh.top, fresh.value⟩) .load) ?_
      rintro d ⟨⟩
      exact hp
  · trivial

theorem leads_pop {place : Place} {own : Option Nat} {q : Pop α} (home : o.Home m)
    (hnode : ∀ x ∈ o.deposits, x.deleter = .node) (leaving : o.Leaving m place q)
    (mine : ∀ c, own = some c → me.place? c = some place) :
    Leads o (Operation.step (m, me) (.hazardPop o.stack place own q)) := by
  have leads := leaving.step home hnode
  simp only [Leads, Operation.step]
  rcases ho : q.step m o.stack place with ⟨m', q' | r | f, notes⟩ <;> simp only [Outset.Leads, ho] at leads <;>
    simp only [Outcome.within, Next.within]
  · exact .pop leads mine
  · have left (v : α) (hv : Answer.ofPop r = .popped (some v)) :
        o.Done m' v ∧ m'.tables.Silent place := by
      obtain e | _ | w := r
      · cases hv
      · cases hv
      · obtain ⟨value, tidied, silent⟩ := leads
        cases hv
        exact ⟨⟨value, tidied⟩, silent⟩
    cases own with
    | none => exact fun v hv => (left v hv).1
    | some c =>
      refine .letGo fun v hv => ⟨(left v hv).1, fun place' hp => ?_⟩
      obtain rfl : place = place' := Option.some.inj ((mine c rfl).symm.trans hp)
      exact (left v hv).2

theorem leads_letGo {c : Nat} {answer : Answer α} (left : ∀ v, answer = .popped (some v) →
    o.Done m v ∧ ∀ place, me.place? c = some place → m.tables.Silent place) :
    Leads o (Operation.letGo m me c answer) := by
  simp only [Leads, Operation.letGo]
  rcases me.letGo c with ⟨me', last⟩
  cases hp : me.place? c with
  | none => exact fun v hv => (left v hv).1
  | some place =>
    cases last with
    | false => exact fun v hv => (left v hv).1
    | true => exact .release fun v hv => ⟨(left v hv).1, (left v hv).2 place hp⟩

theorem leads_release {place : Place} {q : Release.Point} {answer : Answer α}
    (left : ∀ v, answer = .popped (some v) → o.Done m v ∧ m.tables.Silent place) :
    Leads o (Operation.step (m, me) (.release place q answer)) := by
  cases q with
  | clear =>
    refine .release fun v hv => ?_
    obtain ⟨⟨value, zs, tidied⟩, silent⟩ := left v hv
    exact ⟨⟨value, zs, tidied.congr fun k => silent.published_publish _⟩, m.tables.silent_publish place⟩
  | disown =>
    intro v hv
    obtain ⟨⟨value, zs, tidied⟩, -⟩ := left v hv
    exact ⟨value, zs, tidied.congr fun k => m.tables.published_setOwner place 0 _⟩

theorem step (k : o.Residue m me p) (home : o.Home m) (hnode : ∀ x ∈ o.deposits, x.deleter = .node) :
    Leads o (Operation.step (m, me) p) := by
  cases k with
  | acquire fresh q => exact leads_acquire fresh q
  | popWith fresh c =>
    simp only [Leads, Operation.step]
    cases me.place? c with
    | none => rintro v ⟨⟩
    | some place =>
      by_cases ht : place.table = (m.hazard o.stack).table
      · simp only [if_pos ht]
        exact .pop (.protect fresh .load) (by simp)
      · simp only [if_neg ht]
        rintro v ⟨⟩
  | pop leaving mine => exact leads_pop home hnode leaving mine
  | letGo left => exact leads_letGo left
  | release left => exact leads_release left

theorem miss {q : Point α} (k : o.Residue m me p) (home : o.Home m) (hm : p.miss? m = some (m', q)) :
    o.Residue m' me q := by
  cases k with
  | acquire | popWith | letGo | release => cases hm
  | pop leaving mine =>
    cases leaving with
    | protect | withdraw | readNext | detach | take | clear | scan | release | park | check
    | detachList => cases hm
    | @insert linked silent v hv seen e next live unused r =>
      cases r with
      | load => cases hm
      | link h =>
        obtain ⟨rfl, rfl⟩ := Prod.mk.inj (Option.some.inj hm)
        rw [home.list]
        have live' : (m.parking o.list).entries.get? e = some ⟨o.top, .node, next⟩ := live
        have here : ((m.parking o.list).entries.update e fun y => { y with next := h }).get? e =
            some ⟨o.top, .node, h⟩ := by
          simp [Heap.get?_update, live']
        refine .pop (.insert ?_ (by exact silent) hv (by exact seen) (by exact here) unused _) mine
        rw [Memory.missInsert, home.list_setParking]
        exact linked.congr fun x hx => (Heap.get?_update ..).trans
          (if_neg fun he => unused (List.mem_map.mpr ⟨x, hx, he⟩))
    | @reclaim ys calls retired nodup silent detached r course called v hv =>
      obtain _ | _ | _ | _ | _ | ⟨c, _ | seen, deferred, reclaimed⟩ := r <;> cases hm
      rw [home.list]
      refine .pop (.reclaim (m := (m.missInsert o.list c seen).1) (retired.congr rfl fun _ => id) nodup silent ?_
        (course.miss nodup _) called hv) mine
      rw [Memory.missInsert, home.list_setParking]
      exact detached

end Residue

end Outset

end Hazard

end LockFreeStack
