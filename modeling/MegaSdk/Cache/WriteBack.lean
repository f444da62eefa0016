import MegaSdk.Cache.Batch

/-!
# What `updatesc` writes

The write loops handle the notified nodes one by one: delete, put, or a put that the
node refuses. `Written` follows the loops, and every other record stays in place.
-/

namespace MegaSdk.Cache

open Node

namespace Ledger
variable {c : Client} (ledger : Ledger c)
include ledger

theorem store {id : Nat} (data : Bytes) (below : id < c.table.nextid + 16)
    (scsn : id = cachedScsn → data.length = 8)
    (owned : id % 16 = cachedNode → ∃ h n, c.nodes h = some n ∧ n.dbid = id) :
    Ledger { c with table := c.table.store id data } where
  aligned := ledger.aligned
  bounded := by
    intro k present
    by_cases same : k = id
    · exact same ▸ below
    · exact ledger.bounded k (by simpa [DbTable.store, same] using present)
  scsn := by
    by_cases same : cachedScsn = id
    · subst same
      simpa [DbTable.store] using scsn rfl
    · simpa [DbTable.store, same] using ledger.scsn
  users := ledger.users
  ids := ledger.ids
  distinct := ledger.distinct
  owned := by
    intro k kind present
    by_cases same : k = id
    · exact same ▸ owned (same ▸ kind)
    · exact ledger.owned k kind (by simpa [DbTable.store, same] using present)

theorem del {id : Nat} (kept : id ≠ cachedScsn) :
    Ledger { c with table := c.table.del id } where
  aligned := ledger.aligned
  bounded := by
    intro k present
    by_cases same : k = id
    · simp [DbTable.del, same] at present
    · exact ledger.bounded k (by simpa [DbTable.del, same] using present)
  scsn := by simpa [DbTable.del, kept.symm] using ledger.scsn
  users := ledger.users
  ids := ledger.ids
  distinct := ledger.distinct
  owned := by
    intro k kind present
    by_cases same : k = id
    · simp [DbTable.del, same] at present
    · exact ledger.owned k kind (by simpa [DbTable.del, same] using present)

/-- Handing out the next id. -/
theorem advance : Ledger { c with table := { c.table with nextid := c.table.nextid + 16 } } where
  aligned := by
    have := ledger.aligned
    change (c.table.nextid + 16) % 16 = 0
    omega
  bounded := fun id present => Nat.lt_add_right 16 (ledger.bounded id present)
  scsn := ledger.scsn
  users := fun u recorded =>
    ⟨(ledger.users u recorded).1, Nat.lt_add_right 16 (ledger.users u recorded).2⟩
  ids := fun h n at_h recorded =>
    ⟨(ledger.ids h n at_h recorded).1, Nat.lt_add_right 16 (ledger.ids h n at_h recorded).2⟩
  distinct := ledger.distinct
  owned := ledger.owned

/-- An unrecorded node receives an id that no node has. -/
theorem assign {h : Handle} {n : Node} {id : Nat} (at_h : c.nodes h = some n)
    (unrecorded : n.dbid = 0) (kind : id % 16 = cachedNode) (below : id < c.table.nextid + 16)
    (unused : ∀ k m, c.nodes k = some m → m.dbid ≠ id) :
    Ledger { c with nodes := Function.update c.nodes h (some { n with dbid := id }) } := by
  have source : ∀ k m, Function.update c.nodes h (some { n with dbid := id }) k = some m →
      (k = h ∧ m.dbid = id) ∨ c.nodes k = some m := by
    intro k m at_k
    rcases update_cases at_k with ⟨same, rfl⟩ | ⟨_, old⟩
    · exact .inl ⟨same, rfl⟩
    · exact .inr old
  refine ⟨ledger.aligned, ledger.bounded, ledger.scsn, ledger.users, ?ids, ?distinct, ?owned⟩
  case ids =>
    intro k m at_k recorded
    rcases source k m at_k with ⟨_, new⟩ | old
    · rw [new]
      exact ⟨kind, below⟩
    · exact ledger.ids k m old recorded
  case distinct =>
    intro k l m o at_k at_l recorded same
    rcases source k m at_k with ⟨rfl, new⟩ | old
    · rcases source l o at_l with ⟨rfl, _⟩ | old'
      · rfl
      · exact absurd (same.symm.trans new) (unused l o old')
    · rcases source l o at_l with ⟨rfl, new'⟩ | old'
      · exact absurd (same.trans new') (unused k m old)
      · exact ledger.distinct k l m o old old' recorded same
  case owned =>
    intro k kind' present
    obtain ⟨l, m, at_l, at_k⟩ := ledger.owned k kind' present
    have ne : l ≠ h := by
      rintro rfl
      rw [at_h, Option.some.injEq] at at_l
      rw [← at_k, ← at_l, unrecorded] at kind'
      cases kind'
    exact ⟨l, m, (Function.update_of_ne ne ..).trans at_l, at_k⟩

/-- The record of a node belongs to it alone. -/
theorem apart {h : Handle} {n : Node} (at_h : c.nodes h = some n) (recorded : n.dbid ≠ 0) :
    ∀ k m, k ≠ h → c.nodes k = some m → m.dbid ≠ n.dbid :=
  fun k m ne at_k same => ne (ledger.distinct h k n m at_h at_k recorded same.symm).symm

end Ledger

/-- What the write loops have done for node `h`, which now has the id `id`. -/
inductive Outcome (s c : Client) (h : Handle) (n : Node) (done : Prop) : Nat → Prop
  | waiting (open_ : ¬done)
      (kept : n.dbid ≠ 0 → c.table.records n.dbid = s.table.records n.dbid) :
      Outcome s c h n done n.dbid
  | deleted (handled : done) (removed : n.removed = true) (recorded : n.dbid ≠ 0)
      (gone : c.table.records n.dbid = none) : Outcome s c h n done n.dbid
  | refused (handled : done) (refuses : n.Refused) (put : ¬(n.removed = true ∧ n.dbid ≠ 0)) :
      Outcome s c h n done n.dbid
  | stored {id : Nat} {data : Bytes} (handled : done) (serial : n.serialize h = some data)
      (put : ¬(n.removed = true ∧ n.dbid ≠ 0)) (recorded : id ≠ 0)
      (present : c.table.records id = some data) : Outcome s c h n done id

/-- An outcome only depends on the record at the node's id. -/
theorem Outcome.frame {s c c' : Client} {h : Handle} {n : Node} {done done' : Prop} {id : Nat}
    (outcome : Outcome s c h n done id) (same : done' ↔ done)
    (records : id ≠ 0 → c'.table.records id = c.table.records id) :
    Outcome s c' h n done' id := by
  cases outcome with
  | waiting open_ kept =>
    exact .waiting (same.not.mpr open_) fun recorded => (records recorded).trans (kept recorded)
  | deleted handled removed recorded gone =>
    exact .deleted (same.mpr handled) removed recorded ((records recorded).trans gone)
  | refused handled refuses put => exact .refused (same.mpr handled) refuses put
  | stored handled serial put recorded present =>
    exact .stored (same.mpr handled) serial put recorded ((records recorded).trans present)

/-- Progress of the write loops from `s` to `c`. -/
structure Written (s c : Client) (done : Handle → Prop) : Prop where
  ledger : Ledger c
  list : c.nodenotify = s.nodenotify
  absent : ∀ h, s.nodes h = none → c.nodes h = none
  present : ∀ h n, s.nodes h = some n → ∃ id, c.nodes h = some { n with dbid := id } ∧
    Outcome s c h n (done h) id

namespace Written
variable {s c : Client} {done : Handle → Prop}

theorem start (batch : Batch s) : Written s s fun _ => False where
  ledger := batch.ledger
  list := rfl
  absent := fun _ none => none
  present := fun _ n at_h => ⟨n.dbid, at_h, .waiting not_false fun _ => rfl⟩

/-- Steps that leave the nodes and their records alone. -/
theorem frame (written : Written s c done) {c' : Client} (ledger : Ledger c')
    (nodes : c'.nodes = c.nodes) (list : c'.nodenotify = c.nodenotify)
    (records : ∀ id, id % 16 = cachedNode → c'.table.records id = c.table.records id) :
    Written s c' done where
  ledger := ledger
  list := list.trans written.list
  absent := fun h none => (congrFun nodes h).trans (written.absent h none)
  present := by
    intro h n at_h
    obtain ⟨id, at_id, outcome⟩ := written.present h n at_h
    refine ⟨id, (congrFun nodes h).trans at_id, outcome.frame Iff.rfl fun recorded => ?_⟩
    exact records id (written.ledger.ids h _ at_id recorded).1

theorem writeUser (written : Written s c done) (u : Nat)
    (room : c.table.nextid + 16 < 2 ^ 32) : Written s (c.writeUser u) done := by
  have next : c.table.next = c.table.nextid + 16 := Nat.mod_eq_of_lt room
  by_cases new : (c.users u).dbid = 0
  · have id_eq := or_type cachedUser written.ledger.advance.aligned (by decide)
    simp only at id_eq
    have kind : (c.table.nextid + 16 + cachedUser) % 16 = cachedUser := by
      have := written.ledger.aligned
      simp only [cachedUser]
      omega
    have result : c.writeUser u =
        { c with
          table := { c.table with nextid := c.table.nextid + 16 }.store
            (c.table.nextid + 16 + cachedUser) (c.users u).record
          users := Function.update c.users u
            { c.users u with dbid := c.table.nextid + 16 + cachedUser } } := by
      simp [Client.writeUser, DbTable.put, new, next, id_eq]
    rw [result]
    have below : c.table.nextid + 16 + cachedUser < c.table.nextid + 16 + 16 := by
      simp [cachedUser]
    have stored := written.ledger.advance.store (c.users u).record below
      (fun scsn => by simp [cachedScsn] at scsn)
      (fun node => absurd (kind.symm.trans node) (by decide))
    refine written.frame ?_ rfl rfl fun id node => ?_
    · refine ⟨stored.aligned, stored.bounded, stored.scsn, fun v recorded => ?_, stored.ids,
        stored.distinct, stored.owned⟩
      by_cases same : v = u
      · subst same
        simp only [Function.update_self]
        exact ⟨kind, below⟩
      · simp only [Function.update_of_ne same] at recorded ⊢
        exact stored.users v recorded
    · refine Function.update_of_ne ?_ ..
      rintro rfl
      exact absurd (kind.symm.trans node) (by decide)
  · have result : c.writeUser u =
        { c with table := c.table.store (c.users u).dbid (c.users u).record } := by
      simp [Client.writeUser, DbTable.put, new]
    obtain ⟨kind, below⟩ := written.ledger.users u new
    rw [result]
    refine written.frame (written.ledger.store _ below (fun scsn => absurd scsn new)
      (fun node => absurd (kind.symm.trans node) (by decide))) rfl rfl fun id node => ?_
    refine Function.update_of_ne ?_ ..
    rintro rfl
    exact absurd (kind.symm.trans node) (by decide)

/-- Progress from one node to the next: `h` is handled, all others keep their records. -/
theorem advance (written : Written s c done) {c' : Client} {h : Handle} {n : Node} {id : Nat}
    (at_h : s.nodes h = some n) (ledger : Ledger c') (list : c'.nodenotify = c.nodenotify)
    (self : c'.nodes h = some { n with dbid := id }) (outcome : Outcome s c' h n True id)
    (others : ∀ k, k ≠ h → c'.nodes k = c.nodes k)
    (records : ∀ k m, k ≠ h → c.nodes k = some m → m.dbid ≠ 0 →
      c'.table.records m.dbid = c.table.records m.dbid) :
    Written s c' fun k => done k ∨ k = h where
  ledger := ledger
  list := list.trans written.list
  absent := by
    intro k absent
    have ne : k ≠ h := by
      rintro rfl
      rw [at_h] at absent
      cases absent
    exact (others k ne).trans (written.absent k absent)
  present := by
    intro k m at_k
    by_cases same : k = h
    · subst same
      rw [at_h, Option.some.injEq] at at_k
      subst at_k
      exact ⟨id, self, outcome.frame (by simp) fun _ => rfl⟩
    · obtain ⟨id', at_id, before⟩ := written.present k m at_k
      refine ⟨id', (others k same).trans at_id, before.frame (by simp [same]) fun recorded => ?_⟩
      exact records k _ same at_id recorded

/-- Before its turn a node is as the batch left it. -/
theorem unwritten (written : Written s c done) {h : Handle} {n : Node} (open_ : ¬done h)
    (at_h : s.nodes h = some n) : c.nodes h = some n := by
  obtain ⟨id, at_id, outcome⟩ := written.present h n at_h
  cases outcome with
  | waiting => exact at_id
  | deleted handled => exact absurd handled open_
  | refused handled => exact absurd handled open_
  | stored handled => exact absurd handled open_

/-- The first record of a node, under the next id. -/
theorem writeNode_first (written : Written s c done) {h : Handle} {n : Node} {data : Bytes}
    (room : c.table.nextid + 16 < 2 ^ 32) (at_h : s.nodes h = some n) (at_c : c.nodes h = some n)
    (serial : n.serialize h = some data) (new : n.dbid = 0) :
    Written s (c.writeNode h) fun k => done k ∨ k = h := by
  have aligned := written.ledger.aligned
  have next : c.table.next = c.table.nextid + 16 := Nat.mod_eq_of_lt room
  have id_eq := or_type cachedNode written.ledger.advance.aligned (by decide)
  simp only at id_eq
  have kind : (c.table.nextid + 16 + cachedNode) % 16 = cachedNode := by
    simp only [cachedNode]
    omega
  have below : c.table.nextid + 16 + cachedNode < c.table.nextid + 16 + 16 := by
    simp [cachedNode]
  have fresh : ∀ k m, c.nodes k = some m → m.dbid ≠ c.table.nextid + 16 + cachedNode := by
    intro k m at_k same
    have bound := (written.ledger.ids k m at_k (by omega)).2
    simp only [cachedNode] at same
    omega
  have result : c.writeNode h =
      { c with
        table := { c.table with nextid := c.table.nextid + 16 }.store
          (c.table.nextid + 16 + cachedNode) data
        nodes := Function.update c.nodes h
          (some { n with dbid := c.table.nextid + 16 + cachedNode }) } := by
    simp [Client.writeNode, at_c, serial, DbTable.put, new, next, id_eq]
  rw [result]
  have assigned := written.ledger.advance.assign at_c new kind below fresh
  refine written.advance at_h (assigned.store data below (fun scsn => ?_) fun _ => ?_) rfl
    (Function.update_self ..)
    (.stored trivial serial (fun delete => delete.2 new) (by omega) (Function.update_self ..))
    (fun k ne => Function.update_of_ne ne ..) ?_
  · simp [cachedScsn] at scsn
  · exact ⟨h, _, Function.update_self .., rfl⟩
  · exact fun k m ne at_k _ => Function.update_of_ne (fresh k m at_k) ..

/-- A further record of a node, over the old one. -/
theorem writeNode_again (written : Written s c done) {h : Handle} {n : Node} {data : Bytes}
    (at_h : s.nodes h = some n) (at_c : c.nodes h = some n) (live : n.removed = false)
    (serial : n.serialize h = some data) (recorded : n.dbid ≠ 0) :
    Written s (c.writeNode h) fun k => done k ∨ k = h := by
  have kept : ¬(n.removed = true ∧ n.dbid ≠ 0) := by simp [live]
  have result : c.writeNode h = { c with table := c.table.store n.dbid data } := by
    have same : Function.update c.nodes h (some n) = c.nodes := by
      rw [← at_c, Function.update_eq_self]
    have put_eq : c.table.put cachedNode n.dbid (some data) =
        (n.dbid, c.table.store n.dbid data) := if_neg recorded
    simp only [Client.writeNode, at_c, kept, serial, put_eq, same, if_false]
  rw [result]
  refine written.advance at_h (written.ledger.store data
    (written.ledger.ids h n at_c recorded).2 (fun scsn => absurd scsn recorded)
    fun _ => ⟨h, n, at_c, rfl⟩) rfl at_c
    (.stored trivial serial kept recorded (Function.update_self ..)) (fun _ _ => rfl) ?_
  exact fun k m ne at_k _ =>
    Function.update_of_ne (written.ledger.apart at_c recorded k m ne at_k) ..

theorem writeNode (written : Written s c done) {h : Handle} (open_ : ¬done h)
    (room : c.table.nextid + 16 < 2 ^ 32) :
    Written s (c.writeNode h) fun k => done k ∨ k = h := by
  cases at_h : s.nodes h with
  | none =>
    have same : c.writeNode h = c := by simp [Client.writeNode, written.absent h at_h]
    rw [same]
    refine ⟨written.ledger, written.list, written.absent, fun k m at_k => ?_⟩
    have ne : k ≠ h := by
      rintro rfl
      rw [at_h] at at_k
      cases at_k
    obtain ⟨id, at_id, outcome⟩ := written.present k m at_k
    exact ⟨id, at_id, outcome.frame (by simp [ne]) fun _ => rfl⟩
  | some n =>
    have at_c := written.unwritten open_ at_h
    by_cases delete : n.removed = true ∧ n.dbid ≠ 0
    · have result : c.writeNode h = { c with table := c.table.del n.dbid } := by
        simp [Client.writeNode, at_c, delete]
      rw [result]
      refine written.advance at_h (written.ledger.del delete.2) rfl at_c
        (.deleted trivial delete.1 delete.2 (Function.update_self ..)) (fun _ _ => rfl) ?_
      exact fun k m ne at_k _ =>
        Function.update_of_ne (written.ledger.apart at_c delete.2 k m ne at_k) ..
    · cases serial : n.serialize h with
      | none =>
        have result : c.writeNode h = c := by
          have same : Function.update c.nodes h (some n) = c.nodes := by
            rw [← at_c, Function.update_eq_self]
          simp [Client.writeNode, at_c, delete, serial, DbTable.put, same]
        rw [result]
        exact written.advance at_h written.ledger rfl at_c
          (.refused trivial (serialize_eq_none_iff.mp serial) delete) (fun _ _ => rfl)
          fun _ _ _ _ _ => rfl
      | some data =>
        by_cases new : n.dbid = 0
        · exact written.writeNode_first room at_h at_c serial new
        · have live : n.removed = false := by
            by_contra removed
            exact delete ⟨by simpa using removed, new⟩
          exact written.writeNode_again at_h at_c live serial new

end Written

namespace Client
variable {c : Client}

theorem nextid_put (t : DbTable) (type dbid : Nat) (data : Option Bytes) :
    (t.put type dbid data).2.nextid ≤ t.nextid + 16 := by
  cases data with
  | none => exact Nat.le_add_right ..
  | some data =>
    rw [DbTable.put]
    split
    · exact Nat.mod_le ..
    · exact Nat.le_add_right ..

theorem nextid_writeUser (u : Nat) : (c.writeUser u).table.nextid ≤ c.table.nextid + 16 :=
  nextid_put c.table cachedUser (c.users u).dbid (some (c.users u).record)

theorem nextid_writeNode (h : Handle) : (c.writeNode h).table.nextid ≤ c.table.nextid + 16 := by
  unfold writeNode
  split
  · exact Nat.le_add_right ..
  · split
    · exact Nat.le_add_right ..
    · exact nextid_put ..

/-- The ids that a batch may need do not exhaust the 32-bit counter. -/
def Room (c : Client) : Prop :=
  c.table.nextid + 16 * (c.usernotify.length + c.nodenotify.length) < 2 ^ 32

instance (c : Client) : Decidable c.Room := inferInstanceAs (Decidable (_ < _))

end Client

namespace Written
variable {s c : Client} {done : Handle → Prop}

theorem writeUsers (written : Written s c done) (list : List Nat) {spare : Nat}
    (room : c.table.nextid + 16 * (list.length + spare) < 2 ^ 32) :
    Written s (list.foldl Client.writeUser c) done ∧
      (list.foldl Client.writeUser c).table.nextid + 16 * spare < 2 ^ 32 := by
  induction list generalizing c with
  | nil => exact ⟨written, by simpa using room⟩
  | cons u rest ih =>
    have grown := c.nextid_writeUser u
    rw [List.length_cons] at room
    exact ih (written.writeUser u (by omega)) (by omega)

theorem writeNodes (written : Written s c done) {list : List Handle} (nodup : list.Nodup)
    (open_ : ∀ h ∈ list, ¬done h) (room : c.table.nextid + 16 * list.length < 2 ^ 32) :
    Written s (list.foldl Client.writeNode c) fun h => done h ∨ h ∈ list := by
  induction list generalizing c done with
  | nil => simpa using written
  | cons h rest ih =>
    have grown := c.nextid_writeNode h
    rw [List.length_cons] at room
    obtain ⟨fresh, nodup⟩ := List.nodup_cons.mp nodup
    have first := written.writeNode (open_ h List.mem_cons_self) (by omega)
    have all := ih first nodup (fun k mem => ?_) (by omega)
    · simpa [or_assoc] using all
    · rintro (old | rfl)
      · exact open_ k (List.mem_cons_of_mem h mem) old
      · exact fresh mem

/-- The write loops handle the notified nodes, each once. -/
theorem updatesc (batch : Batch s) (room : s.Room) :
    Written s s.updatesc fun h => h ∈ s.nodenotify := by
  have start := Written.start batch
  have begun : Written s { s with table := s.table.store cachedScsn s.scsn.toList }
      fun _ => False := by
    refine start.frame (batch.ledger.store _ (by simp [cachedScsn]) (fun _ => by simp)
      fun node => absurd node (by decide)) rfl rfl fun id node => Function.update_of_ne ?_ ..
    rintro rfl
    exact absurd node (by decide)
  obtain ⟨users, room'⟩ := begun.writeUsers s.usernotify room
  have nodes := users.writeNodes batch.nodup (fun _ _ => not_false) room'
  simp only [false_or] at nodes
  rw [Client.updatesc, if_neg (by simpa using batch.ledger.scsn)]
  simp only [users.list]
  refine nodes.frame ?_ rfl rfl fun _ _ => rfl
  exact ⟨nodes.ledger.aligned, nodes.ledger.bounded, nodes.ledger.scsn, nodes.ledger.users,
    nodes.ledger.ids, nodes.ledger.distinct, nodes.ledger.owned⟩

end Written

end MegaSdk.Cache
