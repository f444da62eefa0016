import MegaSdk.Cache.StateCache
import MegaSdk.Lib.Runs
import Mathlib.Data.List.Nodup

/-!
# Invariants of a batch

Between two calls of `notifypurge` the table is not touched; the nodes that a batch
changed are exactly the notified ones, and every other node still agrees with its
record, unless a key made it refuse. `Settled` states have no batch under way.
-/

namespace MegaSdk.Cache

open Node

namespace KeyRing
variable (ring : KeyRing)

/-- Attributes are all that `setattr` changes. -/
theorem setattr_frame (n : Node) :
    ring.setattr n = { n with info := (ring.setattr n).info } := by
  unfold setattr
  split
  · rfl
  · split <;> rfl

/-- `applykey` leaves a node alone or replaces its pending key by a full-length one. -/
theorem applykey_cases (nodes : Handle → Option Node) (h : Handle) (n : Node) :
    ring.applykey nodes h n = n ∨
      (n.keystring ≠ [] ∧ ∃ key info, key.length = (if n.type = fileNode then 32 else 16) ∧
        ring.applykey nodes h n = { n with keystring := [], nodekey := key, info := info }) := by
  unfold applykey
  split
  · exact .inl rfl
  · rename_i pending
    split
    · exact .inl rfl
    · rename_i key _
      refine .inr ⟨pending, key.toList.take (if n.type = fileNode then 32 else 16), _, ?_,
        ring.setattr_frame _⟩
      split <;> simp

end KeyRing

/-- What a batch may do to an existing node besides its flags. -/
structure Rewrites (n m : Node) : Prop where
  dbid : m.dbid = n.dbid
  type : m.type = n.type
  keys : (m.keystring = n.keystring ∧ m.nodekey = n.nodekey) ∨ m.keystring = []

namespace Rewrites

theorem refl (n : Node) : Rewrites n n := ⟨rfl, rfl, .inl ⟨rfl, rfl⟩⟩

theorem trans {n m k : Node} (first : Rewrites n m) (second : Rewrites m k) : Rewrites n k where
  dbid := second.dbid.trans first.dbid
  type := second.type.trans first.type
  keys := by
    rcases second.keys with ⟨string, key⟩ | cleared
    · rcases first.keys with ⟨string', key'⟩ | cleared'
      · exact .inl ⟨string.trans string', key.trans key'⟩
      · exact .inr (string.trans cleared')
    · exact .inr cleared

end Rewrites

theorem KeyRing.applykey_rewrites (ring : KeyRing) (nodes : Handle → Option Node) (h : Handle)
    (n : Node) : Rewrites n (ring.applykey nodes h n) := by
  rcases ring.applykey_cases nodes h n with same | ⟨_, key, info, _, applied⟩
  · rw [same]
    exact .refl n
  · rw [applied]
    exact ⟨rfl, rfl, .inr rfl⟩

theorem KeyRing.setattr_rewrites (ring : KeyRing) (n : Node) : Rewrites n (ring.setattr n) := by
  rw [ring.setattr_frame n]
  exact ⟨rfl, rfl, .inl ⟨rfl, rfl⟩⟩

/-- The ids in use: disjoint ranges for users and nodes, one node for each node record. -/
structure Ledger (c : Client) : Prop where
  aligned : c.table.nextid % 16 = 0
  bounded : ∀ id, c.table.records id ≠ none → id < c.table.nextid + 16
  scsn : ((c.table.records cachedScsn).getD []).length = 8
  users : ∀ u, (c.users u).dbid ≠ 0 →
    (c.users u).dbid % 16 = cachedUser ∧ (c.users u).dbid < c.table.nextid + 16
  ids : ∀ h n, c.nodes h = some n → n.dbid ≠ 0 →
    n.dbid % 16 = cachedNode ∧ n.dbid < c.table.nextid + 16
  distinct : ∀ h k n m, c.nodes h = some n → c.nodes k = some m → n.dbid ≠ 0 →
    n.dbid = m.dbid → h = k
  owned : ∀ id, id % 16 = cachedNode → c.table.records id ≠ none →
    ∃ h n, c.nodes h = some n ∧ n.dbid = id

/-- A node after a write to one place is the written one or an old one. -/
theorem update_cases {nodes : Handle → Option Node} {h k : Handle} {m x : Node}
    (at_k : Function.update nodes h (some m) k = some x) :
    k = h ∧ x = m ∨ k ≠ h ∧ nodes k = some x := by
  by_cases ne : k = h
  · subst ne
    rw [Function.update_self, Option.some.injEq] at at_k
    exact .inl ⟨rfl, at_k.symm⟩
  · rw [Function.update_of_ne ne] at at_k
    exact .inr ⟨ne, at_k⟩

namespace Ledger
variable {c : Client} (ledger : Ledger c) {h : Handle} {m : Node} (list : List Handle)
include ledger

/-- A node may be rewritten under its id. -/
theorem replace {n : Node} (at_h : c.nodes h = some n) (dbid : m.dbid = n.dbid) :
    Ledger { c with nodes := Function.update c.nodes h (some m), nodenotify := list } := by
  have source : ∀ k x, Function.update c.nodes h (some m) k = some x →
      ∃ y, c.nodes k = some y ∧ x.dbid = y.dbid := by
    intro k x at_k
    rcases update_cases at_k with ⟨rfl, rfl⟩ | ⟨_, at_k'⟩
    · exact ⟨n, at_h, dbid⟩
    · exact ⟨x, at_k', rfl⟩
  refine ⟨ledger.aligned, ledger.bounded, ledger.scsn, ledger.users, ?ids, ?distinct, ?owned⟩
  case ids =>
    intro k x at_k recorded
    obtain ⟨y, at_k', hx⟩ := source k x at_k
    rw [hx] at recorded ⊢
    exact ledger.ids k y at_k' recorded
  case distinct =>
    intro k l x y at_k at_l recorded same
    obtain ⟨x', at_k', hx⟩ := source k x at_k
    obtain ⟨y', at_l', hy⟩ := source l y at_l
    exact ledger.distinct k l x' y' at_k' at_l' (hx ▸ recorded) (by rw [← hx, ← hy, same])
  case owned =>
    intro id kind present
    obtain ⟨k, x, at_k, at_id⟩ := ledger.owned id kind present
    by_cases ne : k = h
    · subst ne
      rw [at_h, Option.some.injEq] at at_k
      subst at_k
      exact ⟨k, m, Function.update_self .., dbid.trans at_id⟩
    · exact ⟨k, x, (Function.update_of_ne ne ..).trans at_k, at_id⟩

/-- A new node has no id yet. -/
theorem insert (absent : c.nodes h = none) (fresh : m.dbid = 0) :
    Ledger { c with nodes := Function.update c.nodes h (some m), nodenotify := list } := by
  refine ⟨ledger.aligned, ledger.bounded, ledger.scsn, ledger.users, ?ids, ?distinct, ?owned⟩
  case ids =>
    intro k x at_k recorded
    rcases update_cases at_k with ⟨rfl, rfl⟩ | ⟨_, at_k'⟩
    · exact absurd fresh recorded
    · exact ledger.ids k x at_k' recorded
  case distinct =>
    intro k l x y at_k at_l recorded same
    rcases update_cases at_k with ⟨rfl, rfl⟩ | ⟨_, at_k'⟩
    · exact absurd fresh recorded
    rcases update_cases at_l with ⟨rfl, rfl⟩ | ⟨_, at_l'⟩
    · exact absurd (same.trans fresh) recorded
    · exact ledger.distinct k l x y at_k' at_l' recorded same
  case owned =>
    intro id kind present
    obtain ⟨k, x, at_k, at_id⟩ := ledger.owned id kind present
    have ne : k ≠ h := by
      rintro rfl
      rw [absent] at at_k
      cases at_k
    exact ⟨k, x, (Function.update_of_ne ne ..).trans at_k, at_id⟩

end Ledger

/-- The key facts that hold of a node at all times: a pending key string means that no key
has been set, and a recorded file or folder has its key. -/
structure KeyState (n : Node) : Prop where
  unset : n.keystring ≠ [] → n.nodekey = []
  settled : n.dbid ≠ 0 → keyLength n.type = 0 ∨ n.keystring = []

theorem KeyState.rewrites {n m : Node} (state : KeyState n) (kept : Rewrites n m) :
    KeyState m where
  unset := by
    intro pending
    rcases kept.keys with ⟨string, key⟩ | cleared
    · exact key.trans (state.unset (string ▸ pending))
    · exact absurd cleared pending
  settled := by
    intro recorded
    rcases kept.keys with ⟨string, _⟩ | cleared
    · rw [kept.type, string]
      exact state.settled (kept.dbid ▸ recorded)
    · exact .inr cleared

/-- A late key never makes a recorded node serialize to something new. -/
theorem KeyState.applykey_recorded {n : Node} (state : KeyState n) (recorded : n.dbid ≠ 0)
    (ring : KeyRing) (nodes : Handle → Option Node) (h : Handle) :
    ring.applykey nodes h n = n ∨ (ring.applykey nodes h n).Refused := by
  rcases ring.applykey_cases nodes h n with same | ⟨pending, key, info, length, applied⟩
  · exact .inl same
  · right
    rw [applied]
    have special : keyLength n.type = 0 := (state.settled recorded).resolve_right pending
    refine .inr ?_
    change key.length ≠ keyLength n.type
    rw [special, length]
    split <;> decide

structure Untouched (t : DbTable) (h : Handle) (n : Node) : Prop where
  live : n.removed = false
  recorded : n.dbid ≠ 0
  agrees : n.Refused ∨ t.records n.dbid = n.serialize h

structure Batch (c : Client) : Prop where
  ledger : Ledger c
  nodup : c.nodenotify.Nodup
  listed : ∀ h, h ∈ c.nodenotify ↔ ∃ n, c.nodes h = some n ∧ n.notified = true
  untouched : ∀ h n, c.nodes h = some n → n.notified = false → Untouched c.table h n
  keys : ∀ h n, c.nodes h = some n → KeyState n

/-- The node records are exactly the serializations of the nodes. -/
structure Coherent (c : Client) : Prop where
  live : ∀ h n, c.nodes h = some n → ∃ data, n.serialize h = some data
  exact : ∀ id data, (id % 16 = cachedNode ∧ c.table.records id = some data) ↔
    ∃ h n, c.nodes h = some n ∧ n.dbid = id ∧ n.serialize h = some data

/-- A coherent state between batches, as `fetchsc`, `initsc` and `notifypurge` leave it. -/
structure Settled (c : Client) : Prop where
  coherent : Coherent c
  aligned : c.table.nextid % 16 = 0
  bounded : ∀ id, c.table.records id ≠ none → id < c.table.nextid + 16
  scsn : ((c.table.records cachedScsn).getD []).length = 8
  users : ∀ u, (c.users u).dbid ≠ 0 →
    (c.users u).dbid % 16 = cachedUser ∧ (c.users u).dbid < c.table.nextid + 16
  quiet : c.nodenotify = []
  calm : ∀ h n, c.nodes h = some n → n.notified = false ∧ n.removed = false
  unset : ∀ h n, c.nodes h = some n → n.keystring ≠ [] → n.nodekey = []

namespace Settled
variable {c : Client} (settled : Settled c)
include settled

/-- Every node is recorded under its id. -/
theorem recorded {h : Handle} {n : Node} (at_h : c.nodes h = some n) :
    n.dbid % 16 = cachedNode ∧ ∃ data, n.serialize h = some data ∧
      c.table.records n.dbid = some data := by
  obtain ⟨data, serial⟩ := settled.coherent.live h n at_h
  obtain ⟨kind, stored⟩ := (settled.coherent.exact n.dbid data).mpr ⟨h, n, at_h, rfl, serial⟩
  exact ⟨kind, data, serial, stored⟩

theorem ledger : Ledger c where
  aligned := settled.aligned
  bounded := settled.bounded
  scsn := settled.scsn
  users := settled.users
  ids := by
    intro h n at_h _
    obtain ⟨kind, data, _, stored⟩ := settled.recorded at_h
    exact ⟨kind, settled.bounded _ (by rw [stored]; exact Option.some_ne_none data)⟩
  distinct := by
    intro h k n m at_h at_k _ same
    obtain ⟨_, data, serial, stored⟩ := settled.recorded at_h
    obtain ⟨_, data', serial', stored'⟩ := settled.recorded at_k
    rw [← same, stored, Option.some.injEq] at stored'
    subst stored'
    exact (serialize_inj serial serial').1
  owned := by
    intro id kind present
    obtain ⟨data, stored⟩ := Option.ne_none_iff_exists'.mp present
    obtain ⟨h, n, at_h, at_id, _⟩ := (settled.coherent.exact id data).mp ⟨kind, stored⟩
    exact ⟨h, n, at_h, at_id⟩

theorem batch : Batch c where
  ledger := settled.ledger
  nodup := by
    rw [settled.quiet]
    exact List.nodup_nil
  listed := by
    intro h
    rw [settled.quiet]
    refine ⟨fun mem => absurd mem List.not_mem_nil, ?_⟩
    rintro ⟨n, at_h, notified⟩
    rw [(settled.calm h n at_h).1] at notified
    cases notified
  untouched := by
    intro h n at_h _
    obtain ⟨kind, data, serial, stored⟩ := settled.recorded at_h
    refine ⟨(settled.calm h n at_h).2, ?_, .inr (stored.trans serial.symm)⟩
    rintro zero
    rw [zero] at kind
    cases kind
  keys := by
    intro h n at_h
    refine ⟨settled.unset h n at_h, fun _ => ?_⟩
    by_contra open_key
    rw [not_or] at open_key
    obtain ⟨_, data, serial, _⟩ := settled.recorded at_h
    have accepted : ¬n.Refused := by
      intro refused
      rw [serialize_eq_none_iff.mpr refused] at serial
      cases serial
    have length : n.nodekey.length = keyLength n.type := by
      by_contra wrong
      exact accepted (.inr wrong)
    rw [settled.unset h n at_h open_key.2] at length
    exact open_key.1 length.symm

end Settled

namespace Batch
variable {c : Client}

/-- A handle that joins the list of the notified ones. -/
theorem nodup_joined (batch : Batch c) {h : Handle} (fresh : h ∉ c.nodenotify) :
    (c.nodenotify ++ [h]).Nodup := by
  rw [← List.concat_eq_append]
  exact List.Nodup.concat fresh batch.nodup

/-- A notified node may be rewritten; `list` has it appended if it was not yet there. -/
theorem replace (batch : Batch c) {h : Handle} {n m : Node} {list : List Handle}
    (at_h : c.nodes h = some n) (kept : Rewrites n m) (notified : m.notified = true)
    (list_eq : list = if n.notified then c.nodenotify else c.nodenotify ++ [h]) :
    Batch { c with nodes := Function.update c.nodes h (some m), nodenotify := list } := by
  have already : h ∈ c.nodenotify ↔ n.notified = true := by
    rw [batch.listed h]
    constructor
    · rintro ⟨x, at_h', flag⟩
      rw [at_h, Option.some.injEq] at at_h'
      exact at_h' ▸ flag
    · exact fun flag => ⟨n, at_h, flag⟩
  have mem : ∀ k, k ∈ list ↔ k ∈ c.nodenotify ∨ k = h := by
    intro k
    rw [list_eq]
    split
    · rename_i flag
      refine ⟨.inl, ?_⟩
      rintro (old | rfl)
      · exact old
      · exact already.mpr flag
    · simp
  refine ⟨batch.ledger.replace list at_h kept.dbid, ?nodup, ?listed, ?untouched, ?keys⟩
  case nodup =>
    change list.Nodup
    rw [list_eq]
    split
    · exact batch.nodup
    · rename_i fresh
      exact batch.nodup_joined (already.not.mpr fresh)
  case listed =>
    intro k
    change k ∈ list ↔ _
    rw [mem]
    by_cases ne : k = h
    · subst ne
      exact ⟨fun _ => ⟨m, Function.update_self .., notified⟩, fun _ => .inr rfl⟩
    · rw [batch.listed k]
      simp [ne]
  case untouched =>
    intro k x at_k flag
    rcases update_cases at_k with ⟨rfl, rfl⟩ | ⟨_, at_k'⟩
    · rw [notified] at flag
      cases flag
    · exact batch.untouched k x at_k' flag
  case keys =>
    intro k x at_k
    rcases update_cases at_k with ⟨rfl, rfl⟩ | ⟨_, at_k'⟩
    · exact (batch.keys k n at_h).rewrites kept
    · exact batch.keys k x at_k'

/-- A change followed by `notifynode`. -/
theorem touch (batch : Batch c) {h : Handle} {f : Node → Node}
    (kept : ∀ n, c.nodes h = some n → Rewrites n (f n) ∧ (f n).notified = n.notified) :
    Batch ((c.modify h f).notifynode h) := by
  cases at_h : c.nodes h with
  | none =>
    have same : (c.modify h f).notifynode h = c := by
      simp [Client.modify, Client.notifynode, at_h]
    rw [same]
    exact batch
  | some n =>
    obtain ⟨rewrites, flag⟩ := kept n at_h
    have result : (c.modify h f).notifynode h =
        { c with
          nodes := Function.update c.nodes h (some { f n with notified := true })
          nodenotify := if n.notified then c.nodenotify else c.nodenotify ++ [h] } := by
      rw [Client.modify, at_h]
      cases hn : n.notified with
      | true =>
        have same : ({ f n with notified := true } : Node) = f n := by
          rw [hn] at flag
          simp [← flag]
        simp [Client.notifynode, flag, hn, same]
      | false => simp [Client.notifynode, flag, hn]
    rw [result]
    exact batch.replace at_h ⟨rewrites.dbid, rewrites.type, rewrites.keys⟩ rfl rfl

/-- A notified node may be changed without further notice. -/
theorem modify_notified (batch : Batch c) {h : Handle} {f : Node → Node}
    (listed : h ∈ c.nodenotify)
    (kept : ∀ n, c.nodes h = some n → Rewrites n (f n) ∧ (f n).notified = n.notified) :
    Batch (c.modify h f) := by
  obtain ⟨n, at_h, notified⟩ := (batch.listed h).mp listed
  obtain ⟨rewrites, flag⟩ := kept n at_h
  rw [Client.modify, at_h]
  exact batch.replace at_h rewrites (flag.trans notified) (by rw [if_pos notified])

/-- A node that arrives is new to the table as well. -/
theorem insert (batch : Batch c) {h : Handle} {m : Node} (absent : c.nodes h = none)
    (fresh : m.dbid = 0) (notified : m.notified = true) (unset : m.nodekey = []) :
    Batch { c with
      nodes := Function.update c.nodes h (some m)
      nodenotify := c.nodenotify ++ [h] } := by
  have unlisted : h ∉ c.nodenotify := by
    intro mem
    obtain ⟨n, at_h, _⟩ := (batch.listed h).mp mem
    rw [absent] at at_h
    cases at_h
  refine ⟨batch.ledger.insert _ absent fresh, batch.nodup_joined unlisted, ?listed, ?untouched,
    ?keys⟩
  case listed =>
    intro k
    rw [List.mem_append, List.mem_singleton]
    by_cases ne : k = h
    · subst ne
      exact ⟨fun _ => ⟨m, Function.update_self .., notified⟩, fun _ => .inr rfl⟩
    · rw [batch.listed k]
      simp [ne]
  case untouched =>
    intro k x at_k flag
    rcases update_cases at_k with ⟨rfl, rfl⟩ | ⟨_, at_k'⟩
    · rw [notified] at flag
      cases flag
    · exact batch.untouched k x at_k' flag
  case keys =>
    intro k x at_k
    rcases update_cases at_k with ⟨rfl, rfl⟩ | ⟨_, at_k'⟩
    · exact ⟨fun _ => unset, fun recorded => absurd fresh recorded⟩
    · exact batch.keys k x at_k'

end Batch

namespace Client
variable {c : Client}

theorem modify_id (h : Handle) : c.modify h id = c := by
  unfold modify
  split
  · rfl
  · rename_i n at_h
    rw [id_eq, ← at_h, Function.update_eq_self]

theorem modify_modify (h : Handle) (f g : Node → Node) :
    (c.modify h f).modify h g = c.modify h (g ∘ f) := by
  cases at_h : c.nodes h with
  | none => simp [modify, at_h]
  | some n => simp [modify, at_h]

/-- Linkage changes the parent or queues the node; both are one change of the node. -/
theorem linkOrDelay_spec (dp : List (Handle × Handle)) (h : Handle) (ph : Option Handle) :
    ∃ g : Node → Node, (c.linkOrDelay dp h ph).1 = c.modify h g ∧
      (∀ n, ∃ parent, g n = { n with parent := parent }) ∧
      ∀ e ∈ (c.linkOrDelay dp h ph).2, e ∈ dp ∨ e.1 = h := by
  cases ph with
  | none => exact ⟨id, (modify_id h).symm, fun n => ⟨n.parent, rfl⟩, fun e mem => .inl mem⟩
  | some p =>
    simp only [linkOrDelay]
    split
    · exact ⟨_, rfl, fun n => ⟨some p, rfl⟩, fun e mem => .inl mem⟩
    · refine ⟨id, (modify_id h).symm, fun n => ⟨n.parent, rfl⟩, ?_⟩
      intro e mem
      rcases List.mem_append.mp mem with old | new
      · exact .inl old
      · rw [List.mem_singleton] at new
        exact .inr (by rw [new])

theorem mem_notifynode {h k : Handle} (mem : k ∈ c.nodenotify) :
    k ∈ (c.notifynode h).nodenotify := by
  unfold notifynode
  split
  · exact mem
  · split
    · exact mem
    · exact List.mem_append_left _ mem

@[simp] theorem modify_nodenotify (h : Handle) (f : Node → Node) :
    (c.modify h f).nodenotify = c.nodenotify := by
  unfold modify
  split <;> rfl

/-- After `notifynode`, an existing node is in the vector. -/
theorem notifynode_self {h : Handle} {n : Node} (at_h : c.nodes h = some n)
    (batch : Batch (c.notifynode h)) : h ∈ (c.notifynode h).nodenotify := by
  refine (batch.listed h).mpr ?_
  rw [notifynode, at_h]
  by_cases flag : n.notified
  · exact ⟨n, by simpa [flag] using at_h, flag⟩
  · exact ⟨{ n with notified := true }, by simp [flag], rfl⟩

end Client

namespace Batch
variable {c : Client}

/-- Every delayed node has been notified. -/
theorem readnode (batch : Batch c) {dp : List (Handle × Handle)}
    (delayed : ∀ e ∈ dp, e.1 ∈ c.nodenotify) (a : NodeArrival) :
    Batch (Client.readnode (c, dp) a).1 ∧
      ∀ e ∈ (Client.readnode (c, dp) a).2, e.1 ∈ (Client.readnode (c, dp) a).1.nodenotify := by
  have finish : ∀ (linked : Client × List (Handle × Handle)) (n : Node),
      Client.readnode (c, dp) a = (linked.1.notifynode a.handle, linked.2) →
      linked.1.nodes a.handle = some n → linked.1.nodenotify = c.nodenotify →
      (∀ e ∈ linked.2, e ∈ dp ∨ e.1 = a.handle) → Batch (linked.1.notifynode a.handle) →
      Batch (Client.readnode (c, dp) a).1 ∧
        ∀ e ∈ (Client.readnode (c, dp) a).2, e.1 ∈ (Client.readnode (c, dp) a).1.nodenotify := by
    intro linked n result at_h list entries kept
    rw [result]
    refine ⟨kept, fun e mem => ?_⟩
    rcases entries e mem with old | rfl_handle
    · exact Client.mem_notifynode (list ▸ delayed e old)
    · rw [rfl_handle]
      exact Client.notifynode_self at_h kept
  cases at_a : c.nodes a.handle with
  | some n =>
    by_cases removed : n.removed
    · obtain ⟨g, linked, parent, entries⟩ := Client.linkOrDelay_spec
        (c := c.modify a.handle fun n => { n with removed := false }) dp a.handle a.parenthandle
      rw [Client.modify_modify] at linked
      obtain ⟨q, hq⟩ := parent { n with removed := false }
      refine finish _ (g { n with removed := false }) ?_ ?_ ?_ entries ?_
      · simp [Client.readnode, at_a, removed]
      · rw [linked]
        simp [Client.modify, at_a]
      · rw [linked, Client.modify_nodenotify]
      · rw [linked]
        refine batch.touch fun m at_m => ?_
        rw [at_a, Option.some.injEq] at at_m
        subst at_m
        rw [Function.comp_apply, hq]
        exact ⟨⟨rfl, rfl, .inl ⟨rfl, rfl⟩⟩, rfl⟩
    · refine finish (c, dp) n (by simp [Client.readnode, at_a, removed]) at_a rfl
        (fun e mem => .inl mem) ?_
      have kept := batch.touch (h := a.handle) (f := id) fun m _ => ⟨.refl m, rfl⟩
      rwa [Client.modify_id] at kept
  | none =>
    obtain ⟨g, linked, parent, entries⟩ := Client.linkOrDelay_spec
      (c := { c with nodes := Function.update c.nodes a.handle (some (Client.newNode a)) })
      dp a.handle a.parenthandle
    obtain ⟨q, hq⟩ := parent (Client.newNode a)
    refine finish _ (g (Client.newNode a)) ?_ ?_ ?_ entries ?_
    · simp [Client.readnode, at_a]
    · rw [linked]
      simp [Client.modify]
    · rw [linked, Client.modify_nodenotify]
    · rw [linked]
      have kept := batch.insert (m := { Client.newNode a with parent := q, notified := true })
        at_a rfl rfl rfl
      have quiet : (Client.newNode a).notified = false := rfl
      simpa [Client.modify, Client.notifynode, hq, quiet] using kept

theorem readnodes (batch : Batch c) (arrivals : List NodeArrival) :
    Batch (c.readnodes arrivals) := by
  have arrive : ∀ (list : List NodeArrival) (state : Client × List (Handle × Handle)),
      Batch state.1 → (∀ e ∈ state.2, e.1 ∈ state.1.nodenotify) →
      Batch (list.foldl Client.readnode state).1 ∧
        ∀ e ∈ (list.foldl Client.readnode state).2,
          e.1 ∈ (list.foldl Client.readnode state).1.nodenotify := by
    intro list
    induction list with
    | nil => exact fun state kept delayed => ⟨kept, delayed⟩
    | cons a rest ih =>
      intro state kept delayed
      obtain ⟨kept', delayed'⟩ := kept.readnode delayed a
      exact ih _ kept' delayed'
  have link : ∀ (list : List (Handle × Handle)) (c : Client), Batch c →
      (∀ e ∈ list, e.1 ∈ c.nodenotify) → Batch (list.foldl Client.relink c) := by
    intro list
    induction list with
    | nil => exact fun c kept _ => kept
    | cons e rest ih =>
      intro c kept delayed
      rw [List.foldl_cons]
      have relinked : Batch (c.relink e) ∧ (c.relink e).nodenotify = c.nodenotify := by
        rw [Client.relink]
        split
        · refine ⟨kept.modify_notified (delayed e List.mem_cons_self) fun n _ => ?_,
            Client.modify_nodenotify ..⟩
          exact ⟨⟨rfl, rfl, .inl ⟨rfl, rfl⟩⟩, rfl⟩
        · exact ⟨kept, rfl⟩
      refine ih _ relinked.1 fun x mem => ?_
      rw [relinked.2]
      exact delayed x (List.mem_cons_of_mem e mem)
  obtain ⟨kept, delayed⟩ := arrive arrivals (c, []) batch fun e mem => by cases mem
  exact link _ _ kept fun e mem => delayed e (List.mem_reverse.mp mem)

variable (ring : KeyRing)

omit c in
theorem applykey_flags (nodes : Handle → Option Node) (h : Handle) (n : Node) :
    (ring.applykey nodes h n).notified = n.notified ∧
      (ring.applykey nodes h n).removed = n.removed ∧
      (ring.applykey nodes h n).parent = n.parent := by
  rcases ring.applykey_cases nodes h n with same | ⟨_, key, info, _, applied⟩
  · rw [same]
    exact ⟨rfl, rfl, rfl⟩
  · rw [applied]
    exact ⟨rfl, rfl, rfl⟩

theorem applykeys (batch : Batch c) : Batch { c with nodes := ring.applykeys c.nodes } := by
  have source : ∀ h m, ring.applykeys c.nodes h = some m →
      ∃ n, c.nodes h = some n ∧ m = ring.applykey c.nodes h n := by
    intro h m at_h
    obtain ⟨n, at_n, applied⟩ := Option.map_eq_some_iff.mp at_h
    exact ⟨n, at_n, applied.symm⟩
  refine ⟨⟨batch.ledger.aligned, batch.ledger.bounded, batch.ledger.scsn, batch.ledger.users,
    ?ids, ?distinct, ?owned⟩, batch.nodup, ?listed, ?untouched, ?keys⟩
  case ids =>
    intro h m at_h recorded
    obtain ⟨n, at_n, rfl⟩ := source h m at_h
    rw [(ring.applykey_rewrites _ h n).dbid] at recorded ⊢
    exact batch.ledger.ids h n at_n recorded
  case distinct =>
    intro h k m l at_h at_k recorded same
    obtain ⟨n, at_n, rfl⟩ := source h m at_h
    obtain ⟨o, at_o, rfl⟩ := source k l at_k
    rw [(ring.applykey_rewrites _ h n).dbid] at recorded same
    rw [(ring.applykey_rewrites _ k o).dbid] at same
    exact batch.ledger.distinct h k n o at_n at_o recorded same
  case owned =>
    intro id kind present
    obtain ⟨h, n, at_h, at_id⟩ := batch.ledger.owned id kind present
    exact ⟨h, _, Option.map_eq_some_iff.mpr ⟨n, at_h, rfl⟩,
      (ring.applykey_rewrites _ h n).dbid.trans at_id⟩
  case listed =>
    intro h
    rw [batch.listed h]
    constructor
    · rintro ⟨n, at_h, flag⟩
      exact ⟨_, Option.map_eq_some_iff.mpr ⟨n, at_h, rfl⟩,
        (applykey_flags ring c.nodes h n).1.trans flag⟩
    · rintro ⟨m, at_h, flag⟩
      obtain ⟨n, at_n, rfl⟩ := source h m at_h
      exact ⟨n, at_n, (applykey_flags ring c.nodes h n).1.symm.trans flag⟩
  case untouched =>
    intro h m at_h flag
    obtain ⟨n, at_n, rfl⟩ := source h m at_h
    have flags := applykey_flags ring c.nodes h n
    have before := batch.untouched h n at_n (flags.1.symm.trans flag)
    have dbid := (ring.applykey_rewrites c.nodes h n).dbid
    refine ⟨flags.2.1.trans before.live, dbid ▸ before.recorded, ?_⟩
    rcases (batch.keys h n at_n).applykey_recorded before.recorded ring c.nodes h
      with same | refused
    · rw [same]
      exact before.agrees
    · exact .inl refused
  case keys =>
    intro h m at_h
    obtain ⟨n, at_n, rfl⟩ := source h m at_h
    exact (batch.keys h n at_n).rewrites (ring.applykey_rewrites _ h n)

theorem move (batch : Batch c) (h p : Handle) : Batch (c.move h p) := by
  unfold Client.move
  split
  · split
    · exact batch
    · exact batch.touch fun n _ => ⟨⟨rfl, rfl, .inl ⟨rfl, rfl⟩⟩, rfl⟩
  · exact batch

theorem delete (batch : Batch c) (visited : List Handle) :
    Batch (visited.foldl Client.procDel c) := by
  induction visited generalizing c with
  | nil => exact batch
  | cons h rest ih => exact ih (batch.touch fun n _ => ⟨⟨rfl, rfl, .inl ⟨rfl, rfl⟩⟩, rfl⟩)

/-- Every operation keeps the invariant. -/
theorem step (batch : Batch c) (op : Client.Op) : Batch (c.step ring op) := by
  cases op with
  | readnodes arrivals => exact batch.readnodes arrivals
  | update h info => exact batch.touch fun n _ => ⟨⟨rfl, rfl, .inl ⟨rfl, rfl⟩⟩, rfl⟩
  | updatenode h info =>
    refine batch.touch fun n _ => ⟨?_, ?_⟩
    · have informed : Rewrites n { n with info := info } := ⟨rfl, rfl, .inl ⟨rfl, rfl⟩⟩
      exact (informed.trans (ring.applykey_rewrites c.nodes h _)).trans (ring.setattr_rewrites _)
    · rw [ring.setattr_frame]
      exact (applykey_flags ring c.nodes h { n with info := info }).1
  | move h p => exact batch.move h p
  | delete visited => exact batch.delete visited
  | applykeys => exact batch.applykeys ring
  | notifyuser u =>
    exact ⟨⟨batch.ledger.aligned, batch.ledger.bounded, batch.ledger.scsn, batch.ledger.users,
      batch.ledger.ids, batch.ledger.distinct, batch.ledger.owned⟩, batch.nodup, batch.listed,
      batch.untouched, batch.keys⟩
  | setscsn scsn =>
    exact ⟨⟨batch.ledger.aligned, batch.ledger.bounded, batch.ledger.scsn, batch.ledger.users,
      batch.ledger.ids, batch.ledger.distinct, batch.ledger.owned⟩, batch.nodup, batch.listed,
      batch.untouched, batch.keys⟩

/-- Every list of operations keeps the invariant. -/
theorem run (batch : Batch c) (ops : List Client.Op) :
    Batch (Runs.run (Client.step ring) c ops) := by
  induction ops generalizing c with
  | nil => exact batch
  | cons op rest ih => exact ih (batch.step ring op)

end Batch

end MegaSdk.Cache
