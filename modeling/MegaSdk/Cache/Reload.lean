import MegaSdk.Cache.Shares
import Mathlib.Data.List.Nodup

/-!
# Loading a session from the state cache

The node records of `fetchsc`, in the order of the table: every record becomes a node, then the
nodes that came before their parents are linked, and the queued shares are applied. What was
written comes back, for a whole table of nodes and in any order of the records.
-/

namespace MegaSdk.Cache

namespace Loading

/-- The loop over the node records; a record that cannot be read ends the load. -/
def read : List (Nat × Bytes) → Loading → Option Loading
  | [], c => some c
  | (id, data) :: rest, c =>
    match c.unserialize data with
    | (c, .ok h) => read rest (c.modify h fun n => { n with dbid := id })
    | _ => none

def linkOne (c : Loading) (entry : Handle × Option Handle) : Loading :=
  if c.known entry.2 then c.modify entry.1 fun n => { n with parent := entry.2 } else c

/-- Any child nodes that arrived before their parents, the last one first. -/
def link (c : Loading) : Loading := c.dp.reverse.foldl linkOne c

def empty : Loading := ⟨fun _ => none, [], []⟩

end Loading

/-- `fetchsc`, over the node records. -/
def fetchsc (handleauth : Handle → Vector UInt8 16) (garbage : Vector UInt8 16)
    (rank : Handle → Nat) (records : List (Nat × Bytes)) : Option NodeTable :=
  (Loading.empty.read records).map fun c =>
    mergenewshares handleauth garbage rank c.link.nodes c.newshares

theorem Loading.modify_self (c : Loading) (h : Handle) (f : Node → Node) :
    (c.modify h f).nodes h = (c.nodes h).map f := Function.update_self ..

theorem Loading.modify_of_ne (c : Loading) {h k : Handle} (f : Node → Node) (other : k ≠ h) :
    (c.modify h f).nodes k = c.nodes k := Function.update_of_ne other ..

section Load

variable {store : NodeTable} {data : Handle → Bytes}

/-- A loaded node, up to its place in the table and its parent. -/
def Fresh (h : Handle) (n m : Node) : Prop := { m with parent := none, dbid := 0 } = n.bare h

/-- The client after the records of some of the nodes: every node read so far has its parent or
waits for it. -/
structure Partway (store : NodeTable) (done : List Handle) (c : Loading) : Prop where
  absent : ∀ h, h ∉ done → c.nodes h = none
  present : ∀ h ∈ done, ∃ n m, store h = some n ∧ c.nodes h = some m ∧ Fresh h n m ∧
    (m.parent = n.parent ∨ m.parent = none ∧ (h, n.parent) ∈ c.dp)
  waiting : ∀ entry ∈ c.dp, ∃ n, store entry.1 = some n ∧ entry.2 = n.parent
  queued : c.newshares = done.flatMap fun h => (store h).elim [] (Node.queued h)

/-- A node that has been read has its parent or waits for it. -/
theorem loaded_cases (c : Loading) (h : Handle) (n : Node) :
    (c.loaded h n).newshares = c.newshares ++ n.queued h ∧
      ((c.loaded h n).nodes = Function.update c.nodes h (some { n.bare h with parent := n.parent }) ∧
          (c.loaded h n).dp = c.dp ∨
        (c.loaded h n).nodes = Function.update c.nodes h (some (n.bare h)) ∧
          (c.loaded h n).dp = c.dp ++ [(h, n.parent)]) := by
  rw [Loading.loaded, Loading.add]
  split
  case isTrue known =>
    refine ⟨rfl, Or.inl ⟨?_, rfl⟩⟩
    simp only [Loading.modify, Node.head, Function.update_idem, Function.update_self,
      Option.map_some]
    rfl
  case isFalse unknown =>
    refine ⟨rfl, Or.inr ⟨?_, rfl⟩⟩
    simp only [Loading.modify, Node.head, Function.update_idem, Function.update_self,
      Option.map_some]
    rfl

/-- One record of a stored node. -/
theorem Partway.step {done : List Handle} {c : Loading} (partway : Partway store done c)
    {h : Handle} {n : Node} (stored : store h = some n) (new : h ∉ done) (id : Nat) :
    Partway store (done ++ [h]) ((c.loaded h n).modify h fun m => { m with dbid := id }) := by
  obtain ⟨queued, cases⟩ := loaded_cases c h n
  have entry : ∃ m, (c.loaded h n).nodes = Function.update c.nodes h (some m) ∧ Fresh h n m ∧
      (m.parent = n.parent ∨ m.parent = none ∧ (h, n.parent) ∈ (c.loaded h n).dp) := by
    rcases cases with ⟨nodes, -⟩ | ⟨nodes, dp⟩
    · exact ⟨_, nodes, rfl, Or.inl rfl⟩
    · exact ⟨_, nodes, rfl, Or.inr ⟨rfl, by rw [dp]; simp⟩⟩
  have kept : ∀ e ∈ c.dp, e ∈ (c.loaded h n).dp := by
    intro e mem
    rcases cases with ⟨-, dp⟩ | ⟨-, dp⟩
    · rwa [dp]
    · rw [dp]
      exact List.mem_append_left _ mem
  obtain ⟨m, nodes, fresh, parent⟩ := entry
  have after : ((c.loaded h n).modify h fun m => { m with dbid := id }).nodes =
      Function.update c.nodes h (some { m with dbid := id }) := by
    rw [Loading.modify, nodes, Function.update_self, Function.update_idem]
    rfl
  constructor
  · intro k outside
    rw [List.mem_append, List.mem_singleton, not_or] at outside
    rw [after, Function.update_of_ne outside.2]
    exact partway.absent k outside.1
  · intro k inside
    rw [after]
    by_cases same : k = h
    · subst same
      exact ⟨n, _, stored, Function.update_self .., fresh, parent⟩
    · have earlier : k ∈ done := by simpa [same] using inside
      obtain ⟨nk, mk, storedK, present, freshK, parentK⟩ := partway.present k earlier
      refine ⟨nk, mk, storedK, ?_, freshK, parentK.imp_right fun waits => ⟨waits.1, kept _ waits.2⟩⟩
      rwa [Function.update_of_ne same]
  · intro e mem
    rcases cases with ⟨-, dp⟩ | ⟨-, dp⟩
    · exact partway.waiting e (by rwa [← dp])
    · have either : e ∈ c.dp ++ [(h, n.parent)] := by rwa [← dp]
      rcases List.mem_append.mp either with old | last
      · exact partway.waiting e old
      · rw [List.mem_singleton.mp last]
        exact ⟨n, stored, rfl⟩
  · rw [List.flatMap_append, ← partway.queued]
    change (c.loaded h n).newshares = _
    rw [queued]
    simp [stored]

/-- All records of a table are read. -/
theorem read_records (stored : ∀ h n, store h = some n → n.Storable ∧ n.serialize h = some (data h))
    {hs : List (Nat × Handle)} {done : List Handle} {c : Loading} (partway : Partway store done c)
    (known : ∀ entry ∈ hs, (store entry.2).isSome) (nodup : (done ++ hs.map Prod.snd).Nodup) :
    ∃ c', c.read (hs.map fun entry => (entry.1, data entry.2)) = some c' ∧
      Partway store (done ++ hs.map Prod.snd) c' := by
  induction hs generalizing done c with
  | nil => exact ⟨c, rfl, by simpa using partway⟩
  | cons entry hs ih =>
    obtain ⟨id, h⟩ := entry
    obtain ⟨n, found⟩ := Option.isSome_iff_exists.mp (known (id, h) List.mem_cons_self)
    obtain ⟨storable, written⟩ := stored h n found
    have new : h ∉ done := by
      intro old
      rw [List.map_cons] at nodup
      exact (List.nodup_append.mp nodup).2.2 h old h List.mem_cons_self rfl
    obtain ⟨c', reads, rest⟩ := ih (partway.step found new id)
      (fun e later => known e (List.mem_cons_of_mem _ later)) (by simpa using nodup)
    refine ⟨c', ?_, by simpa using rest⟩
    rw [List.map_cons, Loading.read, c.unserialize_serialize storable written]
    exact reads

/-- The client while it links: a node has its parent or is still to be linked. -/
structure Linking (store : NodeTable) (done : List Handle) (todo : List (Handle × Option Handle))
    (nodes : NodeTable) : Prop where
  absent : ∀ h, h ∉ done → nodes h = none
  present : ∀ h ∈ done, ∃ n m, store h = some n ∧ nodes h = some m ∧ Fresh h n m ∧
    (m.parent = n.parent ∨ m.parent = none ∧ (h, n.parent) ∈ todo)

theorem Linking.step {done : List Handle} {entry : Handle × Option Handle}
    {todo : List (Handle × Option Handle)} {c : Loading}
    (linking : Linking store done (entry :: todo) c.nodes)
    (closed : ∀ h n p, store h = some n → n.parent = some p → p ∈ done) {n : Node}
    (waiting : store entry.1 = some n) (awaited : entry.2 = n.parent) :
    Linking store done todo (c.linkOne entry).nodes := by
  rw [Loading.linkOne]
  split
  case isTrue known =>
    constructor
    · intro h outside
      have none := linking.absent h outside
      by_cases same : h = entry.1
      · rw [← same, Loading.modify_self, none, Option.map_none]
      · rwa [Loading.modify_of_ne _ _ same]
    · intro h inside
      obtain ⟨nh, m, stored, present, fresh, parent⟩ := linking.present h inside
      by_cases same : h = entry.1
      · subst same
        rw [stored] at waiting
        cases waiting
        refine ⟨n, { m with parent := entry.2 }, stored, ?_, fresh, Or.inl awaited⟩
        rw [Loading.modify_self, present, Option.map_some]
      · refine ⟨nh, m, stored, ?_, fresh, parent.imp_right fun waits => ⟨waits.1, ?_⟩⟩
        · rwa [Loading.modify_of_ne _ _ same]
        · rcases List.mem_cons.mp waits.2 with rfl | later
          · exact (same rfl).elim
          · exact later
  case isFalse unknown =>
    have orphan : n.parent = none := by
      cases parent : n.parent with
      | none => rfl
      | some p =>
        obtain ⟨-, m, -, present, -⟩ := linking.present p (closed entry.1 n p waiting parent)
        refine (unknown ?_).elim
        rw [Loading.known, awaited, parent, Option.bind_some, present]
        rfl
    refine ⟨linking.absent, fun h inside => ?_⟩
    obtain ⟨nh, m, stored, present, fresh, parent⟩ := linking.present h inside
    refine ⟨nh, m, stored, present, fresh, ?_⟩
    rcases parent with linked | ⟨none, waits⟩
    · exact Or.inl linked
    · rcases List.mem_cons.mp waits with rfl | later
      · rw [stored] at waiting
        cases waiting
        exact Or.inl (none.trans orphan.symm)
      · exact Or.inr ⟨none, later⟩

theorem Linking.run {done : List Handle} {todo : List (Handle × Option Handle)} {c : Loading}
    (linking : Linking store done todo c.nodes)
    (closed : ∀ h n p, store h = some n → n.parent = some p → p ∈ done)
    (waiting : ∀ entry ∈ todo, ∃ n, store entry.1 = some n ∧ entry.2 = n.parent) :
    Linking store done [] (todo.foldl Loading.linkOne c).nodes := by
  induction todo generalizing c with
  | nil => exact linking
  | cons entry todo ih =>
    obtain ⟨n, stored, awaited⟩ := waiting entry List.mem_cons_self
    exact ih (linking.step closed stored awaited)
      fun e later => waiting e (List.mem_cons_of_mem _ later)

theorem Partway.link {done : List Handle} {c : Loading} (partway : Partway store done c)
    (closed : ∀ h n p, store h = some n → n.parent = some p → p ∈ done) :
    Linking store done [] c.link.nodes := by
  refine Linking.run ⟨partway.absent, ?_⟩ closed ?_
  · simpa using partway.present
  · simpa using partway.waiting

end Load

section Whole

variable {handleauth : Handle → Vector UInt8 16} {garbage : Vector UInt8 16} {rank : Handle → Nat}
  {store nodes : NodeTable} {data : Handle → Bytes}

/-- What a stored node and its loaded copy have in common. The size and the file attributes only
stand in the records of files, and the share key only in those of shared nodes. -/
structure Restored (n m : Node) : Prop where
  type : m.type = n.type
  parent : m.parent = n.parent
  owner : m.info.owner = n.info.owner
  nodekey : m.nodekey = n.nodekey
  clienttimestamp : m.info.clienttimestamp = n.info.clienttimestamp
  ctime : m.info.ctime = n.info.ctime
  attrs : m.info.attrs = n.info.attrs
  inshare : m.info.inshare = n.info.inshare
  outshares : m.info.outshares = n.info.outshares
  size : n.type = fileNode → m.size = n.size
  fileattrstring : n.type = fileNode → m.info.fileattrstring = n.info.fileattrstring
  sharekey : n.shares ≠ [] → m.info.sharekey = n.info.sharekey

theorem Fresh.restored {h : Handle} {n m : Node} (fresh : Fresh h n m)
    (parent : m.parent = n.parent) : Restored n (n.withShares m) where
  type := (congrArg Node.type fresh :)
  parent := parent
  owner := congrArg (fun x => x.info.owner) fresh
  nodekey := (congrArg Node.nodekey fresh :)
  clienttimestamp := congrArg (fun x => x.info.clienttimestamp) fresh
  ctime := congrArg (fun x => x.info.ctime) fresh
  attrs := congrArg (fun x => x.info.attrs) fresh
  inshare := rfl
  outshares := rfl
  size file := (congrArg Node.size fresh).trans (if_pos file)
  fileattrstring file := (congrArg (fun x => x.info.fileattrstring) fresh).trans (if_pos file)
  sharekey shared := if_neg shared

theorem Fresh.unshared {h : Handle} {n m : Node} (fresh : Fresh h n m) : m.Unshared :=
  ⟨congrArg (fun x => x.info.inshare) fresh, congrArg (fun x => x.info.outshares) fresh,
    congrArg (fun x => x.info.sharekey) fresh⟩

/-- A linked table agrees with the store, up to the shares. -/
theorem Linking.between {done : List Handle} (linking : Linking store done [] nodes)
    (complete : ∀ h, (store h).isSome → h ∈ done) : Between store nodes := by
  intro h
  by_cases inside : h ∈ done
  · obtain ⟨n, m, stored, present, fresh, parent⟩ := linking.present h inside
    rw [stored, present]
    exact ⟨(congrArg Node.type fresh :), parent.resolve_right (by simp), Or.inl fresh.unshared.1⟩
  · have gone : store h = none := by
      rw [← Option.not_isSome_iff_eq_none]
      exact fun some => inside (complete h some)
    rw [gone, linking.absent h inside]
    trivial

/-- The shares of the nodes are restored one node after the other. -/
theorem merge_all (ranked : Ranked rank store) (apart : SharedApart rank store)
    (stored : ∀ h n, store h = some n → n.Storable ∧ n.Shareable rank store h)
    {todo : List Handle} (nodup : todo.Nodup) (between : Between store nodes)
    (unshared : ∀ h ∈ todo, ∃ n m, store h = some n ∧ nodes h = some m ∧ m.Unshared) :
    ∀ k n m, store k = some n → nodes k = some m →
      mergenewshares handleauth garbage rank nodes
          (todo.flatMap fun h => (store h).elim [] (Node.queued h)) k =
        some (if k ∈ todo then n.withShares m else m) := by
  induction todo generalizing nodes with
  | nil =>
    intro k n m _ present
    rw [if_neg List.not_mem_nil]
    exact present
  | cons h todo ih =>
    intro k n m found present
    obtain ⟨nh, mh, storedH, presentH, unsharedH⟩ := unshared h List.mem_cons_self
    obtain ⟨fresh, rest⟩ := List.nodup_cons.mp nodup
    obtain ⟨storable, shareable⟩ := stored h nh storedH
    have fields := between h
    rw [storedH, presentH] at fields
    have step : mergenewshares handleauth garbage rank nodes (nh.queued h) =
        Function.update nodes h (some (nh.withShares mh)) :=
      merge_queued ranked apart storedH shareable storable.sharekey between presentH unsharedH
    have next : Between store (Function.update nodes h (some (nh.withShares mh))) :=
      between.update storedH fields.1 fields.2.1 (Or.inr rfl)
    have others : ∀ j ∈ todo, ∃ n m, store j = some n ∧
        Function.update nodes h (some (nh.withShares mh)) j = some m ∧ m.Unshared := by
      intro j later
      have other : j ≠ h := fun same => fresh (same ▸ later)
      rw [Function.update_of_ne other]
      exact unshared j (List.mem_cons_of_mem _ later)
    rw [List.flatMap_cons, mergenewshares_append, storedH, Option.elim_some, step]
    by_cases same : k = h
    · subst same
      rw [storedH] at found
      rw [presentH] at present
      cases found
      cases present
      rw [ih rest next others k n (n.withShares m) storedH (Function.update_self ..),
        if_neg fresh, if_pos List.mem_cons_self]
    · rw [ih rest next others k n m found (by rwa [Function.update_of_ne same])]
      simp [same]

/-- A table of nodes that has been written comes back from its records, in whatever order they
are read. -/
theorem fetchsc_serialize (ranked : Ranked rank store) (apart : SharedApart rank store)
    (stored : ∀ h n, store h = some n → n.Storable ∧ n.Shareable rank store h ∧
      n.serialize h = some (data h))
    (closed : ∀ h n p, store h = some n → n.parent = some p → (store p).isSome)
    {order : List (Nat × Handle)} (nodup : (order.map Prod.snd).Nodup)
    (complete : ∀ h, (store h).isSome ↔ h ∈ order.map Prod.snd) :
    ∃ nodes, fetchsc handleauth garbage rank (order.map fun entry => (entry.1, data entry.2)) =
        some nodes ∧
      ∀ h n, store h = some n → ∃ m, nodes h = some m ∧ Restored n m := by
  have start : Partway store [] Loading.empty :=
    ⟨fun _ _ => rfl, by simp, by simp [Loading.empty], rfl⟩
  obtain ⟨c, reads, partway⟩ := read_records
    (fun h n found => ⟨(stored h n found).1, (stored h n found).2.2⟩) start
    (fun entry mem => (complete entry.2).mpr (List.mem_map_of_mem mem)) (by simpa using nodup)
  rw [List.nil_append] at partway
  have linking := partway.link fun h n p found parent => (complete p).mp (closed h n p found parent)
  have between := linking.between fun h some => (complete h).mp some
  refine ⟨mergenewshares handleauth garbage rank c.link.nodes c.newshares,
    by rw [fetchsc, reads, Option.map_some], fun h n found => ?_⟩
  obtain ⟨nh, m, storedH, present, fresh, parent⟩ :=
    linking.present h ((complete h).mp (by rw [found]; rfl))
  rw [found] at storedH
  cases storedH
  refine ⟨n.withShares m, ?_, fresh.restored (parent.resolve_right (by simp))⟩
  rw [partway.queued, merge_all ranked apart (fun k nk found =>
    ⟨(stored k nk found).1, (stored k nk found).2.1⟩) nodup between ?_ h n m found present,
    if_pos ((complete h).mp (by rw [found]; rfl))]
  intro k inside
  obtain ⟨nk, mk, storedK, presentK, freshK, -⟩ := linking.present k inside
  exact ⟨nk, mk, storedK, presentK, freshK.unshared⟩

end Whole

namespace ReloadSample

def key : Vector UInt8 16 := Vector.replicate 16 7

def node (type : NodeType) (size : Int64) (nodekey : Bytes) (parent : Option Handle)
    (inshare : Option Share) (outshares : List (UInt64 × Share)) : Node where
  type := type
  size := size
  nodekey := nodekey
  keystring := []
  info := {
    owner := 42
    clienttimestamp := 0
    ctime := 1400000000
    fileattrstring := []
    attrstring := []
    attrs := [(AttrMap.packed (ascii "n"), ascii "docs")]
    inshare := inshare
    outshares := outshares
    sharekey := some key }
  parent := parent
  removed := false
  notified := false
  dbid := 0

/-- A cloud drive as the server describes it, without a size. -/
def root : Node := node rootNode (-1) [] none none []

/-- A folder in the cloud drive that is shared with user 9. -/
def folder : Node :=
  node folderNode (-1) (List.replicate 16 3) (some 1) none [(9, ⟨9, rdOnly, 1400000001⟩)]

def foreign : Node :=
  node folderNode (-1) (List.replicate 16 4) none (some ⟨8, rdWr, 1400000002⟩) []

def store : NodeTable := fun h =>
  if h = 1 then some root else if h = 2 then some folder else if h = 3 then some foreign else none

def data (h : Handle) : Bytes := ((store h).bind (Node.serialize h)).getD []

def rank (h : Handle) : Nat := if h = 2 then 1 else 0

/-- The table after a reload, with the folders in front of the cloud drive. -/
def reloaded : Option NodeTable :=
  fetchsc (fun _ => key) key rank [(17, data 3), (33, data 2), (49, data 1)]

/-- The cloud drive comes back with another size and without its share key. -/
theorem root_not_restored :
    (reloaded.bind fun nodes => nodes 1).map (fun m => (m.size, m.info.sharekey)) =
        some (-2, none) ∧
      (root.size, root.info.sharekey) = (-1, some key) := by
  decide +kernel

theorem store_cases {h : Handle} {n : Node} (stored : store h = some n) :
    h = 1 ∧ n = root ∨ h = 2 ∧ n = folder ∨ h = 3 ∧ n = foreign := by
  rw [store] at stored
  split at stored
  case isTrue one => exact Or.inl ⟨one, (Option.some.inj stored).symm⟩
  split at stored
  case isTrue two => exact Or.inr (Or.inl ⟨two, (Option.some.inj stored).symm⟩)
  split at stored
  case isTrue three => exact Or.inr (Or.inr ⟨three, (Option.some.inj stored).symm⟩)
  cases stored

theorem storable (type : NodeType) (inside : 1 ≤ type ∧ type ≤ 5) (size : Int64) (nodekey : Bytes)
    {parent : Option Handle} (nonzero : parent ≠ some 0) (inshare : Option Share)
    (outshares : List (UInt64 × Share)) (few : outshares.length ≤ 32767)
    (access : ∀ share ∈ (node type size nodekey parent inshare outshares).shares, share.Storable) :
    (node type size nodekey parent inshare outshares).Storable where
  type := ⟨Int.le_trans (by decide) inside.1, inside.2⟩
  size file := by
    obtain rfl : type = fileNode := file
    exact absurd inside.1 (by decide)
  parent := nonzero
  clienttimestamp := show (0 : Int64).toUInt64.toNat < 2 ^ 32 by decide
  ctime := show (1400000000 : Int64).toUInt64.toNat < 2 ^ 32 by decide
  fileattrs := by simp [node]
  fileattrsShort := by simp [node]
  attrs := {
    ascending := by simp [node]
    named := by
      intro entry mem
      obtain rfl := List.mem_singleton.mp mem
      exact ⟨ascii "n", by decide, by decide, forall_mem_of_all (by decide), rfl⟩
    short := by
      intro entry mem
      obtain rfl := List.mem_singleton.mp mem
      decide }
  outshares := few
  access := access
  sharekey := fun _ => rfl

theorem stored_sample (h : Handle) (n : Node) (stored : store h = some n) :
    n.Storable ∧ n.Shareable rank store h ∧ n.serialize h = some (data h) := by
  rcases store_cases stored with ⟨rfl, rfl⟩ | ⟨rfl, rfl⟩ | ⟨rfl, rfl⟩
  · refine ⟨storable _ (by decide) _ _ (by decide) _ _ (by decide) ?_, ?_, by decide⟩
    · simp [Node.shares, node]
    · exact ⟨by decide, by decide, by decide, by decide, by simp [root, node]⟩
  · refine ⟨storable _ (by decide) _ _ (by decide) _ _ (by decide) ?_, ?_, by decide⟩
    · simp [Node.shares, node, Share.Storable, rdOnly]
    · exact ⟨by decide, by decide, by decide, by decide, by simp [folder, node]⟩
  · refine ⟨storable _ (by decide) _ _ (by decide) _ _ (by decide) ?_, ?_, by decide⟩
    · simp [Node.shares, node, Share.Storable, rdWr]
    · refine ⟨by decide, by decide, by decide, by decide, ?_⟩
      intro share inbound
      obtain rfl := Option.some.inj inbound
      decide

theorem fetchsc_sample : ∃ nodes, reloaded = some nodes ∧
    ∀ h n, store h = some n → ∃ m, nodes h = some m ∧ Restored n m := by
  refine @fetchsc_serialize (fun _ => key) key rank store data ?_ ?_ stored_sample ?_
    [(17, 3), (33, 2), (49, 1)] (by decide) ?_
  · intro h p parent
    obtain ⟨n, stored, above⟩ := Option.bind_eq_some_iff.mp parent
    rcases store_cases stored with ⟨rfl, rfl⟩ | ⟨rfl, rfl⟩ | ⟨rfl, rfl⟩
    · cases above
    · obtain rfl := Option.some.inj above
      decide
    · cases above
  · intro h n share stored inbound
    rcases store_cases stored with ⟨rfl, rfl⟩ | ⟨rfl, rfl⟩ | ⟨rfl, rfl⟩
    · cases inbound
    · cases inbound
    · obtain rfl := Option.some.inj inbound
      decide
  · intro h n p stored parent
    rcases store_cases stored with ⟨rfl, rfl⟩ | ⟨rfl, rfl⟩ | ⟨rfl, rfl⟩
    · cases parent
    · obtain rfl := Option.some.inj parent
      decide
    · cases parent
  · intro h
    constructor
    · intro found
      obtain ⟨n, stored⟩ := Option.isSome_iff_exists.mp found
      rcases store_cases stored with ⟨rfl, -⟩ | ⟨rfl, -⟩ | ⟨rfl, -⟩ <;> decide
    · intro listed
      simp only [List.map_cons, List.map_nil, List.mem_cons, List.not_mem_nil, or_false] at listed
      rcases listed with rfl | rfl | rfl <;> rfl

end ReloadSample

end MegaSdk.Cache
