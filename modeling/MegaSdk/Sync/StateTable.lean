import MegaSdk.Sync.LocalRecord
import MegaSdk.Cache.StateCache
import Mathlib.Data.List.Nodup
import Mathlib.Data.List.Perm.Basic

/-!
# The state cache of a sync

`Sync::cachenodes` writes the queued local nodes in rounds, each node once its parent has an
id, and `Sync::readstatecache` rebuilds the tree from the parent ids in the records, with one
path buffer out of which the names are cut again.
-/

namespace MegaSdk.Sync

open RecordReader
open Cache (Handle DbTable)

universe u

def cachedLocalNode : Nat := 3

/-- The local nodes below the root of a sync; the children of the root have no parent here. -/
structure LocalTree (Ref : Type u) where
  info : Ref → LocalRecord
  parent : Ref → Option Ref

/-- The caching part of a `Sync`, with the writes so far and the parent ids they held. -/
structure StateTable (Ref : Type u) where
  dbid : Ref → Nat
  table : DbTable
  insertq : List Ref
  deleteq : List Nat
  writes : List (Ref × Nat)

namespace StateTable

variable {Ref : Type u} [DecidableEq Ref] (tree : LocalTree Ref)

def idOf (dbid : Ref → Nat) (parent : Option Ref) : Nat := parent.elim 0 dbid

/-- A local node as it is written, with the id of its parent. -/
def written (dbid : Ref → Nat) (l : Ref) : LocalRecord :=
  { tree.info l with parentDbid := UInt32.ofNat (idOf dbid (tree.parent l)) }

def record (dbid : Ref → Nat) (l : Ref) : Bytes := (written tree dbid l).serialize

/-- `statecachetable->put`. -/
def put (s : StateTable Ref) (l : Ref) : StateTable Ref :=
  let (id, table) := s.table.put cachedLocalNode (s.dbid l) (some (record tree s.dbid l))
  { s with
    dbid := Function.update s.dbid l id
    table := table
    writes := s.writes ++ [(l, idOf s.dbid (tree.parent l))] }

/-- Whether a queued node can be written: its parent is the root or has an id. -/
def ready (s : StateTable Ref) (l : Ref) : Bool :=
  idOf s.dbid (tree.parent l) ≠ 0 || tree.parent l = none

/-- One round over the queue: the nodes that have to wait, and whether any was added. -/
def pass : List Ref → StateTable Ref → StateTable Ref × List Ref × Bool
  | [], s => (s, [], false)
  | l :: rest, s =>
    if ready tree s l then
      let (s, waiting, _) := pass rest (put tree s l)
      (s, waiting, true)
    else
      let (s, waiting, added) := pass rest s
      (s, l :: waiting, added)

def rounds : Nat → StateTable Ref → StateTable Ref
  | 0, s => s
  | fuel + 1, s =>
    let (s, waiting, added) := pass tree s.insertq s
    let s := { s with insertq := waiting }
    if added then rounds fuel s else s

/-- `Sync::cachenodes`, with an open table: deletions first. -/
def cachenodes (active : Bool) (s : StateTable Ref) : StateTable Ref :=
  if active ∧ (s.deleteq ≠ [] ∨ s.insertq ≠ []) then
    rounds tree (s.insertq.length + 1)
      { s with table := s.deleteq.foldl DbTable.del s.table, deleteq := [] }
  else s

end StateTable

/-- The offset behind the last separator of a path, from `p` on downwards. -/
def nameOffset (sep path : Bytes) : Nat → Nat → Nat
  | 0, p => p
  | fuel + 1, p =>
    let p := p - sep.length
    if p = 0 then 0
    else if (path.drop p).take sep.length = sep then p + sep.length
    else nameOffset sep path fuel p

/-- The name that `setnameparent` takes from a full path. -/
def nameOf (sep path : Bytes) : Bytes :=
  path.drop (nameOffset sep path path.length path.length)

structure CachedNode where
  dbid : Nat
  info : LocalRecord
  deriving DecidableEq

/-- The bulk load: records that cannot be read are passed over. -/
def bulkLoad (known : Handle → Bool) (beyond : Nat → Bytes) (records : List (Nat × Bytes)) :
    List CachedNode :=
  records.filterMap fun (id, data) =>
    match LocalRecord.unserialize known (beyond id) data with
    | .ok info => some ⟨id, info⟩
    | _ => none

/-- `addstatecachechildren`: every node with its position, the names from the root down to it. -/
def addstatecachechildren (sep : Bytes) (tmap : List CachedNode) (maxdepth : Nat) (parent : UInt32)
    (path : Bytes) (position : List Bytes) : List (List Bytes × CachedNode) :=
  (tmap.filter fun l => l.info.parentDbid = parent).flatMap fun l =>
    let path := path ++ sep ++ l.info.localname
    let position := position ++ [nameOf sep path]
    (position, { l with info := { l.info with localname := nameOf sep path } }) ::
      match maxdepth with
      | 0 => []
      | maxdepth + 1 =>
        addstatecachechildren sep tmap maxdepth (UInt32.ofNat l.dbid) path position

/-- `Sync::readstatecache`: the buffer starts as the path of the root. -/
def readstatecache (known : Handle → Bool) (beyond : Nat → Bytes) (sep rootpath : Bytes)
    (records : List (Nat × Bytes)) : List (List Bytes × CachedNode) :=
  addstatecachechildren sep (bulkLoad known beyond records) 100 0 rootpath []

namespace StateTable

variable {Ref : Type u} [DecidableEq Ref] {tree : LocalTree Ref} {nodes pending : List Ref}
  {s : StateTable Ref}

/-- The ids and records between two writes: the nodes that are not pending have been written,
with the ids of their parents; no two nodes share an id, and the table holds nothing else. -/
structure Consistent (tree : LocalTree Ref) (nodes pending : List Ref) (s : StateTable Ref) :
    Prop where
  written : ∀ l ∈ nodes, l ∉ pending → s.dbid l ≠ 0 ∧
    s.table.records (s.dbid l) = some (record tree s.dbid l) ∧
      ∀ p, tree.parent l = some p → s.dbid p ≠ 0
  distinct : ∀ l ∈ nodes, ∀ k ∈ nodes, s.dbid l ≠ 0 → s.dbid l = s.dbid k → l = k
  owned : ∀ id, (s.table.records id).isSome → ∃ l ∈ nodes, s.dbid l = id ∧ id ≠ 0
  bounded : ∀ l ∈ nodes, s.dbid l < s.table.nextid + 16
  aligned : s.table.nextid % 16 = 0
  room : s.table.nextid + 16 * pending.length < 2 ^ 32

/-- What a `put` does with the id: it stays, or the next one is taken. -/
theorem put_cases (tree : LocalTree Ref) (aligned : s.table.nextid % 16 = 0)
    (room : s.table.nextid + 16 < 2 ^ 32) (l : Ref) :
    ∃ id nextid, (put tree s l).dbid = Function.update s.dbid l id ∧
      (put tree s l).table =
        ⟨Function.update s.table.records id (some (record tree s.dbid l)), nextid⟩ ∧
      (s.dbid l ≠ 0 ∧ id = s.dbid l ∧ nextid = s.table.nextid ∨
        s.dbid l = 0 ∧ id = s.table.nextid + 19 ∧ nextid = s.table.nextid + 16) := by
  have next : s.table.next = s.table.nextid + 16 := Nat.mod_eq_of_lt room
  have id : s.table.next ||| cachedLocalNode = s.table.nextid + 19 := by
    rw [next, Cache.or_type _ (by omega) (by decide)]
    rfl
  rw [put, DbTable.put]
  by_cases zero : s.dbid l = 0
  · rw [if_pos zero, id, next]
    exact ⟨_, _, rfl, rfl, Or.inr ⟨zero, rfl, rfl⟩⟩
  · rw [if_neg zero]
    exact ⟨_, _, rfl, rfl, Or.inl ⟨zero, rfl, rfl⟩⟩

/-- An id that was given stays. -/
theorem put_stays (aligned : s.table.nextid % 16 = 0) (room : s.table.nextid + 16 < 2 ^ 32)
    (l : Ref) {k : Ref} (given : s.dbid k ≠ 0) : (put tree s l).dbid k = s.dbid k := by
  obtain ⟨id, nextid, dbids, -, change⟩ := put_cases tree aligned room l
  rw [dbids]
  by_cases same : k = l
  · subst same
    rcases change with ⟨-, rfl, -⟩ | ⟨zero, -⟩
    · exact Function.update_self ..
    · exact (given zero).elim
  · exact Function.update_of_ne same ..

/-- The record of a node whose parent has an id is the one from before. -/
theorem record_put (aligned : s.table.nextid % 16 = 0) (room : s.table.nextid + 16 < 2 ^ 32)
    (l : Ref) {k : Ref} (above : ∀ p, tree.parent k = some p → s.dbid p ≠ 0) :
    record tree (put tree s l).dbid k = record tree s.dbid k := by
  rw [record, record, written, written]
  cases parent : tree.parent k with
  | none => rfl
  | some p =>
    rw [idOf, idOf, Option.elim_some, Option.elim_some, put_stays aligned room l (above p parent)]

/-- The id of a node that is written: not zero, of no other node, and below what comes next. -/
theorem Consistent.put_spec (consistent : Consistent tree nodes pending s) {l : Ref}
    (room : s.table.nextid + 16 < 2 ^ 32) (inside : l ∈ nodes) :
    ∃ id, (StateTable.put tree s l).dbid = Function.update s.dbid l id ∧
      (StateTable.put tree s l).table.records =
        Function.update s.table.records id (some (record tree s.dbid l)) ∧
      id ≠ 0 ∧ (∀ k ∈ nodes, k ≠ l → s.dbid k ≠ id) ∧
      id < (StateTable.put tree s l).table.nextid + 16 ∧
      s.table.nextid ≤ (StateTable.put tree s l).table.nextid ∧
      (StateTable.put tree s l).table.nextid ≤ s.table.nextid + 16 ∧
      (StateTable.put tree s l).table.nextid % 16 = 0 := by
  have aligned := consistent.aligned
  have below := consistent.bounded l inside
  obtain ⟨id, nextid, dbids, table, change⟩ := put_cases tree aligned room l
  rw [table]
  refine ⟨id, dbids, rfl, ?_⟩
  rcases change with ⟨given, rfl, rfl⟩ | ⟨-, rfl, rfl⟩
  · refine ⟨given, ?_, below, Nat.le_refl _, Nat.le_add_right _ _, aligned⟩
    intro k mem other same
    exact other (consistent.distinct l inside k mem given same.symm).symm
  · refine ⟨Nat.succ_ne_zero _, ?_, Nat.add_lt_add_left (show 19 < 32 by decide) _,
      Nat.le_add_right _ _, Nat.le_refl _, (Nat.add_mod_right _ _).trans aligned⟩
    intro k mem _ same
    have bound := consistent.bounded k mem
    omega

/-- Writing a node whose parent has an id keeps the table consistent. -/
theorem Consistent.put (consistent : Consistent tree nodes pending s) {l : Ref}
    (queued : l ∈ pending) (inside : l ∈ nodes)
    (isReady : ∀ p, tree.parent l = some p → s.dbid p ≠ 0) :
    Consistent tree nodes (pending.erase l) (put tree s l) := by
  have count := List.length_erase_of_mem queued
  have positive := List.length_pos_of_mem queued
  have room := consistent.room
  have enough : s.table.nextid + 16 < 2 ^ 32 := by omega
  obtain ⟨id, dbids, records, nonzero, fresh, below, low, high, aligned⟩ :=
    consistent.put_spec enough inside
  have stays : ∀ k, s.dbid k ≠ 0 → (StateTable.put tree s l).dbid k = s.dbid k :=
    fun k => put_stays consistent.aligned enough l
  have self : (StateTable.put tree s l).dbid l = id := by rw [dbids, Function.update_self]
  have others : ∀ k, k ≠ l → (StateTable.put tree s l).dbid k = s.dbid k := by
    intro k other
    rw [dbids, Function.update_of_ne other]
  have above : ∀ k, (∀ p, tree.parent k = some p → s.dbid p ≠ 0) →
      ∀ p, tree.parent k = some p → (StateTable.put tree s l).dbid p ≠ 0 := by
    intro k ready p parent
    rw [stays p (ready p parent)]
    exact ready p parent
  refine ⟨?written, ?distinct, ?owned, ?bounded, aligned, by omega⟩
  case written =>
    intro k mem done
    by_cases same : k = l
    · subst same
      refine ⟨by rwa [self], ?_, above k isReady⟩
      rw [self, records, record_put consistent.aligned enough k isReady]
      exact Function.update_self ..
    · obtain ⟨given, stored, ready⟩ := consistent.written k mem fun waits =>
        done ((List.mem_erase_of_ne same).mpr waits)
      refine ⟨by rwa [stays k given], ?_, above k ready⟩
      rw [stays k given, records, record_put consistent.aligned enough l ready]
      exact (Function.update_of_ne (fresh k mem same) ..).trans stored
  case distinct =>
    intro k mem j memJ given equal
    by_cases sameK : k = l
    · by_cases sameJ : j = l
      · rw [sameK, sameJ]
      · rw [sameK, self, others j sameJ] at equal
        exact (fresh j memJ sameJ equal.symm).elim
    · by_cases sameJ : j = l
      · rw [sameJ, self, others k sameK] at equal
        exact (fresh k mem sameK equal).elim
      · rw [others k sameK] at given equal
        rw [others j sameJ] at equal
        exact consistent.distinct k mem j memJ given equal
  case owned =>
    intro k present
    by_cases same : k = id
    · exact ⟨l, inside, by rw [self, same], by rw [same]; exact nonzero⟩
    · have before : (s.table.records k).isSome := by
        rwa [records, Function.update_of_ne same] at present
      obtain ⟨j, mem, rfl, given⟩ := consistent.owned k before
      exact ⟨j, mem, stays j given, given⟩
  case bounded =>
    intro k mem
    by_cases same : k = l
    · rw [same, self]
      exact below
    · have before := consistent.bounded k mem
      rw [others k same]
      omega

omit [DecidableEq Ref] in
theorem ready_iff {l : Ref} :
    ready tree s l = true ↔ ∀ p, tree.parent l = some p → s.dbid p ≠ 0 := by
  rw [ready]
  cases parent : tree.parent l with
  | none => simp
  | some p =>
    simp only [idOf, Option.elim_some, reduceCtorEq, decide_false, Bool.or_false, Option.some.injEq,
      forall_eq']
    exact decide_eq_true_iff

/-- A round over the rest of the queue: what waits is still pending, the rest has been written
once, each node after its parent. -/
theorem pass_spec (queue kept : List Ref) (consistent : Consistent tree nodes (kept ++ queue) s)
    (inside : ∀ l ∈ queue, l ∈ nodes) (unique : (kept ++ queue).Nodup) :
    Consistent tree nodes (kept ++ (pass tree queue s).2.1) (pass tree queue s).1 ∧
      (pass tree queue s).2.1.Sublist queue ∧
      ∃ w, (pass tree queue s).1.writes = s.writes ++ w ∧
        (w.map Prod.fst ++ (pass tree queue s).2.1).Perm queue ∧
          ∀ e ∈ w, tree.parent e.1 = none ∨ e.2 ≠ 0 := by
  induction queue generalizing kept s with
  | nil => exact ⟨consistent, .slnil, [], by simp [pass], by simp [pass], by simp⟩
  | cons l queue ih =>
    have later : ∀ k ∈ queue, k ∈ nodes := fun k mem => inside k (List.mem_cons_of_mem l mem)
    rw [pass]
    split
    case isTrue isReady =>
      have new : l ∉ kept := fun old =>
        (List.nodup_append.mp unique).2.2 l old l List.mem_cons_self rfl
      have erased : (kept ++ l :: queue).erase l = kept ++ queue := by
        rw [List.erase_append_right _ new, List.erase_cons_head]
      have next := consistent.put (by simp) (inside l List.mem_cons_self) (ready_iff.mp isReady)
      rw [erased] at next
      have fewer : (kept ++ queue).Nodup := unique.sublist (by simp)
      obtain ⟨after, sub, w, writes, perm, parents⟩ := ih kept next later fewer
      refine ⟨after, sub.cons l, (l, idOf s.dbid (tree.parent l)) :: w, ?_, ?_, ?_⟩
      · rw [writes, put]
        simp
      · exact perm.cons l
      · intro e mem
        rcases List.mem_cons.mp mem with rfl | old
        · have either := isReady
          rw [ready] at either
          cases parent : tree.parent l with
          | none => exact Or.inl rfl
          | some p => simpa [parent] using either
        · exact parents e old
    case isFalse waits =>
      have shifted : kept ++ l :: queue = kept ++ [l] ++ queue := by simp
      rw [shifted] at consistent unique
      obtain ⟨after, sub, w, writes, perm, parents⟩ := ih _ consistent later unique
      refine ⟨by simpa using after, sub.cons_cons l, w, writes, ?_, parents⟩
      exact List.perm_middle.trans (perm.cons l)

/-- A round that finds a node that can be written adds one. -/
theorem pass_adds {queue : List Ref} (some : ∃ l ∈ queue, ready tree s l = true) :
    (pass tree queue s).2.2 = true := by
  induction queue generalizing s with
  | nil =>
    obtain ⟨l, mem, -⟩ := some
    cases mem
  | cons k queue ih =>
    rw [pass]
    split
    case isTrue => rfl
    case isFalse waits =>
      obtain ⟨l, mem, isReady⟩ := some
      rcases List.mem_cons.mp mem with rfl | later
      · exact (waits isReady).elim
      · exact ih ⟨l, later, isReady⟩

theorem length_pass {queue : List Ref} (added : (pass tree queue s).2.2 = true) :
    (pass tree queue s).2.1.length < queue.length := by
  have shorter : ∀ (queue : List Ref) (s : StateTable Ref),
      (pass tree queue s).2.1.length ≤ queue.length := by
    intro queue
    induction queue with
    | nil => simp [pass]
    | cons k queue ih =>
      intro s
      rw [pass]
      split
      case isTrue => exact Nat.le_succ_of_le (ih _)
      case isFalse => exact Nat.succ_le_succ (ih s)
  induction queue generalizing s with
  | nil => simp [pass] at added
  | cons k queue ih =>
    rw [pass] at added ⊢
    split
    case isTrue => exact Nat.lt_succ_of_le (shorter queue _)
    case isFalse waits =>
      rw [if_neg waits] at added
      exact Nat.succ_lt_succ (ih added)

/-- As long as nodes are pending, one of them can be written: one whose parent is not pending. -/
theorem exists_ready {depth : Ref → Nat}
    (drops : ∀ l ∈ nodes, ∀ p, tree.parent l = some p → depth p < depth l)
    (closed : ∀ l ∈ nodes, ∀ p, tree.parent l = some p → p ∈ nodes)
    (consistent : Consistent tree nodes pending s) (inside : ∀ l ∈ pending, l ∈ nodes)
    (some : pending ≠ []) : ∃ l ∈ pending, ready tree s l = true := by
  have search : ∀ d l, depth l = d → l ∈ pending → ∃ k ∈ pending, ready tree s k = true := by
    intro d
    induction d using Nat.strongRecOn with
    | _ d ih =>
      intro l level mem
      cases parent : tree.parent l with
      | none => exact ⟨l, mem, ready_iff.mpr fun p above => by rw [parent] at above; cases above⟩
      | some p =>
        by_cases waits : p ∈ pending
        · exact ih (depth p) (level ▸ drops l (inside l mem) p parent) p rfl waits
        · refine ⟨l, mem, ready_iff.mpr fun q above => ?_⟩
          rw [parent] at above
          cases above
          exact (consistent.written p (closed l (inside l mem) p parent) waits).1
  obtain ⟨l, mem⟩ := List.exists_mem_of_ne_nil pending some
  exact search (depth l) l rfl mem

theorem rounds_succ (fuel : Nat) (s : StateTable Ref) : rounds tree (fuel + 1) s =
    if (pass tree s.insertq s).2.2 then
      rounds tree fuel { (pass tree s.insertq s).1 with insertq := (pass tree s.insertq s).2.1 }
    else { (pass tree s.insertq s).1 with insertq := (pass tree s.insertq s).2.1 } := rfl

/-- The rounds write everything that is queued, each node once and after its parent. -/
theorem rounds_spec {depth : Ref → Nat}
    (drops : ∀ l ∈ nodes, ∀ p, tree.parent l = some p → depth p < depth l)
    (closed : ∀ l ∈ nodes, ∀ p, tree.parent l = some p → p ∈ nodes) {fuel : Nat}
    (consistent : Consistent tree nodes s.insertq s) (inside : ∀ l ∈ s.insertq, l ∈ nodes)
    (unique : s.insertq.Nodup) (enough : s.insertq.length < fuel) :
    Consistent tree nodes [] (rounds tree fuel s) ∧ (rounds tree fuel s).insertq = [] ∧
      ∃ w, (rounds tree fuel s).writes = s.writes ++ w ∧ (w.map Prod.fst).Perm s.insertq ∧
        ∀ e ∈ w, tree.parent e.1 = none ∨ e.2 ≠ 0 := by
  induction fuel generalizing s with
  | zero => omega
  | succ fuel ih =>
    obtain ⟨after, sub, w, writes, perm, parents⟩ := pass_spec s.insertq [] consistent inside unique
    rw [List.nil_append] at after
    have queue : Consistent tree nodes (pass tree s.insertq s).2.1
        { (pass tree s.insertq s).1 with insertq := (pass tree s.insertq s).2.1 } :=
      ⟨after.written, after.distinct, after.owned, after.bounded, after.aligned, after.room⟩
    rw [rounds_succ]
    split
    case isTrue added =>
      have shorter := length_pass added
      obtain ⟨done, empty, v, more, permV, parentsV⟩ :=
        ih (s := { (pass tree s.insertq s).1 with insertq := (pass tree s.insertq s).2.1 }) queue
          (fun l mem => inside l (sub.subset mem)) (unique.sublist sub)
          (Nat.lt_of_lt_of_le shorter (Nat.le_of_lt_succ enough))
      refine ⟨done, empty, w ++ v, ?_, ?_, ?_⟩
      · rw [more, writes, List.append_assoc]
      · rw [List.map_append]
        exact (permV.append_left _).trans perm
      · intro e mem
        rcases List.mem_append.mp mem with first | second
        · exact parents e first
        · exact parentsV e second
    case isFalse stuck =>
      have none : s.insertq = [] := by
        by_contra some
        exact stuck (pass_adds (exists_ready drops closed consistent inside some))
      have finished : (pass tree s.insertq s).2.1 = [] := by
        rw [none] at sub ⊢
        exact List.sublist_nil.mp sub
      rw [finished] at perm queue ⊢
      exact ⟨queue, rfl, w, writes, by simpa using perm, parents⟩

/-- Every node of the tree is queued, in any order. The nodes written before have ids of their
own, and the table holds records of these nodes and of deleted ones only. -/
structure Queued (tree : LocalTree Ref) (nodes : List Ref) (s : StateTable Ref) : Prop where
  all : s.insertq.Perm nodes
  distinct : ∀ l ∈ nodes, ∀ k ∈ nodes, s.dbid l ≠ 0 → s.dbid l = s.dbid k → l = k
  owned : ∀ id, (s.table.records id).isSome → id ∈ s.deleteq ∨ ∃ l ∈ nodes, s.dbid l = id ∧ id ≠ 0
  bounded : ∀ l ∈ nodes, s.dbid l < s.table.nextid + 16
  aligned : s.table.nextid % 16 = 0
  room : s.table.nextid + 16 * nodes.length < 2 ^ 32

theorem foldl_del (ids : List Nat) (t : DbTable) : (ids.foldl DbTable.del t).nextid = t.nextid ∧
    ∀ id, ((ids.foldl DbTable.del t).records id).isSome → id ∉ ids ∧ (t.records id).isSome := by
  induction ids generalizing t with
  | nil => exact ⟨rfl, fun _ some => ⟨List.not_mem_nil, some⟩⟩
  | cons k ids ih =>
    obtain ⟨nextid, records⟩ := ih (t.del k)
    refine ⟨nextid, fun id some => ?_⟩
    obtain ⟨later, before⟩ := records id some
    rw [DbTable.del] at before
    by_cases same : id = k
    · rw [same] at before
      simp at before
    · refine ⟨?_, by simpa [Function.update_of_ne same] using before⟩
      rw [List.mem_cons, not_or]
      exact ⟨same, later⟩

omit [DecidableEq Ref] in
/-- After the deletions only the queued nodes are left. -/
theorem Queued.consistent (queued : Queued tree nodes s) :
    Consistent tree nodes s.insertq
      { s with table := s.deleteq.foldl DbTable.del s.table, deleteq := [] } := by
  obtain ⟨nextid, records⟩ := foldl_del s.deleteq s.table
  constructor
  · exact fun l mem done => (done (queued.all.mem_iff.mpr mem)).elim
  · exact queued.distinct
  · intro id some
    obtain ⟨kept, before⟩ := records id some
    exact (queued.owned id before).resolve_left kept
  · intro l mem
    rw [nextid]
    exact queued.bounded l mem
  · rw [nextid]
    exact queued.aligned
  · rw [nextid, queued.all.length_eq]
    exact queued.room

/-- With every node of the tree queued, `cachenodes` empties the queue, writes every node once
and none before its parent has an id. -/
theorem cachenodes_spec {depth : Ref → Nat}
    (drops : ∀ l ∈ nodes, ∀ p, tree.parent l = some p → depth p < depth l)
    (closed : ∀ l ∈ nodes, ∀ p, tree.parent l = some p → p ∈ nodes)
    (queued : Queued tree nodes s) (unique : nodes.Nodup) :
    Consistent tree nodes [] (cachenodes tree true s) ∧ (cachenodes tree true s).insertq = [] ∧
      ∃ w, (cachenodes tree true s).writes = s.writes ++ w ∧ (w.map Prod.fst).Perm s.insertq ∧
        ∀ e ∈ w, tree.parent e.1 = none ∨ e.2 ≠ 0 := by
  rw [cachenodes]
  split
  case isTrue =>
    exact rounds_spec drops closed queued.consistent (fun l mem => queued.all.mem_iff.mp mem)
      (queued.all.nodup_iff.mpr unique) (Nat.lt_succ_self _)
  case isFalse idle =>
    rw [not_and, not_or, not_not, not_not] at idle
    obtain ⟨kept, none⟩ := idle rfl
    have consistent := queued.consistent
    rw [kept, none] at consistent
    have nothing : Consistent tree nodes [] s := ⟨consistent.written, consistent.distinct,
      consistent.owned, consistent.bounded, consistent.aligned, consistent.room⟩
    exact ⟨nothing, none, [], by simp, by simp [none], by simp⟩

end StateTable

/-- A name that holds no separator, of whole characters of the separator's width. -/
structure Component (sep name : Bytes) : Prop where
  nonempty : name ≠ []
  whole : sep.length ∣ name.length
  free : ∀ k, k * sep.length < name.length → (name.drop (k * sep.length)).take sep.length ≠ sep

section Paths

variable {sep path name : Bytes}

theorem nameOffset_eq (some : sep ≠ []) (rooted : path ≠ [])
    (free : ∀ k, k * sep.length < name.length → (name.drop (k * sep.length)).take sep.length ≠ sep)
    (chunks fuel : Nat) (inside : chunks * sep.length ≤ name.length) (enough : chunks < fuel) :
    nameOffset sep (path ++ sep ++ name) fuel (path.length + sep.length + chunks * sep.length) =
      path.length + sep.length := by
  have positive : 0 < sep.length := List.length_pos_iff.mpr some
  have start : 0 < path.length := List.length_pos_iff.mpr rooted
  induction chunks generalizing fuel with
  | zero =>
    obtain ⟨fuel, rfl⟩ : ∃ n, fuel = n + 1 := ⟨fuel - 1, by omega⟩
    have back : path.length + sep.length + 0 * sep.length - sep.length = path.length := by omega
    rw [nameOffset, back, if_neg (by omega), List.append_assoc, List.drop_left,
      List.take_left, if_pos rfl]
  | succ chunks ih =>
    obtain ⟨fuel, rfl⟩ : ∃ n, fuel = n + 1 := ⟨fuel - 1, by omega⟩
    have back : path.length + sep.length + (chunks + 1) * sep.length - sep.length =
        path.length + sep.length + chunks * sep.length := by
      rw [Nat.succ_mul]
      omega
    have less : chunks * sep.length < name.length := by
      rw [Nat.succ_mul] at inside
      omega
    have window : (path ++ sep ++ name).drop (path.length + sep.length + chunks * sep.length) =
        name.drop (chunks * sep.length) := by
      rw [← List.length_append, ← List.drop_drop, List.drop_left]
    rw [nameOffset, back, if_neg (by omega), window, if_neg (free chunks less)]
    exact ih fuel (by omega) (by omega)

/-- The name is cut out of the path again. -/
theorem nameOf_append (some : sep ≠ []) (rooted : path ≠ []) (component : Component sep name) :
    nameOf sep (path ++ sep ++ name) = name := by
  obtain ⟨chunks, whole⟩ := component.whole
  have positive : 0 < sep.length := List.length_pos_iff.mpr some
  have length : (path ++ sep ++ name).length = path.length + sep.length + chunks * sep.length := by
    rw [List.length_append, List.length_append, whole, Nat.mul_comm]
  have few : chunks ≤ chunks * sep.length := Nat.le_mul_of_pos_right chunks positive
  have start : 0 < path.length := List.length_pos_iff.mpr rooted
  have inside : chunks * sep.length ≤ name.length :=
    Nat.le_of_eq ((Nat.mul_comm ..).trans whole.symm)
  have offset := nameOffset_eq some rooted component.free chunks
    (path.length + sep.length + chunks * sep.length) inside (by omega)
  rw [nameOf, length, offset, ← List.length_append, List.drop_left]

end Paths

section Positions

variable {sep : Bytes} {tmap : List CachedNode}

/-- The part of the tree that one record and those below it make up. -/
def branch (sep : Bytes) (tmap : List CachedNode) (maxdepth : Nat) (path : Bytes)
    (position : List Bytes) (l : CachedNode) : List (List Bytes × CachedNode) :=
  (position ++ [l.info.localname], l) ::
    match maxdepth with
    | 0 => []
    | maxdepth + 1 =>
      addstatecachechildren sep tmap maxdepth (UInt32.ofNat l.dbid)
        (path ++ sep ++ l.info.localname) (position ++ [l.info.localname])

/-- Every node keeps its name. -/
theorem addstatecachechildren_eq (some : sep ≠ [])
    (components : ∀ l ∈ tmap, Component sep l.info.localname) {path : Bytes} (rooted : path ≠ [])
    (maxdepth : Nat) (parent : UInt32) (position : List Bytes) :
    addstatecachechildren sep tmap maxdepth parent path position =
      (tmap.filter fun l => l.info.parentDbid = parent).flatMap
        (branch sep tmap maxdepth path position) := by
  rw [addstatecachechildren]
  apply List.flatMap_congr
  intro l mem
  have name := nameOf_append some rooted (components l (List.mem_of_mem_filter mem))
  simp only [name, branch]

/-- The nodes below a position come after it. -/
theorem position_append {maxdepth : Nat} {parent : UInt32} {path : Bytes} {position : List Bytes}
    {x : List Bytes × CachedNode}
    (mem : x ∈ addstatecachechildren sep tmap maxdepth parent path position) :
    ∃ name rel, x.1 = position ++ name :: rel := by
  induction maxdepth generalizing parent path position with
  | zero =>
    rw [addstatecachechildren] at mem
    obtain ⟨l, -, here⟩ := List.mem_flatMap.mp mem
    simp only [List.mem_singleton] at here
    exact ⟨_, [], congrArg Prod.fst here⟩
  | succ maxdepth ih =>
    rw [addstatecachechildren] at mem
    obtain ⟨l, -, here⟩ := List.mem_flatMap.mp mem
    rcases List.mem_cons.mp here with rfl | below
    · exact ⟨_, [], rfl⟩
    · obtain ⟨name, rel, longer⟩ := ih below
      exact ⟨_, name :: rel, by rw [longer, List.append_assoc]; rfl⟩

theorem branch_position {maxdepth : Nat} {path : Bytes} {position : List Bytes} {l : CachedNode}
    {x : List Bytes × CachedNode} (mem : x ∈ branch sep tmap maxdepth path position l) :
    ∃ rel, x.1 = position ++ l.info.localname :: rel := by
  rcases List.mem_cons.mp mem with rfl | below
  · exact ⟨[], rfl⟩
  · cases maxdepth with
    | zero => cases below
    | succ maxdepth =>
      obtain ⟨name, rel, longer⟩ := position_append below
      exact ⟨name :: rel, by rw [longer, List.append_assoc]; rfl⟩

/-- Siblings with different names have nothing in common. -/
theorem disjoint_branches (unique : tmap.Nodup)
    (siblings : ∀ l ∈ tmap, ∀ k ∈ tmap, l.info.parentDbid = k.info.parentDbid →
      l.info.localname = k.info.localname → l = k)
    {maxdepth : Nat} {path : Bytes} {position : List Bytes} {parent : UInt32} :
    (tmap.filter fun l => l.info.parentDbid = parent).Pairwise
      (Function.onFun List.Disjoint (branch sep tmap maxdepth path position)) := by
  refine (unique.filter _).imp_of_mem ?_
  intro l k memL memK other x inL inK
  obtain ⟨relL, atL⟩ := branch_position inL
  obtain ⟨relK, atK⟩ := branch_position inK
  obtain ⟨insideL, parentL⟩ := List.mem_filter.mp memL
  obtain ⟨insideK, parentK⟩ := List.mem_filter.mp memK
  rw [atL, List.append_cancel_left_eq, List.cons.injEq] at atK
  refine other (siblings l insideL k insideK ?_ atK.1)
  rw [of_decide_eq_true parentL, of_decide_eq_true parentK]

/-- No node is placed twice. -/
theorem nodup_addstatecachechildren (some : sep ≠ [])
    (components : ∀ l ∈ tmap, Component sep l.info.localname) (unique : tmap.Nodup)
    (siblings : ∀ l ∈ tmap, ∀ k ∈ tmap, l.info.parentDbid = k.info.parentDbid →
      l.info.localname = k.info.localname → l = k)
    {path : Bytes} (rooted : path ≠ []) (maxdepth : Nat) (parent : UInt32) (position : List Bytes) :
    (addstatecachechildren sep tmap maxdepth parent path position).Nodup := by
  induction maxdepth generalizing parent path position with
  | zero =>
    rw [addstatecachechildren_eq some components rooted, List.nodup_flatMap]
    exact ⟨fun l _ => List.nodup_singleton _, disjoint_branches unique siblings⟩
  | succ maxdepth ih =>
    rw [addstatecachechildren_eq some components rooted, List.nodup_flatMap]
    refine ⟨fun l mem => List.nodup_cons.mpr ⟨fun again => ?_, ?_⟩,
      disjoint_branches unique siblings⟩
    · obtain ⟨name, rel, longer⟩ := position_append again
      have lengths := congrArg List.length longer
      simp at lengths
    · exact ih (by simp [some]) ..

end Positions

namespace LocalTree

variable {Ref : Type u} {tree : LocalTree Ref} {nodes : List Ref} {position : Ref → List Bytes}

/-- The names from the root down to a local node, none for the root. -/
def positionOf (position : Ref → List Bytes) (p : Option Ref) : List Bytes := p.elim [] position

/-- A finite tree below the root of a sync, at most 101 levels deep, with the position of each
of its nodes. -/
structure WellFormed (sep : Bytes) (tree : LocalTree Ref) (nodes : List Ref)
    (position : Ref → List Bytes) : Prop where
  unique : nodes.Nodup
  closed : ∀ l ∈ nodes, ∀ p, tree.parent l = some p → p ∈ nodes
  path : ∀ l ∈ nodes,
    position l = positionOf position (tree.parent l) ++ [(tree.info l).localname]
  shallow : ∀ l ∈ nodes, (position l).length ≤ 101
  siblings : ∀ l ∈ nodes, ∀ k ∈ nodes, tree.parent l = tree.parent k →
    (tree.info l).localname = (tree.info k).localname → l = k
  component : ∀ l ∈ nodes, Component sep (tree.info l).localname
  short : ∀ l ∈ nodes, (tree.info l).localname.length < 65536
  kind : ∀ l ∈ nodes, (tree.info l).type = fileNode ∧ 0 ≤ (tree.info l).size ∨
    (tree.info l).type = folderNode

/-- `l` is below `p`, which is the root if it is `none`. -/
inductive Below (tree : LocalTree Ref) : Option Ref → Ref → Prop
  | child {p l} : tree.parent l = p → Below tree p l
  | step {p k l} : tree.parent k = p → Below tree (some k) l → Below tree p l

namespace WellFormed

variable {sep : Bytes} (wf : WellFormed sep tree nodes position)
include wf

theorem length_position {l : Ref} (mem : l ∈ nodes) :
    (position l).length = (positionOf position (tree.parent l)).length + 1 := by
  rw [wf.path l mem, List.length_append, List.length_singleton]

theorem drops {l p : Ref} (mem : l ∈ nodes) (parent : tree.parent l = some p) :
    (position p).length < (position l).length := by
  rw [wf.length_position mem, parent]
  exact Nat.lt_succ_self _

theorem mem_of_below {p : Option Ref} {l : Ref} (mem : l ∈ nodes) (below : Below tree p l) :
    ∀ k, p = some k → k ∈ nodes := by
  induction below with
  | child parent =>
    intro k eq
    exact wf.closed _ mem k (parent.trans eq)
  | step parent _ ih =>
    intro k eq
    exact wf.closed _ (ih mem _ rfl) k (parent.trans eq)

theorem length_below {p : Option Ref} {l : Ref} (mem : l ∈ nodes) (below : Below tree p l) :
    (positionOf position p).length < (position l).length := by
  induction below with
  | child parent =>
    rw [wf.length_position mem, parent]
    exact Nat.lt_succ_self _
  | step parent deeper ih =>
    have above := wf.length_position (wf.mem_of_below mem deeper _ rfl)
    rw [parent] at above
    have less := ih mem
    rw [positionOf, Option.elim_some] at less
    omega

omit wf in
theorem below_append {p : Option Ref} {k l : Ref} (below : Below tree p k)
    (parent : tree.parent l = some k) : Below tree p l := by
  induction below with
  | child above => exact .step above (.child parent)
  | step above _ ih => exact .step above (ih parent)

theorem below_root {l : Ref} (mem : l ∈ nodes) : Below tree none l := by
  have search : ∀ d l, (position l).length = d → l ∈ nodes → Below tree none l := by
    intro d
    induction d using Nat.strongRecOn with
    | _ d ih =>
      intro l level mem
      cases parent : tree.parent l with
      | none => exact .child parent
      | some p =>
        have less := wf.drops mem parent
        rw [level] at less
        exact below_append (ih _ less p rfl (wf.closed l mem p parent)) parent
  exact search _ l rfl mem

end WellFormed

end LocalTree

section Rebuilding

open StateTable LocalTree

variable {Ref : Type u} {sep : Bytes} {tree : LocalTree Ref} {nodes : List Ref}
  {position : Ref → List Bytes} {dbid : Ref → Nat} {tmap : List CachedNode}
  {loaded : Ref → CachedNode}

/-- The nodes of a table, each read as `loaded` says. -/
structure Loads (tree : LocalTree Ref) (nodes : List Ref) (dbid : Ref → Nat)
    (tmap : List CachedNode) (loaded : Ref → CachedNode) : Prop where
  mem : ∀ c, c ∈ tmap ↔ ∃ l ∈ nodes, loaded l = c
  unique : tmap.Nodup
  id : ∀ l, (loaded l).dbid = dbid l
  name : ∀ l ∈ nodes, (loaded l).info.localname = (tree.info l).localname
  parentId : ∀ l ∈ nodes,
    (loaded l).info.parentDbid = UInt32.ofNat (idOf dbid (tree.parent l))
  fits : ∀ l ∈ nodes, dbid l < 2 ^ 32
  nonzero : ∀ l ∈ nodes, dbid l ≠ 0
  distinct : ∀ l ∈ nodes, ∀ k ∈ nodes, dbid l = dbid k → l = k

variable (wf : WellFormed sep tree nodes position) (loads : Loads tree nodes dbid tmap loaded)
include wf loads

/-- The parent id of a record tells the parent. -/
theorem parent_eq_iff {l : Ref} (mem : l ∈ nodes) {p : Option Ref}
    (inside : ∀ k, p = some k → k ∈ nodes) :
    (loaded l).info.parentDbid = UInt32.ofNat (idOf dbid p) ↔ tree.parent l = p := by
  rw [loads.parentId l mem]
  refine ⟨fun same => ?_, fun same => by rw [same]⟩
  have bound : ∀ q : Option Ref, (∀ k, q = some k → k ∈ nodes) → idOf dbid q < 2 ^ 32 := by
    intro q inside
    cases q with
    | none => exact Nat.two_pow_pos 32
    | some k => exact loads.fits k (inside k rfl)
  have equal := congrArg UInt32.toNat same
  rw [UInt32.toNat_ofNat_of_lt' (bound _ (wf.closed l mem)),
    UInt32.toNat_ofNat_of_lt' (bound _ inside)] at equal
  cases parent : tree.parent l with
  | none =>
    cases p with
    | none => rfl
    | some k =>
      rw [parent] at equal
      exact (loads.nonzero k (inside k rfl) equal.symm).elim
  | some q =>
    rw [parent] at equal
    have known := wf.closed l mem q parent
    cases p with
    | none => exact (loads.nonzero q known equal).elim
    | some k => rw [loads.distinct q known k (inside k rfl) equal]

theorem Loads.components : ∀ c ∈ tmap, Component sep c.info.localname := by
  intro c mem
  obtain ⟨l, inside, rfl⟩ := (loads.mem c).mp mem
  rw [loads.name l inside]
  exact wf.component l inside

theorem Loads.siblings : ∀ c ∈ tmap, ∀ e ∈ tmap, c.info.parentDbid = e.info.parentDbid →
    c.info.localname = e.info.localname → c = e := by
  intro c memC e memE sameParent sameName
  obtain ⟨l, memL, rfl⟩ := (loads.mem c).mp memC
  obtain ⟨k, memK, rfl⟩ := (loads.mem e).mp memE
  rw [loads.parentId k memK, parent_eq_iff wf loads memL (wf.closed k memK)] at sameParent
  rw [loads.name l memL, loads.name k memK] at sameName
  rw [wf.siblings l memL k memK sameParent sameName]

/-- One level of the recursion: each child of `p`, and what is below that child. -/
theorem mem_addstatecachechildren_succ (separator : sep ≠ []) {maxdepth : Nat} {path : Bytes}
    (rooted : path ≠ []) {p : Option Ref} (inside : ∀ k, p = some k → k ∈ nodes)
    {x : List Bytes × CachedNode} :
    x ∈ addstatecachechildren sep tmap maxdepth (UInt32.ofNat (idOf dbid p)) path
        (positionOf position p) ↔
      ∃ k ∈ nodes, tree.parent k = p ∧ (x = (position k, loaded k) ∨
        ∃ less, maxdepth = less + 1 ∧
          x ∈ addstatecachechildren sep tmap less (UInt32.ofNat (idOf dbid (some k)))
            (path ++ sep ++ (tree.info k).localname) (positionOf position (some k))) := by
  rw [addstatecachechildren_eq separator (loads.components wf) rooted, List.mem_flatMap]
  have place : ∀ k ∈ nodes, tree.parent k = p →
      positionOf position p ++ [(loaded k).info.localname] = position k := by
    intro k mem parent
    rw [wf.path k mem, parent, loads.name k mem]
  constructor
  · rintro ⟨c, found, here⟩
    obtain ⟨mem, parent⟩ := List.mem_filter.mp found
    obtain ⟨k, known, rfl⟩ := (loads.mem c).mp mem
    have above := (parent_eq_iff wf loads known inside).mp (of_decide_eq_true parent)
    refine ⟨k, known, above, ?_⟩
    rw [branch.eq_def, place k known above, loads.name k known, loads.id] at here
    rcases List.mem_cons.mp here with self | below
    · exact Or.inl self
    · cases maxdepth with
      | zero => cases below
      | succ less => exact Or.inr ⟨less, rfl, below⟩
  · rintro ⟨k, known, above, here⟩
    refine ⟨loaded k, ?_, ?_⟩
    · exact List.mem_filter.mpr ⟨(loads.mem _).mpr ⟨k, known, rfl⟩,
        decide_eq_true ((parent_eq_iff wf loads known inside).mpr above)⟩
    · rw [branch.eq_def, place k known above, loads.name k known, loads.id]
      rcases here with rfl | ⟨less, rfl, below⟩
      · exact List.mem_cons_self
      · exact List.mem_cons_of_mem _ below

/-- What is placed below `p` are the nodes below `p`, down to the depth that is left. -/
theorem mem_addstatecachechildren (separator : sep ≠ []) (maxdepth : Nat) {path : Bytes}
    (rooted : path ≠ []) {p : Option Ref} (inside : ∀ k, p = some k → k ∈ nodes)
    {x : List Bytes × CachedNode} :
    x ∈ addstatecachechildren sep tmap maxdepth (UInt32.ofNat (idOf dbid p)) path
        (positionOf position p) ↔
      ∃ l ∈ nodes, Below tree p l ∧
        (position l).length ≤ (positionOf position p).length + maxdepth + 1 ∧
          x = (position l, loaded l) := by
  induction maxdepth generalizing p path x with
  | zero =>
    rw [mem_addstatecachechildren_succ wf loads separator rooted inside]
    constructor
    · rintro ⟨k, known, above, here⟩
      rcases here with rfl | ⟨less, no, -⟩
      · refine ⟨k, known, .child above, ?_, rfl⟩
        have level := wf.length_position known
        rw [above] at level
        omega
      · cases no
    · rintro ⟨l, known, below, near, rfl⟩
      cases below with
      | child above => exact ⟨l, known, above, Or.inl rfl⟩
      | step above deeper =>
        have one := wf.length_position (wf.mem_of_below known deeper _ rfl)
        have two := wf.length_below known deeper
        rw [above] at one
        rw [positionOf, Option.elim_some] at two
        omega
  | succ maxdepth ih =>
    rw [mem_addstatecachechildren_succ wf loads separator rooted inside]
    constructor
    · rintro ⟨k, known, above, here⟩
      have level := wf.length_position known
      rw [above] at level
      rcases here with rfl | ⟨less, eq, more⟩
      · exact ⟨k, known, .child above, by omega, rfl⟩
      · cases eq
        have self : ∀ j, some k = some j → j ∈ nodes := fun j eq => Option.some.inj eq ▸ known
        obtain ⟨l, inner, below, near, rfl⟩ := (ih (by simp [separator]) self).mp more
        refine ⟨l, inner, .step above below, ?_, rfl⟩
        rw [positionOf, Option.elim_some] at near
        omega
    · rintro ⟨l, known, below, near, rfl⟩
      cases below with
      | child above => exact ⟨l, known, above, Or.inl rfl⟩
      | @step _ k _ above deeper =>
        have between := wf.mem_of_below known deeper
        have level := wf.length_position (between k rfl)
        rw [above] at level
        refine ⟨k, between k rfl, above, Or.inr ⟨maxdepth, rfl, ?_⟩⟩
        refine (ih (by simp [separator]) between).mpr ⟨l, known, deeper, ?_, rfl⟩
        rw [positionOf, Option.elim_some]
        omega

/-- The rebuilt tree: every node once, in its place. -/
theorem addstatecachechildren_perm (separator : sep ≠ []) {rootpath : Bytes}
    (rooted : rootpath ≠ []) :
    (addstatecachechildren sep tmap 100 0 rootpath []).Perm
      (nodes.map fun l => (position l, loaded l)) := by
  have inside : ∀ k, (none : Option Ref) = some k → k ∈ nodes := fun k no => by cases no
  refine (List.perm_ext_iff_of_nodup ?_ ?_).mpr ?_
  · exact nodup_addstatecachechildren separator (loads.components wf) loads.unique
      (loads.siblings wf) rooted 100 0 []
  · refine wf.unique.map_on ?_
    intro l memL k memK same
    refine loads.distinct l memL k memK ?_
    rw [← loads.id, ← loads.id, (Prod.mk.inj same).2]
  · intro x
    refine (mem_addstatecachechildren wf loads separator 100 rooted inside).trans ?_
    rw [List.mem_map]
    constructor
    · rintro ⟨l, known, -, -, rfl⟩
      exact ⟨l, known, rfl⟩
    · rintro ⟨l, known, rfl⟩
      refine ⟨l, known, wf.below_root known, ?_, rfl⟩
      have near := wf.shallow l known
      omega

end Rebuilding

namespace StateTable

open LocalTree

variable {Ref : Type u} {sep : Bytes} {tree : LocalTree Ref} {nodes : List Ref}
  {position : Ref → List Bytes} {s : StateTable Ref} {known : Handle → Bool}
  {beyond : Nat → Bytes} {records : List (Nat × Bytes)}

def loaded (known : Handle → Bool) (beyond : Nat → Bytes) (tree : LocalTree Ref)
    (dbid : Ref → Nat) (l : Ref) : CachedNode where
  dbid := dbid l
  info :=
    match LocalRecord.unserialize known (beyond (dbid l)) (record tree dbid l) with
    | .ok info => info
    | _ => written tree dbid l

/-- The node at the other end is present, and no node has the handle that stands for none. -/
structure Associated (known : Handle → Bool) (tree : LocalTree Ref) (nodes : List Ref) : Prop where
  present : ∀ l ∈ nodes, ∀ h, (tree.info l).node = some h → known h = true
  absent : ∀ l ∈ nodes, (tree.info l).node = none → known undefHandle = false

theorem loaded_same (wf : WellFormed sep tree nodes position)
    (associated : Associated known tree nodes) (beyond : Nat → Bytes) (dbid : Ref → Nat) {l : Ref}
    (mem : l ∈ nodes) :
    LocalRecord.unserialize known (beyond (dbid l)) (record tree dbid l) =
        .ok (loaded known beyond tree dbid l).info ∧
      (written tree dbid l).Same (loaded known beyond tree dbid l).info := by
  have kind : (written tree dbid l).type = fileNode ∨ (written tree dbid l).type = folderNode :=
    (wf.kind l mem).imp_left And.left
  have sized : ¬((written tree dbid l).type = fileNode ∧ (written tree dbid l).size = -1) := by
    rintro ⟨file, size⟩
    rcases wf.kind l mem with ⟨-, positive⟩ | folder
    · have minus : (tree.info l).size = -1 := size
      rw [minus] at positive
      exact absurd positive (by decide)
    · have other : (tree.info l).type = fileNode := file
      rw [folder] at other
      exact absurd other (by decide)
  obtain ⟨m, result, same⟩ : ∃ m, LocalRecord.unserialize known (beyond (dbid l))
      (record tree dbid l) = .ok m ∧ (written tree dbid l).Same m :=
    LocalRecord.unserialize_same kind (wf.short l mem) (associated.present l mem) sized
      (associated.absent l mem)
  have info : (loaded known beyond tree dbid l).info = m := by
    rw [loaded, result]
  rw [info]
  exact ⟨result, same⟩

theorem mem_bulkLoad {c : CachedNode} : c ∈ bulkLoad known beyond records ↔
    ∃ id data, (id, data) ∈ records ∧ c.dbid = id ∧
      LocalRecord.unserialize known (beyond id) data = .ok c.info := by
  rw [bulkLoad, List.mem_filterMap]
  constructor
  · rintro ⟨⟨id, data⟩, mem, read⟩
    refine ⟨id, data, mem, ?_⟩
    simp only at read
    split at read
    case h_1 info ok =>
      obtain rfl := Option.some.inj read
      exact ⟨rfl, ok⟩
    case h_2 => cases read
  · rintro ⟨id, data, mem, rfl, read⟩
    exact ⟨(c.dbid, data), mem, by simp only [read]⟩

theorem nodup_bulkLoad (once : (records.map Prod.fst).Nodup) :
    (bulkLoad known beyond records).Nodup := by
  have ids : ((bulkLoad known beyond records).map CachedNode.dbid).Sublist (records.map Prod.fst) := by
    clear once
    induction records with
    | nil => exact .slnil
    | cons entry records ih =>
      rw [bulkLoad, List.filterMap_cons]
      split
      case h_1 => exact ih.cons _
      case h_2 c read =>
        have id : c.dbid = entry.1 := by
          simp only at read
          split at read
          case h_1 => rw [← Option.some.inj read]
          case h_2 => cases read
        rw [List.map_cons, List.map_cons, id]
        exact ih.cons_cons _
  exact (once.sublist ids).of_map

/-- The table after `cachenodes` holds the tree. -/
theorem Consistent.loads (wf : WellFormed sep tree nodes position)
    (associated : Associated known tree nodes) (consistent : Consistent tree nodes [] s)
    (listed : ∀ id data, (id, data) ∈ records ↔ s.table.records id = some data)
    (once : (records.map Prod.fst).Nodup) :
    Loads tree nodes s.dbid (bulkLoad known beyond records) (loaded known beyond tree s.dbid) := by
  have read := fun l (mem : l ∈ nodes) => loaded_same wf associated beyond s.dbid mem
  have done := fun l mem => consistent.written l mem List.not_mem_nil
  constructor
  · intro c
    rw [mem_bulkLoad]
    constructor
    · rintro ⟨id, data, mem, own, ok⟩
      have stored := (listed id data).mp mem
      obtain ⟨l, inside, rfl, -⟩ := consistent.owned id (by rw [stored]; rfl)
      rw [(done l inside).2.1] at stored
      obtain rfl := Option.some.inj stored
      rw [(read l inside).1] at ok
      refine ⟨l, inside, ?_⟩
      obtain ⟨dbid, info⟩ := c
      cases ok
      cases own
      rfl
    · rintro ⟨l, inside, rfl⟩
      exact ⟨s.dbid l, record tree s.dbid l, (listed _ _).mpr (done l inside).2.1, rfl,
        (read l inside).1⟩
  · exact nodup_bulkLoad once
  · exact fun l => rfl
  · exact fun l mem => (read l mem).2.localname
  · exact fun l mem => (read l mem).2.parentDbid
  · intro l mem
    have below := consistent.bounded l mem
    have aligned := consistent.aligned
    have room := consistent.room
    omega
  · exact fun l mem => (done l mem).1
  · exact fun l memL k memK => consistent.distinct l memL k memK (done l memL).1

variable [DecidableEq Ref]

/-- `cachenodes` empties the queue, writing every node once and none before its parent has an id,
and from the table, in whatever order it is read, `readstatecache` rebuilds the tree: every node
stands at its position and is as it was, folders without their size and fingerprint. -/
theorem readstatecache_cachenodes {rootpath : Bytes} (separator : sep ≠ []) (rooted : rootpath ≠ [])
    (wf : WellFormed sep tree nodes position) (associated : Associated known tree nodes)
    (queued : Queued tree nodes s)
    (listed : ∀ id data,
      (id, data) ∈ records ↔ (cachenodes tree true s).table.records id = some data)
    (once : (records.map Prod.fst).Nodup) :
    (cachenodes tree true s).insertq = [] ∧
      (∃ w, (cachenodes tree true s).writes = s.writes ++ w ∧ (w.map Prod.fst).Perm nodes ∧
        ∀ e ∈ w, tree.parent e.1 = none ∨ e.2 ≠ 0) ∧
      ∃ loaded : Ref → CachedNode,
        (readstatecache known beyond sep rootpath records).Perm
            (nodes.map fun l => (position l, loaded l)) ∧
          ∀ l ∈ nodes, (written tree (cachenodes tree true s).dbid l).Same (loaded l).info := by
  obtain ⟨consistent, empty, w, writes, perm, parents⟩ :=
    cachenodes_spec (fun l mem p parent => wf.drops mem parent) wf.closed queued wf.unique
  refine ⟨empty, ⟨w, writes, perm.trans queued.all, parents⟩,
    loaded known beyond tree (cachenodes tree true s).dbid, ?_, ?_⟩
  · exact addstatecachechildren_perm wf (consistent.loads wf associated listed once) separator rooted
  · exact fun l mem => (loaded_same wf associated beyond _ mem).2

end StateTable

namespace StateSample

open StateTable

/-- A folder with a file in it, of which the file is queued before the folder. -/
def tree : LocalTree Bool where
  info
    | false => {
        type := folderNode, size := -1, fsid := 5, parentDbid := 0, node := some 9
        localname := ascii "d", crc := Vector.replicate 4 0, mtime := 0 }
    | true => {
        type := fileNode, size := 12, fsid := 6, parentDbid := 0, node := none
        localname := ascii "a", crc := Vector.replicate 4 77, mtime := 1400000000 }
  parent
    | false => none
    | true => some false

def position : Bool → List Bytes
  | false => [ascii "d"]
  | true => [ascii "d", ascii "a"]

def start : StateTable Bool := ⟨fun _ => 0, ⟨fun _ => none, 0⟩, [true, false], [], []⟩

def known (h : Handle) : Bool := h == 9

def records : List (Nat × Bytes) :=
  [true, false].map fun l =>
    ((cachenodes tree true start).dbid l, record tree (cachenodes tree true start).dbid l)

theorem wellFormed : LocalTree.WellFormed (ascii "/") tree [true, false] position := by
  have component : ∀ name : Bytes, name.length = 1 → name ≠ ascii "/" →
      Component (ascii "/") name := by
    intro name one other
    have nonempty : name ≠ [] := List.ne_nil_of_length_eq_add_one one
    refine ⟨nonempty, ⟨1, one⟩, fun k inside => ?_⟩
    have first : k = 0 := by
      rw [one] at inside
      change k * 1 < 1 at inside
      omega
    rw [first, Nat.zero_mul, List.drop_zero]
    exact fun same => other ((List.take_of_length_le (Nat.le_of_eq one)).symm.trans same)
  constructor
  · decide
  · decide
  · decide
  · decide
  · decide
  · intro l _
    cases l
    · exact component _ (by decide) (by decide)
    · exact component _ (by decide) (by decide)
  · decide
  · decide

theorem queued : Queued tree [true, false] start where
  all := List.Perm.refl _
  distinct := fun l _ k _ some => absurd rfl some
  owned := fun id some => absurd some (by simp [start])
  bounded := fun l _ => Nat.succ_pos _
  aligned := rfl
  room := by decide

/-- The folder got the first id and the file the second. -/
theorem table_records : (cachenodes tree true start).table.records =
    Function.update (Function.update (fun _ => none)
      19 (some (record tree (fun _ => 0) false)))
      35 (some (record tree (Function.update (fun _ => 0) false 19) true)) := by
  rfl

theorem listed (id : Nat) (data : Bytes) : (id, data) ∈ records ↔
    (cachenodes tree true start).table.records id = some data := by
  have both : records = [(35, record tree (Function.update (fun _ => 0) false 19) true),
      (19, record tree (fun _ => 0) false)] := by
    rfl
  rw [table_records, both]
  by_cases file : id = 35
  · subst file
    simp [eq_comm]
  · by_cases folder : id = 19
    · subst folder
      simp [eq_comm]
    · simp [Function.update_of_ne, file, folder]

/-- The sample is rebuilt from the record of the file and that of the folder. -/
theorem readstatecache_sample :
    (cachenodes tree true start).writes = [(false, 0), (true, 19)] ∧
      ∃ loaded : Bool → CachedNode,
        (readstatecache known (fun _ => []) (ascii "/") (ascii "/sync") records).Perm
          ([true, false].map fun l => (position l, loaded l)) := by
  have associated : Associated known tree [true, false] := by
    constructor
    · intro l _ h at9
      cases l with
      | false =>
        obtain rfl := Option.some.inj at9
        decide
      | true => cases at9
    · decide
  have once : (records.map Prod.fst).Nodup := by
    change [35, 19].Nodup
    decide
  have rooted : ascii "/sync" ≠ [] := by decide
  obtain ⟨-, -, loaded, perm, -⟩ :=
    readstatecache_cachenodes (by decide) rooted wellFormed associated queued listed once
  exact ⟨rfl, loaded, perm⟩

/-- The folder had the size -1 of a fingerprint that was never taken; it comes back with 0. -/
theorem folder_resized :
    LocalTree.WellFormed (ascii "/") tree [true, false] position ∧ Queued tree [true, false] start ∧
      ¬∃ loaded : Bool → CachedNode,
        (readstatecache known (fun _ => []) (ascii "/") (ascii "/sync") records).Perm
            ([true, false].map fun l => (position l, loaded l)) ∧
          ∀ l, (loaded l).info.size = (tree.info l).size := by
  refine ⟨wellFormed, queued, ?_⟩
  rintro ⟨loaded, perm, sizes⟩
  have read : (readstatecache known (fun _ => []) (ascii "/") (ascii "/sync") records).map
      (fun x => x.2.info.size) = [0, 12] := by
    decide +kernel
  have lost : (-1 : Int64) ∈ [(0 : Int64), 12] := by
    rw [← read, ← show (tree.info false).size = -1 from rfl, ← sizes false]
    refine List.mem_map.mpr ⟨(position false, loaded false), perm.mem_iff.mpr ?_, rfl⟩
    exact List.mem_map.mpr ⟨false, by simp, rfl⟩
  exact absurd lost (by decide)

end StateSample

end MegaSdk.Sync
