import Mathlib.Data.List.Dedup
import Mathlib.Data.List.Sort
import MegaSdk.Sync.CreationBatches

/-!
# The passes over a synced folder

`syncdown` compares the children of a local folder with those of its remote folder and goes down
into folders of one name; then it moves, fetches or creates what is missing. `syncup` afterwards
lists what the remote side lacks. Treestates, the state cache and short names are left out.
-/

namespace MegaSdk.Sync

/-- What an attempt to change the local file system comes to. -/
inductive FsAnswer where
  | done
  | transient
  | failed
  deriving DecidableEq

/-- What `checkpath` finds in the place of a folder that was just made: nothing that can be
opened, the child of that name (in a full scan), the file system id of another `LocalNode`, or a
new item. -/
inductive FoundFolder where
  | missing
  | child (k : LocalRef)
  | moved (k : LocalRef)
  | new (k : LocalRef)

/-- What the engine meets with: the application, the file system, and the access rights, which are
asked again for every answer. Neither tree has more than `levels` levels. -/
structure Surroundings where
  levels : Nat
  debris : Bytes
  syncable : NodeRef → Bool
  renamelocal : Nat → FsAnswer
  mkdirlocal : Nat → FsAnswer
  movetolocaldebris : Nat → FsAnswer
  changed : Nat → Bool
  checkpath : Nat → FoundFolder
  permitted : Nat → Bool
  transfer : LocalRef → Bool
  nagling : LocalRef → Bool
  disk : LocalRef → Option (Int × Int)
  syncid : LocalRef → UInt64
  nodehandle : NodeRef → UInt64
  fingerprints : FileFingerprint → Option NodeRef

/-- Both trees with their association, and the nodes that are being fetched. `movedLocals` and
`movedNodes` have all that changed their places, were made or destroyed. -/
structure Sides where
  heap : Heap
  children : LocalRef → List (Bytes × LocalRef)
  localname : LocalRef → Bytes
  remote : NodeRef → List NodeRef
  attrName : NodeRef → Option Bytes
  undecrypted : NodeRef → Bool
  gets : List NodeRef
  asked : Nat
  movedLocals : List LocalRef
  movedNodes : List NodeRef

def atMost : Bytes → Bytes → Bool
  | [], _ => true
  | _ :: _, [] => false
  | a :: as, b :: bs => if a = b then atMost as bs else a < b

/-- A loop of `syncdown`: the remote children that are left, and whether nothing is retried. -/
structure Pass where
  sides : Sides
  nchildren : ChildTable
  success : Bool

namespace Sides
variable (env : Surroundings) (s : Sides)

def ask : Sides := { s with asked := s.asked + 1 }

def name (l : LocalRef) : Bytes := local2name (s.localname l)

def parentOf (l : LocalRef) : Option LocalRef := (s.heap.locals l).bind fun ll => ll.data.parent

def entry (n : NodeRef) : RemoteEntry := ⟨n, s.attrName n, s.undecrypted n, env.syncable n⟩

def entries (l : LocalRef) : List RemoteEntry :=
  ((s.heap.nodeOf l).elim [] s.remote).map (s.entry env)

/-- A node at or above it has a `LocalNode`. -/
def synced : Nat → NodeRef → Bool
  | 0, n => (s.heap.localOf n).isSome
  | levels + 1, n => (s.heap.localOf n).isSome ||
      ((s.heap.nodes n).bind fun node => node.data.parent).any (synced levels)

def subtree : Nat → NodeRef → List NodeRef
  | 0, n => [n]
  | levels + 1, n => n :: (s.remote n).flatMap (subtree levels)

/-- `TreeProcDelSyncGet`. -/
def cancelGets (ns : List NodeRef) : Sides :=
  { s with
    heap := ns.foldl Heap.clearSyncget s.heap
    gets := s.gets.filter (· ∉ ns) }

/-- `Node::setparent` with another parent. -/
def setparent (n : NodeRef) (node : Node) (p : NodeRef) : Sides :=
  let moved : Sides :=
    { s with
      heap := s.heap.modifyNode n fun node =>
        { node with data := { node.data with parent := some p } }
      remote := fun q =>
        if q = p then s.remote q ++ [n]
        else if node.data.parent = some q then (s.remote q).filter (· ≠ n)
        else s.remote q
      movedNodes := n :: s.movedNodes }
  if (node.localnode.all fun l => (s.parentOf l).isSome) && !moved.synced env.levels p then
    moved.cancelGets (moved.subtree env.levels n)
  else moved

def rename (n p : NodeRef) : Sides :=
  match s.heap.nodes n with
  | none => s
  | some node =>
    if env.permitted s.asked && node.data.parent ≠ some p then
      let moved := s.ask.setparent env n node p
      { moved with heap := moved.heap.notifynode n }
    else s.ask

/-- A new name, as far as `setattr` tells the client of it. -/
def setattrName (n : NodeRef) (name : Bytes) : Sides :=
  let named : Sides := { s.ask with attrName := Function.update s.attrName n (some name) }
  if env.permitted s.asked then { named with heap := named.heap.notifynode n } else named

/-- A `LocalNode` leaves the children of its parent. -/
def unlink (k : LocalRef) : Sides :=
  match s.parentOf k with
  | none => s
  | some p =>
    { s with
      children := Function.update s.children p ((s.children p).filter (·.1 ≠ s.localname k))
      movedLocals := ((s.children p).filter (·.1 = s.localname k)).map (·.2) ++ s.movedLocals }

/-- A `LocalNode` takes its place among the children of a folder. -/
def link (k p : LocalRef) : Sides :=
  { s with
    children := Function.update s.children p
      (((s.children p).filter (·.1 ≠ s.localname k)).orderedInsert (atMost ·.1 ·.1)
        (s.localname k, k))
    movedLocals := k :: ((s.children p).filter (·.1 = s.localname k)).map (·.2) ++ s.movedLocals }

def setLocalname (k : LocalRef) (localname : Bytes) : Sides :=
  if s.localname k = localname then s
  else
    let named : Sides := { s with
      localname := Function.update s.localname k localname
      movedLocals := k :: s.movedLocals }
    match s.heap.nodeOf k with
    | none => named
    | some n =>
      if s.attrName n = some (local2name localname) then named
      else named.setattrName env n (local2name localname)

def setLocalparent (k p : LocalRef) : Sides :=
  if s.parentOf k = some p then s
  else
    let moved : Sides := { s with
      heap := s.heap.modifyLocal k fun ll => { ll with data := { ll.data with parent := some p } } }
    match s.heap.nodeOf k, s.heap.nodeOf p with
    | some n, some m => moved.rename env n m
    | _, _ => moved

/-- `LocalNode::setnameparent`, with the last part of the path. -/
def setnameparent (k p : LocalRef) (localname : Bytes) : Sides :=
  (((s.unlink k).setLocalname env k localname).setLocalparent env k p).link k p

/-- `~LocalNode` of an active sync. -/
def destroy : Nat → LocalRef → Sides → Sides
  | levels, k, s =>
    let below := match levels with
      | 0 => s.unlink k
      | levels + 1 =>
        (s.children k).foldl (fun s (e : Bytes × LocalRef) => destroy levels e.2 s) (s.unlink k)
    { below with heap := below.heap.deleteLocal false k, movedLocals := k :: below.movedLocals }

/-- `new LocalNode`, a folder without a name. -/
def newFolder (k : LocalRef) : Sides :=
  { s with
    heap := { s.heap with locals := Function.update s.heap.locals k (some
      ⟨⟨folderNode, none, false, ⟨-1, 0, Vector.replicate 4 0, false⟩⟩, none⟩) }
    localname := Function.update s.localname k []
    movedLocals := k :: s.movedLocals }

end Sides

section Syncdown
variable (env : Surroundings) (rubbish : Bool) (recurse : LocalRef → Sides → Sides × Bool)

/-- A local item whose remote counterpart is gone. -/
def removeDeleted (pass : Pass) (k : LocalRef) (file : Bool) : Pass :=
  let s := pass.sides
  if file && env.changed s.asked then
    { pass with sides := { s.ask with heap := s.heap.setDeleted k false } }
  else
    match env.movetolocaldebris s.asked with
    | .transient => { pass with sides := s.ask, success := false }
    | _ => { pass with sides := s.ask.destroy env.levels k }

/-- A round of the first loop. The iterator passes by what has left the folder since. -/
def visitChild (l : LocalRef) (pass : Pass) (e : Bytes × LocalRef) : Pass :=
  let s := pass.sides
  match s.heap.locals e.2 with
  | none => pass
  | some ll =>
    if e ∉ s.children l then pass
    else
      match pass.nchildren (s.name e.2) with
      | none => if rubbish && ll.data.deleted then
          removeDeleted env pass e.2 (ll.data.type = fileNode)
        else pass
      | some r =>
        let item : Sides := { s with heap := s.heap.syncdownItem e.2 r.id }
        let erased := Function.update pass.nchildren (s.name e.2) none
        if (s.heap.nodes r.id).all fun n => n.data.type ≠ ll.data.type then
          { pass with nchildren := erased }
        else if ll.data.type = fileNode then
          ⟨item, if s.heap.drops e.2 r.id then pass.nchildren else erased, pass.success⟩
        else
          ⟨(recurse e.2 item).1, erased, pass.success && (recurse e.2 item).2⟩

/-- The remote children by name; the root of a sync has the debris folder in it. -/
def childHash (l : LocalRef) (s : Sides) : Pass where
  sides := s
  nchildren := s.heap.downTable (s.parentOf l).isNone env.debris (s.entries env l)
  success := true

/-- The first loop of `syncdown`, over the local children. -/
def firstLoop (l : LocalRef) (s : Sides) : Pass :=
  (s.children l).foldl (visitChild env rubbish recurse l) (childHash env l s)

/-- A folder that was just made gets its `LocalNode`. -/
def enterFolder (l k : LocalRef) (r : NodeRef) (localname : Bytes) (s : Sides) : Sides × Bool :=
  recurse k
    (Sides.setnameparent env { s with heap := s.heap.setnode k (some r) } k l localname)

def addFolder (l : LocalRef) (r : NodeRef) (localname : Bytes) (s : Sides) : Sides × Bool :=
  match env.checkpath s.asked with
  | .missing => (s.ask, true)
  | .child k =>
    if (localname, k) ∈ s.children l then enterFolder env recurse l k r localname s.ask
    else (s.ask, true)
  | .moved k =>
    if (s.heap.locals k).isSome then (s.ask.setnameparent env k l localname, true)
    else (s.ask, true)
  | .new k =>
    if (s.heap.locals k).isSome then (s.ask, true)
    else
      enterFolder env recurse l k r localname
        ((s.ask.newFolder k).setnameparent env k l localname)

/-- What is done about a remote child that is left over. -/
def fetchMissing (l : LocalRef) (nchildren : ChildTable) (s : Sides) (key : Bytes) : Sides × Bool :=
  match nchildren key with
  | none => (s, true)
  | some r =>
    match s.heap.nodes r.id, s.attrName r.id with
    | some n, some name =>
      if !env.syncable r.id then (s, true)
      else
        match n.localnode with
        | some k =>
          if (s.parentOf k).isNone then (s, true)
          else
            match env.renamelocal s.asked with
            | .done => (s.ask.setnameparent env k l (name2local name), true)
            | .transient => (s.ask, false)
            | .failed => (s.ask, true)
        | none =>
          if n.data.type = fileNode then
            if n.data.syncget then (s, true)
            else ({ s with heap := s.heap.setSyncget r.id, gets := s.gets ++ [r.id] }, true)
          else
            match env.mkdirlocal s.asked with
            | .done => addFolder env recurse l r.id (name2local name) s.ask
            | .transient => (s.ask, false)
            | .failed => (s.ask, true)
    | _, _ => (s, true)

def fetchRound (l : LocalRef) (nchildren : ChildTable) (done : Sides × Bool) (key : Bytes) :
    Sides × Bool :=
  let more := fetchMissing env recurse l nchildren done.1 key
  (more.1, done.2 && more.2)

/-- The names of the remote children in the order of the map. -/
def tableKeys (entries : List RemoteEntry) : List Bytes :=
  (((entries.filterMap (·.name)).map childKey).insertionSort (atMost · ·)).dedup

/-- The second loop of `syncdown`, over the remote children that are left. -/
def secondLoop (l : LocalRef) (entries : List RemoteEntry) (first : Pass) : Sides × Bool :=
  (tableKeys entries).foldl (fetchRound env recurse l first.nchildren) (first.sides, first.success)

/-- Only for LocalNodes with a corresponding and properly linked Node. -/
def linked (s : Sides) (l : LocalRef) : Bool :=
  (s.heap.locals l).any fun ll => ll.data.type = folderNode && ll.node.any fun n =>
    ll.data.parent.all fun p =>
      ((s.heap.nodes n).bind fun node => node.data.parent).bind s.heap.localOf = some p

end Syncdown

/-- `syncdown`, as far as some levels. -/
def syncdownFrom (env : Surroundings) (rubbish : Bool) : Nat → LocalRef → Sides → Sides × Bool
  | 0, _, s => (s, true)
  | levels + 1, l, s =>
    if linked s l then
      secondLoop env (syncdownFrom env rubbish levels) l (s.entries env l)
        (firstLoop env rubbish (syncdownFrom env rubbish levels) l s)
    else (s, true)

def syncdown (env : Surroundings) (rubbish : Bool) (l : LocalRef) (s : Sides) : Sides × Bool :=
  syncdownFrom env rubbish env.levels l s

namespace Sides
variable (env : Surroundings) (s : Sides)

def item (name : Bytes) (l : LocalRef) : LocalItem where
  entry := ⟨l, name, env.transfer l, env.nagling l, env.disk l⟩
  syncid := env.syncid l

/-- The `LocalNode`s below a folder, under their names. -/
def below : Nat → LocalRef → Children
  | 0, _ => .nil
  | levels + 1, l =>
    (s.children l).foldr
      (fun e next => .cons (item env (local2name e.1) e.2) (below levels e.2) next) .nil

def remoteSide : Remote where
  children n := (s.remote n).map (s.entry env)
  nodehandle := env.nodehandle
  fingerprints := env.fingerprints

/-- What `syncup` of a folder puts into `synccreate`. -/
def synccreate (l : LocalRef) : List LocalRef :=
  (s.heap.syncup (s.remoteSide env) (item env (s.name l) l) (s.below env env.levels l)).2.map
    fun created => created.l.ref

end Sides

namespace Heap

def fileView (h : Heap) (n : NodeRef) : Option (NodeType × FileFingerprint) :=
  (h.nodes n).map fun node => (node.data.type, node.data.file)

theorem Alike.fileView {h h' : Heap} (alike : Alike h h') (n : NodeRef) :
    h'.fileView n = h.fileView n := by
  have fields := congrArg (Option.map fun v => (v.1, v.2.1)) (congrFun alike.nodes n)
  simpa [nodeView, Heap.fileView, Function.comp_def] using fields

def fetching (h : Heap) (n : NodeRef) : Bool := (h.nodes n).any fun node => node.data.syncget

theorem Alike.fetching {h h' : Heap} (alike : Alike h h') (n : NodeRef) :
    h'.fetching n = h.fetching n := by
  have fields := congrArg (Option.any fun v => v.2.2) (congrFun alike.nodes n)
  simpa [nodeView, Heap.fetching, Option.any_map, Function.comp_def] using fields

end Heap

def Sides.Marked (s : Sides) : Prop := ∀ n ∈ s.gets, s.heap.fetching n = true

/-- Files are as they were, and items that did not move are in their places. -/
structure KeepsFiles (s s' : Sides) : Prop where
  types : ∀ n, s'.heap.fileView n = s.heap.fileView n
  files : ∀ k ∉ s'.movedLocals, s'.heap.localView k = s.heap.localView k
  locals : s.movedLocals ⊆ s'.movedLocals
  nodes : s.movedNodes ⊆ s'.movedNodes
  named : ∀ k ∉ s'.movedLocals, s'.localname k = s.localname k
  placed : ∀ k ∉ s'.movedLocals, ∀ f x, (x, k) ∈ s'.children f ↔ (x, k) ∈ s.children f
  remote : ∀ n ∉ s'.movedNodes, ∀ q, n ∈ s'.remote q ↔ n ∈ s.remote q
  marked : s.Marked → s'.Marked

theorem KeepsFiles.refl (s : Sides) : KeepsFiles s s where
  types _ := rfl
  files _ _ := rfl
  locals := List.Subset.refl _
  nodes := List.Subset.refl _
  named _ _ := rfl
  placed _ _ _ _ := Iff.rfl
  remote _ _ _ := Iff.rfl
  marked := id

theorem KeepsFiles.trans {s s' s'' : Sides} (first : KeepsFiles s s') (second : KeepsFiles s' s'') :
    KeepsFiles s s'' where
  types n := (second.types n).trans (first.types n)
  files k still :=
    (second.files k still).trans (first.files k fun moved => still (second.locals moved))
  locals := List.Subset.trans first.locals second.locals
  nodes := List.Subset.trans first.nodes second.nodes
  named k still :=
    (second.named k still).trans (first.named k fun moved => still (second.locals moved))
  placed k still f x := (second.placed k still f x).trans
    (first.placed k (fun moved => still (second.locals moved)) f x)
  remote n still q := (second.remote n still q).trans
    (first.remote n (fun moved => still (second.nodes moved)) q)
  marked := second.marked ∘ first.marked

/-- Nothing else is fetched, and no LocalNode gets another node. -/
structure Relocates (s s' : Sides) : Prop extends KeepsFiles s s' where
  gets : s'.gets ⊆ s.gets
  associated : ∀ k n, s'.heap.nodeOf k = some n → s.heap.nodeOf k = some n

theorem Relocates.refl (s : Sides) : Relocates s s :=
  ⟨.refl s, List.Subset.refl _, fun _ _ => id⟩

theorem Relocates.trans {s s' s'' : Sides} (first : Relocates s s') (second : Relocates s' s'') :
    Relocates s s'' where
  toKeepsFiles := first.toKeepsFiles.trans second.toKeepsFiles
  gets := List.Subset.trans second.gets first.gets
  associated k n := first.associated k n ∘ second.associated k n

theorem keeps_heap (s : Sides) {h : Heap} (alike : Heap.Alike s.heap h) (asked : Nat) :
    KeepsFiles s { s with heap := h, asked := asked } where
  types := alike.fileView
  files k _ := congrFun alike.locals k
  locals := List.Subset.refl _
  nodes := List.Subset.refl _
  named _ _ := rfl
  placed _ _ _ _ := Iff.rfl
  remote _ _ _ := Iff.rfl
  marked marked n mem := (alike.fetching n).trans (marked n mem)

theorem moves_heap (s : Sides) {h : Heap} (alike : Heap.Alike s.heap h)
    (weaker : ∀ k n, h.nodeOf k = some n → s.heap.nodeOf k = some n) (asked : Nat) :
    Relocates s { s with heap := h, asked := asked } :=
  ⟨keeps_heap s alike asked, List.Subset.refl _, weaker⟩

theorem moves_ask (s : Sides) : Relocates s s.ask := moves_heap s (.refl s.heap) (fun _ _ => id) _

namespace Heap

theorem nodeOf_unlink {h : Heap} {n : NodeRef} {k : LocalRef} {m : NodeRef}
    (points : (h.unlink n).nodeOf k = some m) : h.nodeOf k = some m := by
  unfold unlink at points
  split at points
  · exact points
  · rw [nodeOf_setLocalnode, nodeOf_clear, Function.update_apply] at points
    split at points
    · cases points
    · exact points

theorem nodeOf_notifynode {h : Heap} {n : NodeRef} {k : LocalRef} {m : NodeRef}
    (points : (h.notifynode n).nodeOf k = some m) : h.nodeOf k = some m := by
  unfold notifynode at points
  split at points
  · exact points
  · split at points
    · split at points
      · exact points
      · have points := nodeOf_unlink points
        rwa [nodeOf_setDeleted] at points
    · unfold markParent at points
      have marked : ∀ node, (h.markSelf node).nodeOf = h.nodeOf := by
        intro node
        unfold markSelf
        split
        · split
          · exact nodeOf_setDeleted _ _ _
          · rfl
        · rfl
      split at points
      · rwa [marked] at points
      · split at points
        · rwa [nodeOf_setDeleted, marked] at points
        · rwa [marked] at points

end Heap

theorem moves_notifynode (s : Sides) (n : NodeRef) :
    Relocates s { s with heap := s.heap.notifynode n } :=
  moves_heap s (s.heap.alike_notifynode n) (fun _ _ => Heap.nodeOf_notifynode) s.asked

section Places
variable (env : Surroundings) (s : Sides)

theorem clearSyncget_foldl (ns : List NodeRef) (h : Heap) :
    (∀ m, (ns.foldl Heap.clearSyncget h).fileView m = h.fileView m) ∧
      (∀ m ∉ ns, (ns.foldl Heap.clearSyncget h).fetching m = h.fetching m) ∧
      (ns.foldl Heap.clearSyncget h).locals = h.locals := by
  induction ns generalizing h with
  | nil => exact ⟨fun _ => rfl, fun _ _ => rfl, rfl⟩
  | cons n ns ih =>
    obtain ⟨types, marks, locals⟩ := ih (h.clearSyncget n)
    refine ⟨fun m => (types m).trans (h.map_modifyNode _ (fun _ => by rfl) n m),
      fun m outside => ?_, locals⟩
    rw [List.mem_cons, not_or] at outside
    refine (marks m outside.2).trans ?_
    simp [Heap.fetching, Heap.clearSyncget, Heap.modifyNode, outside.1]

theorem moves_cancelGets (ns : List NodeRef) : Relocates s (s.cancelGets ns) := by
  obtain ⟨types, marks, locals⟩ := clearSyncget_foldl ns s.heap
  refine ⟨⟨types, fun k _ => ?_, List.Subset.refl _, List.Subset.refl _, fun _ _ => rfl,
    fun _ _ _ _ => Iff.rfl, fun _ _ _ => Iff.rfl, fun marked n mem => ?_⟩,
    List.filter_subset_self _, fun k n points => ?_⟩
  · exact congrArg (Option.map fun ll => (ll.data.type, ll.data.file)) (congrFun locals k)
  · obtain ⟨mem, outside⟩ := List.mem_filter.mp mem
    exact (marks n (of_decide_eq_true outside)).trans (marked n mem)
  · rw [← points]
    exact (congrArg (fun locals => (locals k).bind LocalNode.node) locals).symm

/-- A node is hung under another parent. -/
theorem moves_setparent (n : NodeRef) (node : Node) (p : NodeRef) :
    Relocates s (s.setparent env n node p) := by
  have alike : Heap.Alike s.heap (s.heap.modifyNode n fun node =>
      { node with data := { node.data with parent := some p } }) :=
    s.heap.alike_modifyNode n fun _ => rfl
  have moved : Relocates s
      { s with
        heap := s.heap.modifyNode n fun node =>
          { node with data := { node.data with parent := some p } }
        remote := fun q =>
          if q = p then s.remote q ++ [n]
          else if node.data.parent = some q then (s.remote q).filter (· ≠ n)
          else s.remote q
        movedNodes := n :: s.movedNodes } := by
    refine ⟨⟨alike.fileView, fun k _ => congrFun alike.locals k, List.Subset.refl _,
      List.subset_cons_self _ _, fun _ _ => rfl, fun _ _ _ _ => Iff.rfl, fun m still q => ?_,
      fun marked m mem => (alike.fetching m).trans (marked m mem)⟩, List.Subset.refl _,
      fun _ _ => id⟩
    rw [List.mem_cons, not_or] at still
    show m ∈ (if q = p then s.remote q ++ [n]
      else if node.data.parent = some q then (s.remote q).filter (· ≠ n) else s.remote q) ↔ _
    split
    · simp [still.1]
    · split
      · simp [still.1]
      · exact Iff.rfl
  rw [Sides.setparent]
  split
  · exact moved.trans (moves_cancelGets _ _)
  · exact moved

theorem moves_rename (n p : NodeRef) : Relocates s (s.rename env n p) := by
  unfold Sides.rename
  split
  · exact .refl s
  · rename_i node _
    split
    · exact ((moves_ask s).trans (moves_setparent env s.ask n node p)).trans
        (moves_notifynode _ n)
    · exact moves_ask s

theorem moves_setattrName (n : NodeRef) (name : Bytes) :
    Relocates s (s.setattrName env n name) := by
  have named : Relocates s { s.ask with attrName := Function.update s.attrName n (some name) } :=
    { moves_ask s with }
  unfold Sides.setattrName
  split
  · exact named.trans (moves_notifynode _ n)
  · exact named

/-- Without the entries under a name the others are there. -/
theorem mem_others_iff {entries : List (Bytes × LocalRef)} {name x : Bytes} {k : LocalRef}
    (still : k ∉ (entries.filter (·.1 = name)).map (·.2)) :
    (x, k) ∈ entries.filter (·.1 ≠ name) ↔ (x, k) ∈ entries := by
  simp only [List.mem_filter, decide_eq_true_eq, and_iff_left_iff_imp]
  intro mem same
  exact still (List.mem_map.mpr ⟨(x, k), List.mem_filter.mpr ⟨mem, decide_eq_true same⟩, rfl⟩)

theorem moves_unlink (k : LocalRef) : Relocates s (s.unlink k) := by
  unfold Sides.unlink
  split
  · exact .refl s
  · rename_i p _
    refine ⟨⟨fun _ => rfl, fun _ _ => rfl, List.subset_append_right _ _, List.Subset.refl _,
      fun _ _ => rfl, fun m still f x => ?_, fun _ _ _ => Iff.rfl, id⟩, List.Subset.refl _,
      fun _ _ => id⟩
    rw [List.mem_append, not_or] at still
    dsimp only
    rw [Function.update_apply]
    split
    · rename_i here
      rw [here]
      exact mem_others_iff still.1
    · exact Iff.rfl

theorem moves_link (k p : LocalRef) : Relocates s (s.link k p) := by
  refine ⟨⟨fun _ => rfl, fun _ _ => rfl, fun m mem => .tail k (List.mem_append_right _ mem),
    List.Subset.refl _, fun _ _ => rfl, fun m still f x => ?_, fun _ _ _ => Iff.rfl, id⟩,
    List.Subset.refl _, fun _ _ => id⟩
  simp only [Sides.link, List.cons_append, List.mem_cons, List.mem_append, not_or] at still ⊢
  rw [Function.update_apply]
  split
  · rename_i here
    rw [here, List.mem_orderedInsert, mem_others_iff still.2.1]
    refine or_iff_right fun same => still.1 (congrArg Prod.snd same)
  · exact Iff.rfl

theorem moves_setLocalname (k : LocalRef) (localname : Bytes) :
    Relocates s (s.setLocalname env k localname) := by
  have named : Relocates s { s with
      localname := Function.update s.localname k localname
      movedLocals := k :: s.movedLocals } := by
    refine ⟨⟨fun _ => rfl, fun _ _ => rfl, List.subset_cons_self _ _, List.Subset.refl _,
      fun m still => ?_, fun _ _ _ _ => Iff.rfl, fun _ _ _ => Iff.rfl, id⟩, List.Subset.refl _,
      fun _ _ => id⟩
    rw [List.mem_cons, not_or] at still
    exact Function.update_of_ne still.1 _ _
  unfold Sides.setLocalname
  split
  · exact .refl s
  · split
    · exact named
    · split
      · exact named
      · exact named.trans (moves_setattrName env _ _ _)

theorem moves_setLocalparent (k p : LocalRef) : Relocates s (s.setLocalparent env k p) := by
  have moved : Relocates s { s with
      heap := s.heap.modifyLocal k fun ll =>
        { ll with data := { ll.data with parent := some p } } } :=
    moves_heap s (s.heap.alike_modifyLocal k fun _ => by rfl)
      (fun l n points => by rwa [s.heap.nodeOf_modifyLocal_data fun _ => by rfl] at points) s.asked
  unfold Sides.setLocalparent
  split
  · exact .refl s
  · split
    · exact moved.trans (moves_rename env _ _ _)
    · exact moved

theorem moves_setnameparent (k p : LocalRef) (localname : Bytes) :
    Relocates s (s.setnameparent env k p localname) :=
  (((moves_unlink s k).trans (moves_setLocalname env _ k localname)).trans
    (moves_setLocalparent env _ k p)).trans (moves_link _ k p)

theorem moves_deleteLocal (k : LocalRef) :
    Relocates s
      { s with heap := s.heap.deleteLocal false k, movedLocals := k :: s.movedLocals } := by
  have detached : ∃ h, s.heap.deleteLocal false k = h.removeLocal k ∧ s.heap.Alike h ∧
      ∀ l n, h.nodeOf l = some n → s.heap.nodeOf l = some n := by
    unfold Heap.deleteLocal
    split
    · exact ⟨s.heap, rfl, .refl _, fun _ _ => id⟩
    · rename_i n _
      refine ⟨s.heap.movetosyncdebris n, rfl, s.heap.alike_movetosyncdebris n, fun l m points => ?_⟩
      have marked : (s.heap.modifyNode n fun node =>
          { node with data := { node.data with syncdeleted := true } }).nodeOf =
          s.heap.nodeOf := rfl
      rw [← marked]
      exact Heap.nodeOf_unlink points
  obtain ⟨h, removed, alike, weaker⟩ := detached
  rw [removed]
  refine ⟨⟨alike.fileView, fun l still => ?_, List.subset_cons_self _ _, List.Subset.refl _,
    fun _ _ => rfl, fun _ _ _ _ => Iff.rfl, fun _ _ _ => Iff.rfl,
    fun marked n mem => (alike.fetching n).trans (marked n mem)⟩, List.Subset.refl _,
    fun l n points => ?_⟩
  · rw [← congrFun alike.locals l]
    have other : l ≠ k := fun same => still (same ▸ List.mem_cons_self)
    exact congrArg (Option.map _) (Function.update_of_ne other _ _)
  · rw [Heap.nodeOf_removeLocal, Function.update_apply] at points
    split at points
    · cases points
    · exact weaker l n points

theorem moves_destroy (levels : Nat) (k : LocalRef) : Relocates s (s.destroy levels k) := by
  induction levels generalizing k s with
  | zero => exact (moves_unlink s k).trans (moves_deleteLocal _ k)
  | succ levels ih =>
    have below : ∀ (es : List (Bytes × LocalRef)) (s : Sides),
        Relocates s (es.foldl (fun s e => s.destroy levels e.2) s) := by
      intro es
      induction es with
      | nil => exact .refl
      | cons e es inner => exact fun s => (ih s e.2).trans (inner _)
    exact ((moves_unlink s k).trans (below _ _)).trans (moves_deleteLocal _ k)

theorem moves_newFolder {k : LocalRef} (fresh : s.heap.locals k = none) :
    Relocates s (s.newFolder k) := by
  have other : ∀ l ∉ (s.newFolder k).movedLocals, l ≠ k :=
    fun l still same => still (same ▸ List.mem_cons_self)
  refine ⟨⟨fun _ => rfl, fun l still => ?_, List.subset_cons_self _ _, List.Subset.refl _,
    fun l still => Function.update_of_ne (other l still) _ _, fun _ _ _ _ => Iff.rfl,
    fun _ _ _ => Iff.rfl, id⟩, List.Subset.refl _, fun l n points => ?_⟩
  · exact congrArg (Option.map _) (Function.update_of_ne (other l still) _ _)
  · by_cases same : l = k
    · subst same
      simp [Sides.newFolder, Heap.nodeOf] at points
    · simpa [Sides.newFolder, Heap.nodeOf, same] using points

end Places

end MegaSdk.Sync
