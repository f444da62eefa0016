import MegaSdk.Lib.ByteOrder
import MegaSdk.Sync.Association
import MegaSdk.Sync.Names

/-!
# Which side of a synced file is transferred

A file name that exists on both sides of a synced folder: `syncdown` may fetch the remote
file and `syncup` may send the local one. Each of them builds its own table of the remote
children and has its own comparison of the two files.
-/

namespace MegaSdk.Sync

open ByteOrder

/-- A remote child of the folder, as the loops that build the tables see it. -/
structure RemoteEntry where
  ref : NodeRef
  name : Option Bytes
  undecrypted : Bool
  syncable : Bool
  deriving DecidableEq, Repr

/-- A local child of the folder, with what `syncup` finds out about a file: a pending
transfer, a nagle delay that has not elapsed, and size and time on disk. -/
structure LocalEntry where
  ref : LocalRef
  name : Bytes
  transfer : Bool
  nagling : Bool
  disk : Option (Int × Int)
  deriving DecidableEq, Repr

abbrev ChildTable := Bytes → Option RemoteChild

namespace Heap

/-- What `addchild` compares. -/
def remoteChild (ref : NodeRef) (n : Node) : RemoteChild where
  id := ref
  mtime := n.data.file.mtime
  size := n.data.file.size
  crc := n.data.file.crc.toList.flatMap fun word => leBytes 4 word.toNat

/-- One round of the loops that build the tables. -/
def enlist (h : Heap) (accept : RemoteEntry → Bytes → Bool) (table : ChildTable)
    (e : RemoteEntry) : ChildTable :=
  match e.name, h.nodes e.ref with
  | some name, some n =>
    if accept e name && !n.data.syncdeleted && !e.undecrypted then
      addchild table name (remoteChild e.ref n)
    else table
  | _, _ => table

/-- The table of `syncdown`; in the root of a sync the name of the debris folder is taken. -/
def downTable (h : Heap) (top : Bool) (debris : Bytes) (entries : List RemoteEntry) : ChildTable :=
  entries.foldl (h.enlist fun e name => e.syncable && (!top || debris ≠ name)) fun _ => none

/-- The table of `syncup`. -/
def upTable (h : Heap) (entries : List RemoteEntry) : ChildTable :=
  entries.foldl (h.enlist fun _ _ => true) fun _ => none

def setSyncget (h : Heap) (r : NodeRef) : Heap :=
  h.modifyNode r fun n => { n with data := { n.data with syncget := true } }

def clearSyncget (h : Heap) (r : NodeRef) : Heap :=
  h.modifyNode r fun n => { n with data := { n.data with syncget := false } }

/-- The test of `syncup` whether two files are likely to be identical. -/
def likelyIdentical (l r : FileFingerprint) : Bool :=
  l.size = r.size && if r.isvalid then l.same r else l.mtime = r.mtime

/-- The last tests of `syncup`, before a LocalNode goes to `synccreate`. -/
def sendable (l : LocalNode) (ll : LocalEntry) : Bool :=
  l.data.type ≠ fileNode ||
    (!ll.transfer && !ll.nagling && ll.disk = some (l.data.file.size, l.data.file.mtime))

/-- What the comparisons read of a `Node`. -/
def nodeView (h : Heap) (n : NodeRef) : Option (NodeType × FileFingerprint × Bool) :=
  (h.nodes n).map fun node => (node.data.type, node.data.file, node.data.syncget)

def localView (h : Heap) (l : LocalRef) : Option (NodeType × FileFingerprint) :=
  (h.locals l).map fun ll => (ll.data.type, ll.data.file)

/-- Types and files are the same, and the same nodes are being fetched. -/
structure Alike (h h' : Heap) : Prop where
  nodes : h'.nodeView = h.nodeView
  locals : h'.localView = h.localView

theorem Alike.refl (h : Heap) : Alike h h := ⟨rfl, rfl⟩

theorem Alike.trans {h h' h'' : Heap} (first : Alike h h') (second : Alike h' h'') : Alike h h'' :=
  ⟨second.nodes.trans first.nodes, second.locals.trans first.locals⟩

section Frame
variable (h : Heap)

/-- What a change of a node leaves alone is the same for all nodes. -/
theorem map_modifyNode {β : Type} (view : Node → β) {f : Node → Node}
    (kept : ∀ node, view (f node) = view node) (n k : NodeRef) :
    ((h.modifyNode n f).nodes k).map view = (h.nodes k).map view := by
  by_cases same : k = n
  · subst same
    cases at_k : h.nodes k with
    | none => simp [modifyNode, at_k]
    | some node => simp [modifyNode, at_k, kept node]
  · simp [modifyNode, same]

theorem map_modifyLocal {β : Type} (view : LocalNode → β) {f : LocalNode → LocalNode}
    (kept : ∀ ll, view (f ll) = view ll) (l k : LocalRef) :
    ((h.modifyLocal l f).locals k).map view = (h.locals k).map view := by
  by_cases same : k = l
  · subst same
    cases at_k : h.locals k with
    | none => simp [modifyLocal, at_k]
    | some ll => simp [modifyLocal, at_k, kept ll]
  · simp [modifyLocal, same]

theorem alike_modifyNode (n : NodeRef) {f : Node → Node}
    (kept : ∀ node, ((f node).data.type, (f node).data.file, (f node).data.syncget) =
      (node.data.type, node.data.file, node.data.syncget)) : Alike h (h.modifyNode n f) :=
  ⟨funext (h.map_modifyNode _ kept n), rfl⟩

theorem alike_modifyLocal (l : LocalRef) {f : LocalNode → LocalNode}
    (kept : ∀ ll, ((f ll).data.type, (f ll).data.file) = (ll.data.type, ll.data.file)) :
    Alike h (h.modifyLocal l f) :=
  ⟨rfl, funext (h.map_modifyLocal _ kept l)⟩

theorem alike_setLocalnode (n : NodeRef) (l : Option LocalRef) : Alike h (h.setLocalnode n l) :=
  h.alike_modifyNode n fun _ => by rfl

theorem alike_setDeleted (l : LocalRef) (deleted : Bool) : Alike h (h.setDeleted l deleted) :=
  h.alike_modifyLocal l fun _ => by rfl

theorem alike_release (l : LocalRef) (cnode : Option NodeRef) : Alike h (h.release l cnode) := by
  unfold release
  split
  · split
    · exact h.alike_setLocalnode _ _
    · exact .refl h
  · exact .refl h

theorem alike_setnode (l : LocalRef) (cnode : Option NodeRef) : Alike h (h.setnode l cnode) := by
  have linked := (h.alike_release l cnode).trans
    (alike_modifyLocal _ l (f := fun ll =>
      { data := { ll.data with deleted := false }, node := cnode }) fun _ => by rfl)
  cases cnode with
  | none => exact linked
  | some n => exact linked.trans (alike_setLocalnode _ n (some l))

theorem alike_syncdownItem (ll : LocalRef) (r : NodeRef) : Alike h (h.syncdownItem ll r) := by
  have associated : Alike h (if h.associates ll r then h.setnode ll (some r) else h) := by
    split
    · exact h.alike_setnode ll (some r)
    · exact .refl h
  rw [syncdownItem]
  split
  · exact associated.trans (alike_setLocalnode _ r none)
  · exact associated

theorem alike_unlink (n : NodeRef) : Alike h (h.unlink n) := by
  unfold unlink
  split
  · exact .refl h
  · rename_i l _
    exact (h.alike_modifyLocal l fun _ => by rfl).trans (alike_setLocalnode _ n none)

theorem alike_movetosyncdebris (n : NodeRef) : Alike h (h.movetosyncdebris n) :=
  (h.alike_modifyNode n fun _ => by rfl).trans (alike_unlink _ n)

theorem alike_markSelf (node : Node) : Alike h (h.markSelf node) := by
  unfold markSelf
  split
  · split
    · exact h.alike_setDeleted _ _
    · exact .refl h
  · exact .refl h

theorem alike_markParent (node : Node) : Alike h (h.markParent node) := by
  unfold markParent
  split
  · exact .refl h
  · split
    · exact h.alike_setDeleted _ _
    · exact .refl h

theorem alike_notifynode (n : NodeRef) : Alike h (h.notifynode n) := by
  unfold notifynode
  split
  · exact .refl h
  · rename_i node _
    split
    · split
      · exact .refl h
      · exact (h.alike_setDeleted _ true).trans (alike_unlink _ n)
    · exact (h.alike_markSelf node).trans (alike_markParent _ node)

end Frame

theorem drops_eq {h : Heap} {l : LocalNode} {n : Node} {ref : LocalRef} {r : NodeRef}
    (at_l : h.locals ref = some l)
    (at_r : h.nodes r = some n) (local_file : l.data.type = fileNode)
    (remote_file : n.data.type = fileNode) :
    h.drops ref r =
      (!(l.data.file.mtime > n.data.file.mtime) && !l.data.file.same n.data.file) := by
  simp [drops, at_l, at_r, local_file, remote_file]

end Heap

end MegaSdk.Sync
