import MegaSdk.Types
import MegaSdk.Lib.PairedPointers
import MegaSdk.Lib.Runs

/-!
# The association of LocalNodes and Nodes

The heap of `Node` and `LocalNode` objects with the two pointers `LocalNode::node` and
`Node::localnode`, and every place of the sync engine that writes one of them. The
loops of `syncdown` and `syncup` are taken one item at a time: an event names the local
child and the remote child of the same name.
-/

namespace MegaSdk.Sync

open PairedPointers

abbrev NodeRef := Nat
abbrev LocalRef := Nat

/-- What the sync engine reads of a `Node` besides its association. -/
structure NodeData where
  type : NodeType
  parent : Option NodeRef
  removed : Bool
  syncdeleted : Bool
  syncget : Bool
  file : FileFingerprint

structure Node where
  data : NodeData
  localnode : Option LocalRef

/-- What the sync engine reads of a `LocalNode` besides its association. -/
structure LocalData where
  type : NodeType
  parent : Option LocalRef
  deleted : Bool
  file : FileFingerprint

structure LocalNode where
  data : LocalData
  node : Option NodeRef

structure Heap where
  nodes : NodeRef → Option Node
  locals : LocalRef → Option LocalNode

namespace Heap

def modifyNode (h : Heap) (n : NodeRef) (f : Node → Node) : Heap :=
  { h with nodes := Function.update h.nodes n ((h.nodes n).map f) }

def modifyLocal (h : Heap) (l : LocalRef) (f : LocalNode → LocalNode) : Heap :=
  { h with locals := Function.update h.locals l ((h.locals l).map f) }

/-- `LocalNode::node` of a live LocalNode. -/
def nodeOf (h : Heap) (l : LocalRef) : Option NodeRef := (h.locals l).bind LocalNode.node

/-- `Node::localnode` of a live Node. -/
def localOf (h : Heap) (n : NodeRef) : Option LocalRef := (h.nodes n).bind Node.localnode

def setLocalnode (h : Heap) (n : NodeRef) (l : Option LocalRef) : Heap :=
  h.modifyNode n fun node => { node with localnode := l }

/-- The previous Node of a LocalNode that is about to be associated with `cnode`. -/
def release (h : Heap) (l : LocalRef) (cnode : Option NodeRef) : Heap :=
  match h.nodeOf l with
  | some m => if cnode ≠ some m ∧ (h.localOf m).isSome then h.setLocalnode m none else h
  | none => h

/-- `LocalNode::setnode`: the previous Node is released, the LocalNode that `cnode` may have
had before is not. -/
def setnode (h : Heap) (l : LocalRef) (cnode : Option NodeRef) : Heap :=
  let linked := (h.release l cnode).modifyLocal l fun ll =>
    { data := { ll.data with deleted := false }, node := cnode }
  match cnode with
  | some n => linked.setLocalnode n (some l)
  | none => linked

/-- The test before `setnode` in the loops of `syncdown` and `syncup`, for items of one type:
files follow the newest remote version, folders the remote folder of that name. -/
def associates (h : Heap) (ll : LocalRef) (r : NodeRef) : Bool :=
  match h.locals ll, h.nodes r with
  | some l, some n =>
    l.data.type = n.data.type &&
      if l.data.type = fileNode then
        match l.node with
        | none => true
        | some m => m ≠ r && (h.nodes m).any fun old => n.data.file.mtime > old.data.file.mtime
      else l.node ≠ some r
  | _, _ => false

/-- Neither is the local file newer nor are the two files identical. -/
def drops (h : Heap) (ll : LocalRef) (r : NodeRef) : Bool :=
  match h.locals ll, h.nodes r with
  | some l, some n =>
    l.data.type = n.data.type && l.data.type = fileNode &&
      !(l.data.file.mtime > n.data.file.mtime) && !l.data.file.same n.data.file
  | _, _ => false

/-- An item of `syncdown` that exists on both sides. -/
def syncdownItem (h : Heap) (ll : LocalRef) (r : NodeRef) : Heap :=
  let associated := if h.associates ll r then h.setnode ll (some r) else h
  if h.drops ll r then associated.setLocalnode r none else associated

/-- `syncup` skips deleted items, files being fetched and older local files. -/
def syncupSkips (h : Heap) (ll : LocalRef) (r : NodeRef) : Bool :=
  match h.locals ll, h.nodes r with
  | some l, some n =>
    l.data.deleted ||
      (l.data.type = fileNode &&
        (n.data.syncget || l.data.file.mtime < n.data.file.mtime))
  | _, _ => true

def syncupItem (h : Heap) (ll : LocalRef) (r : NodeRef) : Heap :=
  if !h.syncupSkips ll r && h.associates ll r then h.setnode ll (some r) else h

/-- Both pointers of the association of a Node are cleared. -/
def unlink (h : Heap) (n : NodeRef) : Heap :=
  match h.localOf n with
  | none => h
  | some l => (h.modifyLocal l fun ll => { ll with node := none }).setLocalnode n none

def setDeleted (h : Heap) (l : LocalRef) (deleted : Bool) : Heap :=
  h.modifyLocal l fun ll => { ll with data := { ll.data with deleted := deleted } }

/-- A synced node, not the root of a sync, that was moved to a place that is not synced. -/
def leftSync (h : Heap) (n : NodeRef) : Bool :=
  match h.nodes n with
  | none => false
  | some node =>
    (node.localnode.bind h.locals).any (fun ll => ll.data.parent.isSome) &&
      node.data.parent.any fun p => (h.nodes p).any fun parent => parent.localnode.isNone

/-- The `deleted` flag of a synced node that is not a sync root. -/
def markSelf (h : Heap) (node : Node) : Heap :=
  match node.localnode with
  | some l =>
    if (h.locals l).any fun ll => ll.data.parent.isSome then h.setDeleted l node.data.removed
    else h
  | none => h

/-- The `deleted` flag of a synced folder with a new node. -/
def markParent (h : Heap) (node : Node) : Heap :=
  match node.data.parent.bind h.localOf with
  | none => h
  | some pl =>
    if node.localnode.all fun l => (h.locals l).any fun ll => ll.data.parent ≠ some pl then
      h.setDeleted pl node.data.removed
    else h

/-- `notifynode`, as far as LocalNodes are concerned. -/
def notifynode (h : Heap) (n : NodeRef) : Heap :=
  match h.nodes n with
  | none => h
  | some node =>
    if h.leftSync n then
      match node.localnode with
      | none => h
      | some l => (h.setDeleted l true).unlink n
    else (h.markSelf node).markParent node

/-- `movetosyncdebris`: detach from the LocalNode. -/
def movetosyncdebris (h : Heap) (n : NodeRef) : Heap :=
  (h.modifyNode n fun node => { node with data := { node.data with syncdeleted := true } }).unlink n

/-- `new Node`, at an unused address. -/
def newNode (h : Heap) (n : NodeRef) (data : NodeData) : Heap :=
  { h with nodes := Function.update h.nodes n (some ⟨data, none⟩) }

/-- A record of a PUTNODES_SYNC response: the new Node is associated with the LocalNode of
its `NewNode`. Nothing keeps that LocalNode alive (`LocalNode::newnode` is never set), and
a destroyed one is written into the Node all the same. -/
def readnodesSync (h : Heap) (l : LocalRef) (n : NodeRef) (data : NodeData) : Heap :=
  if (h.locals l).isSome then (h.newNode n data).setnode l (some n)
  else (h.newNode n data).setLocalnode n (some l)

/-- The Node leaves the heap, its children lose their parent. -/
def removeNode (h : Heap) (n : NodeRef) : Heap :=
  { h with
    nodes := Function.update
      (fun k => (h.nodes k).map fun child =>
        if child.data.parent = some n then
          { child with data := { child.data with parent := none } }
        else child) n none }

/-- `~Node`. -/
def deleteNode (h : Heap) (n : NodeRef) : Heap :=
  match h.localOf n with
  | none => h.removeNode n
  | some l =>
    ((h.setDeleted l true).modifyLocal l fun ll => { ll with node := none }).removeNode n

def removeLocal (h : Heap) (l : LocalRef) : Heap :=
  { h with locals := Function.update h.locals l none }

/-- `~LocalNode`, whose children have been destroyed before. -/
def deleteLocal (h : Heap) (cancelled : Bool) (l : LocalRef) : Heap :=
  match h.nodeOf l with
  | none => h.removeLocal l
  | some n => (if cancelled then h.setLocalnode n none else h.movetosyncdebris n).removeLocal l

/-- Events; `editNode` and `editLocal` are the changes of everything but the association. -/
inductive Event where
  | newNode (n : NodeRef) (data : NodeData)
  | newLocal (l : LocalRef) (data : LocalData)
  | editNode (n : NodeRef) (data : NodeData)
  | editLocal (l : LocalRef) (data : LocalData)
  | setnode (l : LocalRef) (cnode : Option NodeRef)
  | syncdown (ll : LocalRef) (r : NodeRef)
  | syncup (ll : LocalRef) (r : NodeRef)
  | notifynode (n : NodeRef)
  | movetosyncdebris (n : NodeRef)
  | readnodes (l : LocalRef) (n : NodeRef) (data : NodeData)
  | deleteNode (n : NodeRef)
  | deleteLocal (cancelled : Bool) (l : LocalRef)

/-- One event. New objects are at unused addresses, and `setnode` is called for live ones. -/
def step (h : Heap) : Event → Heap
  | .newNode n data => if (h.nodes n).isSome then h else h.newNode n data
  | .newLocal l data =>
    if (h.locals l).isSome then h
    else { h with locals := Function.update h.locals l (some ⟨data, none⟩) }
  | .editNode n data => h.modifyNode n fun node => { node with data := data }
  | .editLocal l data => h.modifyLocal l fun ll => { ll with data := data }
  | .setnode l none => if (h.locals l).isSome then h.setnode l none else h
  | .setnode l (some n) =>
    if (h.locals l).isSome ∧ (h.nodes n).isSome then h.setnode l (some n) else h
  | .syncdown ll r => h.syncdownItem ll r
  | .syncup ll r => h.syncupItem ll r
  | .notifynode n => h.notifynode n
  | .movetosyncdebris n => h.movetosyncdebris n
  | .readnodes l n data => if (h.nodes n).isSome then h else h.readnodesSync l n data
  | .deleteNode n => h.deleteNode n
  | .deleteLocal cancelled l => h.deleteLocal cancelled l

/-- The association is a partial bijection between live objects. -/
def Paired (h : Heap) : Prop := PairedPointers.Paired h.nodeOf h.localOf

section Pointers
variable (h : Heap)

@[simp] theorem localOf_modifyLocal (l : LocalRef) (f : LocalNode → LocalNode) :
    (h.modifyLocal l f).localOf = h.localOf := rfl

theorem localOf_modifyNode (n : NodeRef) (f : Node → Node) :
    (h.modifyNode n f).localOf =
      Function.update h.localOf n (((h.nodes n).map f).bind Node.localnode) := by
  funext k
  by_cases same : k = n
  · subst same
    simp [localOf, modifyNode]
  · simp [localOf, modifyNode, same]

theorem nodeOf_modifyLocal (l : LocalRef) (f : LocalNode → LocalNode) :
    (h.modifyLocal l f).nodeOf =
      Function.update h.nodeOf l (((h.locals l).map f).bind LocalNode.node) := by
  funext k
  by_cases same : k = l
  · subst same
    simp [nodeOf, modifyLocal]
  · simp [nodeOf, modifyLocal, same]

/-- Changes that leave the pointer alone. -/
theorem localOf_modifyNode_data {n : NodeRef} {f : Node → Node}
    (kept : ∀ node, (f node).localnode = node.localnode) :
    (h.modifyNode n f).localOf = h.localOf := by
  rw [localOf_modifyNode]
  refine Function.update_eq_self_iff.mpr ?_
  rw [localOf]
  cases h.nodes n <;> simp [kept]

theorem nodeOf_modifyLocal_data {l : LocalRef} {f : LocalNode → LocalNode}
    (kept : ∀ ll, (f ll).node = ll.node) : (h.modifyLocal l f).nodeOf = h.nodeOf := by
  rw [nodeOf_modifyLocal]
  refine Function.update_eq_self_iff.mpr ?_
  rw [nodeOf]
  cases h.locals l <;> simp [kept]

@[simp] theorem nodeOf_setLocalnode (n : NodeRef) (l : Option LocalRef) :
    (h.setLocalnode n l).nodeOf = h.nodeOf := rfl

@[simp] theorem localOf_setLocalnode_none (n : NodeRef) :
    (h.setLocalnode n none).localOf = Function.update h.localOf n none := by
  rw [setLocalnode, localOf_modifyNode]
  cases h.nodes n <;> rfl

theorem localOf_setLocalnode {n : NodeRef} (alive : (h.nodes n).isSome) (l : LocalRef) :
    (h.setLocalnode n (some l)).localOf = Function.update h.localOf n (some l) := by
  rw [setLocalnode, localOf_modifyNode]
  obtain ⟨node, at_n⟩ := Option.isSome_iff_exists.mp alive
  rw [at_n]
  rfl

@[simp] theorem nodeOf_setDeleted (l : LocalRef) (deleted : Bool) :
    (h.setDeleted l deleted).nodeOf = h.nodeOf :=
  h.nodeOf_modifyLocal_data fun _ => rfl

theorem nodeOf_clear (l : LocalRef) :
    (h.modifyLocal l fun ll => { ll with node := none }).nodeOf =
      Function.update h.nodeOf l none := by
  rw [nodeOf_modifyLocal]
  cases h.locals l <;> rfl

theorem release_frame (l : LocalRef) (cnode : Option NodeRef) :
    (h.release l cnode).locals = h.locals ∧ (h.release l cnode).nodeOf = h.nodeOf ∧
      ∀ n, ((h.release l cnode).nodes n).isSome = (h.nodes n).isSome := by
  unfold release
  split
  · rename_i m _
    split
    · refine ⟨rfl, rfl, fun n => ?_⟩
      by_cases same : n = m
      · subst same
        simp [setLocalnode, modifyNode]
      · simp [setLocalnode, modifyNode, same]
    · exact ⟨rfl, rfl, fun _ => rfl⟩
  · exact ⟨rfl, rfl, fun _ => rfl⟩

/-- The previous Node is free afterwards, unless it is the new one. -/
theorem localOf_release (l : LocalRef) (cnode : Option NodeRef) :
    (h.release l cnode).localOf = clearTarget h.localOf (h.nodeOf l) ∨
      ((h.release l cnode).localOf = h.localOf ∧ cnode = h.nodeOf l) := by
  unfold release
  split
  · rename_i m old
    rw [old, clearTarget]
    by_cases same : cnode = some m
    · exact .inr ⟨by simp [same], same⟩
    · left
      cases owner : h.localOf m with
      | none =>
        rw [← owner, Function.update_eq_self]
        simp [owner]
      | some x => simp [same]
  · rename_i old
    rw [old]
    exact .inl rfl

theorem nodeOf_link {l : LocalRef} (alive : (h.locals l).isSome) (cnode : Option NodeRef) :
    ((h.release l cnode).modifyLocal l fun ll =>
      { data := { ll.data with deleted := false }, node := cnode }).nodeOf =
      Function.update h.nodeOf l cnode := by
  obtain ⟨ll, at_l⟩ := Option.isSome_iff_exists.mp alive
  obtain ⟨locals_eq, nodeOf_eq, _⟩ := h.release_frame l cnode
  rw [nodeOf_modifyLocal, nodeOf_eq, locals_eq, at_l]
  rfl

/-- The pointers that `setnode` writes. -/
theorem setnode_pointers {l : LocalRef} {n : NodeRef} (alive : (h.locals l).isSome)
    (target : (h.nodes n).isSome) :
    (h.setnode l (some n)).nodeOf = Function.update h.nodeOf l (some n) ∧
      (h.setnode l (some n)).localOf =
        Function.update (clearTarget h.localOf (h.nodeOf l)) n (some l) := by
  have target' := ((h.release_frame l (some n)).2.2 n).trans target
  refine ⟨h.nodeOf_link alive (some n), ?_⟩
  refine (localOf_setLocalnode _ (by exact target') l).trans ?_
  rw [localOf_modifyLocal]
  rcases h.localOf_release l (some n) with cleared | ⟨same, old⟩
  · rw [cleared]
  · rw [same, ← old, clearTarget, Function.update_idem]

theorem setnode_null_pointers {l : LocalRef} (alive : (h.locals l).isSome) :
    (h.setnode l none).nodeOf = Function.update h.nodeOf l none ∧
      (h.setnode l none).localOf = clearTarget h.localOf (h.nodeOf l) := by
  refine ⟨h.nodeOf_link alive none, ?_⟩
  rw [setnode, localOf_modifyLocal]
  rcases h.localOf_release l none with cleared | ⟨same, old⟩
  · exact cleared
  · rw [same, ← old, clearTarget]

end Pointers

section Steps
variable {h : Heap}

/-- Only the pointers matter. -/
theorem Paired.of_eq (paired : h.Paired) {h' : Heap} (nodes : h'.nodeOf = h.nodeOf)
    (locals : h'.localOf = h.localOf) : h'.Paired := by
  rw [Paired, nodes, locals]
  exact paired

/-- The two cases in which associating `l` with `n` keeps the bijection. -/
def Free (h : Heap) (l : LocalRef) (n : NodeRef) : Prop :=
  h.localOf n = none ∨ h.localOf n = some l

instance (h : Heap) (l : LocalRef) (n : NodeRef) : Decidable (h.Free l n) :=
  inferInstanceAs (Decidable (_ ∨ _))

theorem Paired.setnode_iff (paired : h.Paired) {l : LocalRef} {n : NodeRef}
    (alive : (h.locals l).isSome) (target : (h.nodes n).isSome) :
    (h.setnode l (some n)).Paired ↔ h.Free l n := by
  obtain ⟨nodes, locals⟩ := h.setnode_pointers alive target
  rw [Paired, nodes, locals]
  exact PairedPointers.Paired.attach_iff paired l n

theorem Paired.setnode_null (paired : h.Paired) {l : LocalRef} (alive : (h.locals l).isSome) :
    (h.setnode l none).Paired := by
  obtain ⟨nodes, locals⟩ := h.setnode_null_pointers alive
  rw [Paired, nodes, locals]
  exact PairedPointers.Paired.detach paired l

/-- Under a bijection, clearing both pointers of a Node is clearing those of its LocalNode. -/
theorem Paired.unlink_pointers (paired : h.Paired) {n : NodeRef} {l : LocalRef}
    (owner : h.localOf n = some l) :
    PairedPointers.Paired (Function.update h.nodeOf l none) (Function.update h.localOf n none) := by
  have detached := PairedPointers.Paired.detach paired l
  rw [(paired l n).mpr owner, clearTarget] at detached
  exact detached

theorem Paired.unlink (paired : h.Paired) (n : NodeRef) : (h.unlink n).Paired := by
  unfold Heap.unlink
  cases owner : h.localOf n with
  | none => exact paired
  | some l =>
    simp only [Paired, nodeOf_setLocalnode, nodeOf_clear, localOf_setLocalnode_none,
      localOf_modifyLocal]
    exact paired.unlink_pointers owner

theorem Paired.movetosyncdebris (paired : h.Paired) (n : NodeRef) :
    (h.movetosyncdebris n).Paired := by
  have marked : (h.modifyNode n fun node =>
      { node with data := { node.data with syncdeleted := true } }).Paired :=
    paired.of_eq rfl (h.localOf_modifyNode_data fun _ => by rfl)
  exact marked.unlink n

theorem Paired.setDeleted (paired : h.Paired) (l : LocalRef) (deleted : Bool) :
    (h.setDeleted l deleted).Paired :=
  paired.of_eq (h.nodeOf_setDeleted l deleted) rfl

theorem Paired.notifynode (paired : h.Paired) (n : NodeRef) : (h.notifynode n).Paired := by
  unfold Heap.notifynode
  split
  · exact paired
  · rename_i node _
    split
    · split
      · exact paired
      · rename_i l _
        exact (paired.setDeleted l true).unlink n
    · have marked : (h.markSelf node).Paired := by
        unfold markSelf
        split
        · split
          · exact paired.setDeleted _ _
          · exact paired
        · exact paired
      unfold markParent
      split
      · exact marked
      · split
        · exact marked.setDeleted _ _
        · exact marked

theorem localOf_removeNode (n : NodeRef) :
    (h.removeNode n).localOf = Function.update h.localOf n none := by
  funext x
  by_cases same : x = n
  · subst same
    simp [removeNode, localOf]
  · cases at_x : h.nodes x with
    | none => simp [removeNode, localOf, same, at_x]
    | some child =>
      simp only [removeNode, localOf, Function.update_of_ne same, at_x, Option.map_some,
        Option.bind_some]
      split <;> rfl

theorem Paired.deleteNode (paired : h.Paired) (n : NodeRef) : (h.deleteNode n).Paired := by
  unfold Heap.deleteNode
  cases owner : h.localOf n with
  | none =>
    have same : (h.removeNode n).localOf = h.localOf := by
      rw [localOf_removeNode, ← owner, Function.update_eq_self]
    exact paired.of_eq rfl same
  | some l =>
    have left : ((h.setDeleted l true).modifyLocal l fun ll => { ll with node := none }).nodeOf =
        Function.update h.nodeOf l none := by
      rw [nodeOf_clear, nodeOf_setDeleted]
    have right : (((h.setDeleted l true).modifyLocal l fun ll =>
        { ll with node := none }).removeNode n).localOf = Function.update h.localOf n none := by
      rw [localOf_removeNode]
      rfl
    change PairedPointers.Paired
      ((h.setDeleted l true).modifyLocal l fun ll => { ll with node := none }).nodeOf _
    rw [left, right]
    exact paired.unlink_pointers owner

theorem nodeOf_removeLocal (l : LocalRef) :
    (h.removeLocal l).nodeOf = Function.update h.nodeOf l none := by
  funext x
  by_cases same : x = l
  · subst same
    simp [removeLocal, nodeOf]
  · simp [removeLocal, nodeOf, same]

/-- A LocalNode without a Node can go. -/
theorem Paired.removeLocal (paired : h.Paired) {l : LocalRef} (free : h.nodeOf l = none) :
    (h.removeLocal l).Paired := by
  refine paired.of_eq ?_ rfl
  rw [nodeOf_removeLocal, ← free, Function.update_eq_self]

theorem nodeOf_movetosyncdebris {l : LocalRef} {n : NodeRef} (owner : h.localOf n = some l) :
    (h.movetosyncdebris n).nodeOf l = none := by
  have kept : (h.modifyNode n fun node =>
      { node with data := { node.data with syncdeleted := true } }).localOf n = some l :=
    (congrFun (h.localOf_modifyNode_data fun _ => by rfl) n).trans owner
  rw [Heap.movetosyncdebris, Heap.unlink, kept]
  simp only [nodeOf_setLocalnode, nodeOf_clear, Function.update_self]

theorem Paired.deleteLocal (paired : h.Paired) (cancelled : Bool) (l : LocalRef) :
    (h.deleteLocal cancelled l).Paired := by
  unfold Heap.deleteLocal
  cases target : h.nodeOf l with
  | none => exact paired.removeLocal target
  | some n =>
    have owner : h.localOf n = some l := (paired l n).mp target
    cases cancelled with
    | true =>
      rw [Paired, nodeOf_removeLocal]
      exact (h.localOf_setLocalnode_none n) ▸ paired.unlink_pointers owner
    | false => exact (paired.movetosyncdebris n).removeLocal (nodeOf_movetosyncdebris owner)

/-- No LocalNode points to a destroyed Node. -/
theorem Paired.alive (paired : h.Paired) {l : LocalRef} {n : NodeRef}
    (points : h.nodeOf l = some n) : (h.nodes n).isSome := by
  obtain ⟨node, at_n, _⟩ := Option.bind_eq_some_iff.mp ((paired l n).mp points)
  rw [at_n]
  rfl

/-- No two LocalNodes share a Node. -/
theorem Paired.exclusive (paired : h.Paired) {l k : LocalRef} {n : NodeRef}
    (first : h.nodeOf l = some n) (second : h.nodeOf k = some n) : l = k :=
  PairedPointers.Paired.inj paired first second

/-- Items that are associated or dropped exist on both sides. -/
theorem alive_of_associates {ll : LocalRef} {r : NodeRef} (associates : h.associates ll r) :
    (h.locals ll).isSome ∧ (h.nodes r).isSome := by
  unfold Heap.associates at associates
  split at associates
  · rename_i at_l at_r
    rw [at_l, at_r]
    exact ⟨rfl, rfl⟩
  · cases associates

theorem Paired.syncdownItem_iff (paired : h.Paired) (ll : LocalRef) (r : NodeRef) :
    (h.syncdownItem ll r).Paired ↔
      (h.associates ll r → h.Free ll r) ∧
        (h.drops ll r → h.associates ll r = false ∧ h.localOf r = none) := by
  unfold Heap.syncdownItem
  cases associates : h.associates ll r with
  | true =>
    obtain ⟨alive, target⟩ := alive_of_associates associates
    cases drops : h.drops ll r with
    | false => simpa using paired.setnode_iff alive target
    | true =>
      obtain ⟨nodes, _⟩ := h.setnode_pointers alive target
      simp only [if_true, forall_const, Bool.true_eq_false, false_and, and_false, iff_false]
      intro dropped
      have back := (dropped ll r).mp (by rw [nodeOf_setLocalnode, nodes, Function.update_self])
      rw [localOf_setLocalnode_none, Function.update_self] at back
      cases back
  | false =>
    cases drops : h.drops ll r with
    | false => simpa using paired
    | true =>
      simp only [Bool.false_eq_true, if_false, if_true, false_implies, true_and, forall_const,
        Paired, nodeOf_setLocalnode, localOf_setLocalnode_none]
      exact PairedPointers.Paired.drop_iff paired r

theorem Paired.newNode (paired : h.Paired) {n : NodeRef} (unused : h.nodes n = none)
    (data : NodeData) : (h.newNode n data).Paired := by
  refine paired.of_eq rfl ?_
  funext k
  by_cases same : k = n
  · subst same
    simp [Heap.newNode, localOf, unused]
  · simp [Heap.newNode, localOf, same]

theorem Paired.readnodesSync_iff (paired : h.Paired) {n : NodeRef} (unused : h.nodes n = none)
    (l : LocalRef) (data : NodeData) :
    (h.readnodesSync l n data).Paired ↔ (h.locals l).isSome := by
  have created := paired.newNode unused data
  have target : ((h.newNode n data).nodes n).isSome := by simp [Heap.newNode]
  have free : (h.newNode n data).localOf n = none := by simp [Heap.newNode, localOf]
  unfold Heap.readnodesSync
  split
  · rename_i alive
    exact (created.setnode_iff (by exact alive) target).trans ⟨fun _ => alive, fun _ => .inl free⟩
  · rename_i dead
    refine ⟨fun dangling => ?_, fun alive => absurd alive dead⟩
    have points := (dangling l n).mpr
      (by rw [localOf_setLocalnode _ target, Function.update_self])
    obtain ⟨ll, at_l, _⟩ := Option.bind_eq_some_iff.mp points
    have alive : (h.locals l).isSome := by
      rw [show h.locals l = some ll from at_l]
      rfl
    exact absurd alive dead

end Steps

/-- What keeps the bijection, event by event: `setnode` is given a Node that no other
LocalNode has, `syncdown` does not drop the association of a Node, and the LocalNode of a
pending creation still exists when the response arrives. -/
def Sound (h : Heap) : Event → Prop
  | .setnode l (some n) => (h.locals l).isSome → h.Free l n
  | .syncdown ll r =>
    (h.associates ll r → h.Free ll r) ∧
      (h.drops ll r → h.associates ll r = false ∧ h.localOf r = none)
  | .syncup ll r => h.syncupSkips ll r = false → h.associates ll r → h.Free ll r
  | .readnodes l n _ => (h.nodes n).isNone → (h.locals l).isSome
  | _ => True

instance decidableSound (h : Heap) : (e : Event) → Decidable (h.Sound e)
  | .setnode _ (some _) => inferInstanceAs (Decidable (_ → _))
  | .setnode _ none => isTrue trivial
  | .syncdown _ _ => inferInstanceAs (Decidable (_ ∧ _))
  | .syncup _ _ => inferInstanceAs (Decidable (_ → _ → _))
  | .readnodes _ _ _ => inferInstanceAs (Decidable (_ → _))
  | .newNode _ _ | .newLocal _ _ | .editNode _ _ | .editLocal _ _ | .notifynode _
  | .movetosyncdebris _ | .deleteNode _ | .deleteLocal _ _ => isTrue trivial

/-- A new `LocalNode` is not associated. -/
theorem Paired.step_newLocal {h : Heap} (paired : h.Paired) (l : LocalRef) (data : LocalData) :
    (h.step (.newLocal l data)).Paired := by
  rw [step]
  split
  · exact paired
  · rename_i unused
    refine paired.of_eq ?_ rfl
    funext k
    by_cases same : k = l
    · subst same
      simp [nodeOf, show h.locals k = none by simpa using unused]
    · simp [nodeOf, same]

theorem Paired.step_setnode_iff {h : Heap} (paired : h.Paired) (l : LocalRef)
    (cnode : Option NodeRef) :
    (h.step (.setnode l cnode)).Paired ↔ h.Sound (.setnode l cnode) := by
  cases cnode with
  | none =>
    refine ⟨fun _ => trivial, fun _ => ?_⟩
    rw [step]
    split
    · rename_i alive
      exact paired.setnode_null alive
    · exact paired
  | some n =>
    rw [step, Sound]
    split
    · rename_i alive
      rw [paired.setnode_iff alive.1 alive.2]
      exact ⟨fun free _ => free, fun free => free alive.1⟩
    · rename_i dead
      refine ⟨fun _ alive => .inl ?_, fun _ => paired⟩
      have gone : h.nodes n = none := by simpa [alive] using dead
      simp [localOf, gone]

theorem Paired.step_iff (h : Heap) (e : Event) (paired : h.Paired) :
    (h.step e).Paired ↔ h.Sound e := by
  cases e with
  | newNode n data =>
    refine ⟨fun _ => trivial, fun _ => ?_⟩
    rw [step]
    split
    · exact paired
    · rename_i unused
      exact paired.newNode (by simpa using unused) data
  | newLocal l data => exact ⟨fun _ => trivial, fun _ => paired.step_newLocal l data⟩
  | editNode n data =>
    refine ⟨fun _ => trivial, fun _ => ?_⟩
    exact paired.of_eq rfl (h.localOf_modifyNode_data fun _ => by rfl)
  | editLocal l data =>
    refine ⟨fun _ => trivial, fun _ => ?_⟩
    exact paired.of_eq (h.nodeOf_modifyLocal_data fun _ => by rfl) rfl
  | setnode l cnode => exact paired.step_setnode_iff l cnode
  | syncdown ll r => exact paired.syncdownItem_iff ll r
  | syncup ll r =>
    rw [step, Sound, syncupItem]
    cases skips : h.syncupSkips ll r with
    | true => simpa using paired
    | false =>
      cases associates : h.associates ll r with
      | false => simpa using paired
      | true =>
        obtain ⟨alive, target⟩ := alive_of_associates associates
        simpa using paired.setnode_iff alive target
  | notifynode n => exact ⟨fun _ => trivial, fun _ => paired.notifynode n⟩
  | movetosyncdebris n => exact ⟨fun _ => trivial, fun _ => paired.movetosyncdebris n⟩
  | readnodes l n data =>
    rw [step, Sound]
    cases at_n : h.nodes n with
    | some node => simpa using paired
    | none => simpa using paired.readnodesSync_iff at_n l data
  | deleteNode n => exact ⟨fun _ => trivial, fun _ => paired.deleteNode n⟩
  | deleteLocal cancelled l => exact ⟨fun _ => trivial, fun _ => paired.deleteLocal cancelled l⟩

/-- The association is a partial bijection in every state of a run exactly if every event of
the run is sound in the state in which it happens. -/
theorem always_paired_iff {h : Heap} (paired : h.Paired) (events : List Event) :
    Runs.Always step Paired h events ↔ Runs.Meets step Sound h events :=
  Runs.always_iff_meets Paired.step_iff paired events

def empty : Heap := ⟨fun _ => none, fun _ => none⟩

theorem paired_empty : empty.Paired := by
  intro l n
  exact ⟨fun points => (by cases points), fun points => (by cases points)⟩

namespace Sample

def file (mtime : Int) : FileFingerprint :=
  ⟨3, mtime, Vector.replicate 4 (UInt32.ofNat mtime.toNat), true⟩

def node (type : NodeType) (parent : Option NodeRef) (mtime : Int) : NodeData :=
  ⟨type, parent, false, false, false, file mtime⟩

def local' (type : NodeType) (parent : Option LocalRef) (mtime : Int) : LocalData :=
  ⟨type, parent, false, file mtime⟩

def folder : List Event :=
  [.newNode 0 (node folderNode none 0), .newLocal 0 (local' folderNode none 0),
    .setnode 0 (some 0)]

/-- A local file that is uploaded and later deleted. -/
def uploaded : List Event :=
  folder ++ [.newLocal 1 (local' fileNode (some 0) 5), .readnodes 1 1 (node fileNode (some 0) 5),
    .notifynode 1, .syncdown 1 1, .syncup 1 1, .deleteLocal false 1, .deleteNode 1]

/-- A file that exists on both sides, the remote version being newer. -/
def newerRemote : List Event :=
  folder ++ [.newLocal 1 (local' fileNode (some 0) 5), .newNode 1 (node fileNode (some 0) 9),
    .syncdown 1 1]

end Sample

theorem always_paired_uploaded : Runs.Always step Paired empty Sample.uploaded :=
  (always_paired_iff paired_empty Sample.uploaded).mpr (by decide)

/-- `syncdown` associates the newer remote file and at once clears its side of the pair. -/
theorem newerRemote_unpaired : ¬(Runs.run step empty Sample.newerRemote).Paired := by
  intro paired
  have points : (Runs.run step empty Sample.newerRemote).nodeOf 1 = some 1 := by decide
  have cleared : (Runs.run step empty Sample.newerRemote).localOf 1 = none := by decide
  rw [(paired 1 1).mp points] at cleared
  cases cleared

end Heap

end MegaSdk.Sync
