import MegaSdk.Sync.Creation
import MegaSdk.Sync.Direction

/-!
# Batches of node creations

`syncup` appends what the remote side lacks to one list, in the order of its descent, and
`syncupdate` cuts that list into subtrees again: a new one begins at every element whose parent
has a node. A subtree goes out with the node of its topmost parent as its target, unless that
node is gone. The commands are those that the counter of creations counts.
-/

namespace MegaSdk.Sync

/-- A `LocalNode` of the tree; its type and its association are those in the heap. -/
structure LocalItem where
  entry : LocalEntry
  syncid : UInt64

namespace LocalItem

abbrev ref (l : LocalItem) : LocalRef := l.entry.ref

end LocalItem

/-- The children of a `LocalNode` in the order of the map, each with its own children. -/
inductive Children where
  | nil
  | cons (l : LocalItem) (below next : Children)

def Children.refs : Children → List LocalRef
  | nil => []
  | cons l below next => l.ref :: (below.refs ++ next.refs)

/-- An element of `synccreate`, with its parent. -/
structure Created where
  l : LocalItem
  parent : LocalItem

/-- The remote tree: the children and the handles of nodes, and the index by fingerprints. -/
structure Remote where
  children : NodeRef → List RemoteEntry
  nodehandle : NodeRef → UInt64
  fingerprints : FileFingerprint → Option NodeRef

/-- `NewNode`; `parenthandle` is none for `UNDEF`. -/
structure NewNode where
  type : NodeType
  syncid : UInt64
  nodehandle : UInt64
  parenthandle : Option UInt64
  localnode : Created

/-- `CommandPutNodes`. -/
structure PutNodes where
  target : UInt64
  newnodes : List NewNode

/-- What `syncupdate` does: the associations afterwards, the commands, and the uploads. -/
structure Update where
  heap : Heap
  putnodes : List PutNodes
  puts : List Created

namespace Heap

/-- The child hash of a folder, which is empty without a node. -/
def remoteTable (h : Heap) (remote : Remote) (l : LocalRef) : ChildTable :=
  h.upTable ((h.nodeOf l).elim [] remote.children)

/-- What `syncup` does about a child, without the call for a folder: whether it goes to
`synccreate`. -/
def syncupChild (h : Heap) (table : ChildTable) (ll : LocalEntry) : Heap × Bool :=
  match h.locals ll.ref with
  | none => (h, false)
  | some l =>
    if l.data.deleted then (h, false)
    else
      match table ll.name with
      | none => (h, sendable l ll)
      | some r =>
        match h.nodes r.id with
        | none => (h, false)
        | some n =>
          if l.data.type ≠ n.data.type || h.syncupSkips ll.ref r.id then (h, false)
          else if l.data.type = fileNode then
            (h.syncupItem ll.ref r.id,
              !likelyIdentical l.data.file n.data.file && sendable l ll)
          else (h.syncupItem ll.ref r.id, false)

/-- Folders that are not deleted are entered, with a remote folder of their name or without. -/
def entersFolder (h : Heap) (table : ChildTable) (ll : LocalEntry) : Bool :=
  (h.locals ll.ref).any fun l =>
    !l.data.deleted && l.data.type = folderNode &&
      (table ll.name).all fun r => (h.nodes r.id).any fun n => n.data.type = folderNode

/-- The loop of `syncup` over the children of `p`, whose child hash is `table`. -/
def syncupFrom (remote : Remote) (p : LocalItem) (table : ChildTable) :
    Children → Heap → Heap × List Created
  | .nil, h => (h, [])
  | .cons l below next, h =>
    let child := h.syncupChild table l.entry
    let inner := if h.entersFolder table l.entry then
        syncupFrom remote l (child.1.remoteTable remote l.ref) below child.1
      else (child.1, [])
    let rest := syncupFrom remote p table next inner.1
    (rest.1, (if child.2 then [⟨l, p⟩] else []) ++ inner.2 ++ rest.2)

/-- `MegaClient::syncup` of the root of a sync: the associations afterwards, and `synccreate`. -/
def syncup (h : Heap) (remote : Remote) (root : LocalItem) (children : Children) :
    Heap × List Created :=
  syncupFrom remote root (h.remoteTable remote root.ref) children h

/-- One element: a new node for a folder or a file that exists already, or an upload. The node of
a file that is replaced by a copy goes to the debris. -/
def createOne (h : Heap) (remote : Remote) (first : Bool) (k : Created) :
    Heap × Option NewNode × Option Created :=
  match h.locals k.l.ref with
  | none => (h, none, none)
  | some l =>
    let parenthandle := if first then none else some k.parent.syncid
    if l.data.type = folderNode then
      (h, some ⟨l.data.type, k.l.syncid, k.l.syncid, parenthandle, k⟩, none)
    else
      match remote.fingerprints l.data.file with
      | some n =>
        (l.node.elim h h.movetosyncdebris,
          some ⟨l.data.type, k.l.syncid, remote.nodehandle n, parenthandle, k⟩, none)
      | none => (h, none, if l.data.type = fileNode then some k else none)

def createAll (remote : Remote) : Bool → Heap → List Created →
    Heap × List NewNode × List Created
  | _, h, [] => (h, [], [])
  | first, h, k :: rest =>
    let one := h.createOne remote first k
    let more := createAll remote false one.1 rest
    (more.1, one.2.1.toList ++ more.2.1, one.2.2.toList ++ more.2.2)

/-- The loop of `syncupdate` over `synccreate`. -/
def syncupdateFrom (remote : Remote) : Nat → Heap → List Created → Update
  | 0, h, _ => ⟨h, [], []⟩
  | _, h, [] => ⟨h, [], []⟩
  | fuel + 1, h, k :: rest =>
    let inside := fun e : Created => (h.nodeOf e.parent.ref).isNone
    let created := createAll remote true h (k :: rest.takeWhile inside)
    let sent := if created.2.1.isEmpty then []
      else
        match created.1.nodeOf k.parent.ref with
        | some n => [⟨remote.nodehandle n, created.2.1⟩]
        | none => []
    let more := syncupdateFrom remote fuel created.1 (rest.dropWhile inside)
    ⟨more.heap, sent ++ more.putnodes, created.2.2 ++ more.puts⟩

def syncupdate (h : Heap) (remote : Remote) (synccreate : List Created) : Update :=
  syncupdateFrom remote synccreate.length h synccreate

def localType (h : Heap) (l : LocalRef) : Option NodeType :=
  (h.locals l).map fun ll => ll.data.type

def nodeType (h : Heap) (n : NodeRef) : Option NodeType :=
  (h.nodes n).map fun node => node.data.type

def FileOrFolder (h : Heap) (l : LocalRef) : Prop :=
  h.localType l = some fileNode ∨ h.localType l = some folderNode

instance (h : Heap) (l : LocalRef) : Decidable (h.FileOrFolder l) :=
  inferInstanceAs (Decidable (h.localType l = some fileNode ∨ h.localType l = some folderNode))

/-- A folder without a node has only descendants without one. -/
def NodelessBelow (h : Heap) : Children → Prop
  | .nil => True
  | .cons l below next =>
    (h.nodeOf l.ref = none → ∀ r ∈ below.refs, h.nodeOf r = none) ∧
      h.NodelessBelow below ∧ h.NodelessBelow next

/-- The `LocalNode`s of a sync: files and folders, each at one place. -/
structure IsTree (h : Heap) (root : LocalItem) (children : Children) : Prop where
  distinct : (root.ref :: children.refs).Nodup
  folder : h.localType root.ref = some folderNode
  kinds : ∀ r ∈ children.refs, h.FileOrFolder r
  nodeless : h.nodeOf root.ref = none → ∀ r ∈ children.refs, h.nodeOf r = none
  nodelessBelow : h.NodelessBelow children

structure Typed (h : Heap) : Prop where
  node : ∀ l n, h.nodeOf l = some n → h.localType l = h.nodeType n
  localnode : ∀ n l, h.localOf n = some l → h.localType l = h.nodeType n

/-- Every new node has a parent handle that an earlier folder has as its `syncid`. -/
def ClosedFrom : List NewNode → List NewNode → Prop
  | _, [] => True
  | earlier, nn :: rest =>
    (∃ f ∈ earlier, f.type = folderNode ∧ nn.parenthandle = some f.syncid) ∧
      ClosedFrom (nn :: earlier) rest

/-- A batch goes to the node of its first element's parent, and has all other parents in it. -/
def Closed (h : Heap) (remote : Remote) (batch : PutNodes) : Prop :=
  ∃ nn rest, batch.newnodes = nn :: rest ∧ nn.parenthandle = none ∧
    (h.nodeOf nn.localnode.parent.ref).map remote.nodehandle = some batch.target ∧
    ClosedFrom [nn] rest

/-- The batches are closed, and every element is in one of them or is uploaded. -/
def Splits (h : Heap) (remote : Remote) (root : LocalItem) (children : Children) : Prop :=
  let up := h.syncup remote root children
  let done := up.1.syncupdate remote up.2
  (∀ batch ∈ done.putnodes, up.1.Closed remote batch) ∧
    ((done.putnodes.flatMap fun batch => batch.newnodes.map NewNode.localnode) ++
      done.puts).Perm up.2

section Frame
variable {h : Heap} {table : ChildTable} {ll : LocalEntry}

/-- The heap is as it was, or the child has got the remote node of its name. -/
theorem syncupChild_heap (h : Heap) (table : ChildTable) (ll : LocalEntry) :
    (h.syncupChild table ll).1 = h ∨
      ∃ n, h.associates ll.ref n = true ∧
        (h.syncupChild table ll).1 = h.setnode ll.ref (some n) := by
  have item : ∀ n, h.syncupItem ll.ref n = h ∨
      h.associates ll.ref n = true ∧ h.syncupItem ll.ref n = h.setnode ll.ref (some n) := by
    intro n
    rw [syncupItem]
    split
    · next both => exact .inr ⟨(Bool.and_eq_true_iff.mp both).2, rfl⟩
    · exact .inl rfl
  have items : ∀ n, h.syncupItem ll.ref n = h ∨
      ∃ m, h.associates ll.ref m = true ∧ h.syncupItem ll.ref n = h.setnode ll.ref (some m) :=
    fun n => (item n).imp id fun both => ⟨n, both⟩
  rw [syncupChild]
  split
  · exact .inl rfl
  · split
    · exact .inl rfl
    · split
      · exact .inl rfl
      · split
        · exact .inl rfl
        · split
          · exact .inl rfl
          · split
            · exact items _
            · exact items _

theorem localType_of_view {g : Heap} (view : g.localView = h.localView) (l : LocalRef) :
    g.localType l = h.localType l := by
  have fields := congrArg (Option.map Prod.fst) (congrFun view l)
  simpa [localView, localType, Function.comp_def] using fields

theorem nodeType_of_view {g : Heap} (view : g.nodeView = h.nodeView) (n : NodeRef) :
    g.nodeType n = h.nodeType n := by
  have fields := congrArg (Option.map Prod.fst) (congrFun view n)
  simpa [nodeView, nodeType, Function.comp_def] using fields

/-- Types stay, and only the child itself may get another node. -/
structure Extends (h g : Heap) (refs : List LocalRef) : Prop where
  localType : ∀ l, g.localType l = h.localType l
  nodeType : ∀ n, g.nodeType n = h.nodeType n
  nodeOf : ∀ l, l ∉ refs → g.nodeOf l = h.nodeOf l
  kept : ∀ l, (h.nodeOf l).isSome → (g.nodeOf l).isSome

theorem Extends.refl (h : Heap) (refs : List LocalRef) : h.Extends h refs :=
  ⟨fun _ => rfl, fun _ => rfl, fun _ _ => rfl, fun _ some => some⟩

theorem Extends.trans {f g : Heap} {refs more : List LocalRef} (first : f.Extends g refs)
    (second : g.Extends h more) : f.Extends h (refs ++ more) where
  localType l := (second.localType l).trans (first.localType l)
  nodeType n := (second.nodeType n).trans (first.nodeType n)
  nodeOf l outside := by
    rw [List.mem_append, not_or] at outside
    exact (second.nodeOf l outside.2).trans (first.nodeOf l outside.1)
  kept l some := second.kept l (first.kept l some)

theorem Extends.mono {g : Heap} {refs more : List LocalRef} (extends_ : h.Extends g refs)
    (fewer : refs ⊆ more) : h.Extends g more :=
  { extends_ with
    nodeOf := fun l outside => extends_.nodeOf l fun inside => outside (fewer inside) }

/-- Only objects of one type are associated. -/
theorem type_of_associates {l : LocalRef} {n : NodeRef} (associates : h.associates l n = true) :
    h.localType l = h.nodeType n := by
  rw [Heap.associates] at associates
  split at associates
  · next at_l at_n =>
    rw [localType, nodeType, at_l, at_n]
    simp only [Bool.and_eq_true, decide_eq_true_eq] at associates
    exact congrArg some associates.1
  · cases associates

theorem Typed.setnode (typed : h.Typed) {l : LocalRef} {n : NodeRef}
    (associates : h.associates l n = true) : (h.setnode l (some n)).Typed := by
  obtain ⟨alive, target⟩ := alive_of_associates associates
  obtain ⟨nodes, locals⟩ := h.setnode_pointers alive target
  obtain ⟨nodeView, localView⟩ := h.alike_setnode l (some n)
  have same := type_of_associates associates
  refine ⟨fun k m points => ?_, fun m k points => ?_⟩
  · rw [localType_of_view localView, nodeType_of_view nodeView]
    rw [nodes, Function.update_apply] at points
    split at points
    · next here =>
      cases points
      rw [here, same]
    · exact typed.node k m points
  · rw [localType_of_view localView, nodeType_of_view nodeView]
    rw [locals, Function.update_apply] at points
    split at points
    · next here =>
      cases points
      rw [here, same]
    · refine typed.localnode m k ?_
      cases old : h.nodeOf l with
      | none =>
        rw [old] at points
        exact points
      | some former =>
        rw [old, PairedPointers.clearTarget, Function.update_apply] at points
        split at points
        · cases points
        · exact points

theorem extends_syncupChild (h : Heap) (table : ChildTable) (ll : LocalEntry) :
    h.Extends (h.syncupChild table ll).1 [ll.ref] := by
  rcases h.syncupChild_heap table ll with same | ⟨n, associates, set⟩
  · rw [same]
    exact Extends.refl h _
  · rw [set]
    obtain ⟨alive, target⟩ := alive_of_associates associates
    obtain ⟨nodes, -⟩ := h.setnode_pointers alive target
    obtain ⟨nodeView, localView⟩ := h.alike_setnode ll.ref (some n)
    refine ⟨localType_of_view localView, nodeType_of_view nodeView, fun l outside => ?_,
      fun l some => ?_⟩
    · rw [nodes, Function.update_of_ne (by simpa using outside)]
    · rw [nodes, Function.update_apply]
      split
      · rfl
      · exact some

theorem Typed.syncupChild (typed : h.Typed) : (h.syncupChild table ll).1.Typed := by
  rcases h.syncupChild_heap table ll with same | ⟨n, associates, set⟩
  · rw [same]
    exact typed
  · rw [set]
    exact typed.setnode associates

/-- The parts of the loop: the child, the call for a folder, and the children behind it. -/
theorem syncupFrom_cons (remote : Remote) (p : LocalItem) (table : ChildTable) (l : LocalItem)
    (below next : Children) (h : Heap) :
    ∃ inner : Heap × List Created,
      (h.entersFolder table l.entry = false ∧ inner = ((h.syncupChild table l.entry).1, []) ∨
        h.entersFolder table l.entry = true ∧ inner = syncupFrom remote l
          ((h.syncupChild table l.entry).1.remoteTable remote l.ref) below
          (h.syncupChild table l.entry).1) ∧
      syncupFrom remote p table (.cons l below next) h =
        ((syncupFrom remote p table next inner.1).1,
          (if (h.syncupChild table l.entry).2 then [⟨l, p⟩] else []) ++ inner.2 ++
            (syncupFrom remote p table next inner.1).2) := by
  cases enters : h.entersFolder table l.entry with
  | false => exact ⟨_, .inl ⟨rfl, rfl⟩, by simp [syncupFrom, enters]⟩
  | true => exact ⟨_, .inr ⟨rfl, rfl⟩, by simp [syncupFrom, enters]⟩

/-- Only the children themselves may get other nodes, and no node is lost. -/
theorem extends_syncupFrom (remote : Remote) (children : Children) (p : LocalItem)
    (table : ChildTable) (h : Heap) :
    h.Extends (syncupFrom remote p table children h).1 children.refs ∧
      (h.Typed → (syncupFrom remote p table children h).1.Typed) := by
  induction children generalizing p table h with
  | nil => exact ⟨Extends.refl h _, id⟩
  | cons l below next inBelow inNext =>
    have child := extends_syncupChild h table l.entry
    have childTyped : h.Typed → (h.syncupChild table l.entry).1.Typed := Typed.syncupChild
    obtain ⟨inner, enters, parts⟩ := syncupFrom_cons remote p table l below next h
    have middle : h.Extends inner.1 (l.ref :: below.refs) ∧ (h.Typed → inner.1.Typed) := by
      rcases enters with ⟨-, rfl⟩ | ⟨-, rfl⟩
      · exact ⟨child.mono (by simp), childTyped⟩
      · obtain ⟨extends_, typed⟩ := inBelow l
          ((h.syncupChild table l.entry).1.remoteTable remote l.ref) (h.syncupChild table l.entry).1
        exact ⟨child.trans extends_, typed ∘ childTyped⟩
    obtain ⟨extends_, typed⟩ := inNext p table inner.1
    rw [parts]
    exact ⟨middle.1.trans extends_, typed ∘ middle.2⟩

end Frame

/-- The elements of a subtree behind its first one: each has an earlier folder as its parent,
which has no node. -/
def Hanging (h : Heap) : List LocalItem → List Created → Prop
  | _, [] => True
  | placed, k :: rest =>
    (h.nodeOf k.parent.ref = none ∧ k.parent ∈ placed ∧
      h.localType k.parent.ref = some folderNode) ∧
      h.Hanging (k.l :: placed) rest

/-- Subtrees one after the other, each below a folder with a node. -/
inductive Segmented (h : Heap) : List Created → Prop
  | nil : Segmented h []
  | subtree {k : Created} {tail rest : List Created} :
      (h.nodeOf k.parent.ref).isSome → h.localType k.parent.ref = some folderNode →
      h.Hanging [k.l] tail → Segmented h rest → Segmented h (k :: (tail ++ rest))

section Subtrees
variable {g h : Heap}

theorem Hanging.mono {placed more : List LocalItem} {list : List Created}
    (hanging : h.Hanging placed list) (fewer : placed ⊆ more) : h.Hanging more list := by
  induction list generalizing placed more with
  | nil => trivial
  | cons k rest ih =>
    obtain ⟨⟨nodeless, parent, folder⟩, behind⟩ := hanging
    exact ⟨⟨nodeless, fewer parent, folder⟩, ih behind (List.cons_subset_cons k.l fewer)⟩

theorem Hanging.append {placed : List LocalItem} {list more : List Created}
    (first : h.Hanging placed list) (second : h.Hanging placed more) :
    h.Hanging placed (list ++ more) := by
  induction list generalizing placed with
  | nil => exact second
  | cons k rest ih =>
    exact ⟨first.1, ih first.2 (second.mono (List.subset_cons_self k.l placed))⟩

/-- Only the parents matter. -/
theorem Hanging.congr {placed : List LocalItem} {list : List Created}
    (hanging : h.Hanging placed list) (types : ∀ l, g.localType l = h.localType l)
    (same : ∀ k ∈ list, g.nodeOf k.parent.ref = h.nodeOf k.parent.ref) :
    g.Hanging placed list := by
  induction list generalizing placed with
  | nil => trivial
  | cons k rest ih =>
    obtain ⟨⟨nodeless, parent, folder⟩, behind⟩ := hanging
    refine ⟨⟨?_, parent, (types _).trans folder⟩, ih behind fun e mem => same e (.tail _ mem)⟩
    rw [same k List.mem_cons_self, nodeless]

theorem Segmented.congr {list : List Created} (segmented : Segmented h list)
    (types : ∀ l, g.localType l = h.localType l)
    (same : ∀ k ∈ list, g.nodeOf k.parent.ref = h.nodeOf k.parent.ref) : Segmented g list := by
  induction segmented with
  | nil => exact .nil
  | @subtree k tail rest noded folder hanging _ ih =>
    refine .subtree ?_ ((types _).trans folder)
      (hanging.congr types fun e mem => same e (by simp [mem]))
      (ih fun e mem => same e (by simp [mem]))
    rw [same k List.mem_cons_self]
    exact noded

theorem Segmented.append {list more : List Created} (first : Segmented h list)
    (second : Segmented h more) : Segmented h (list ++ more) := by
  induction first with
  | nil => exact second
  | subtree noded folder hanging _ ih =>
    rw [List.cons_append, List.append_assoc]
    exact .subtree noded folder hanging ih

theorem Segmented.single {k : Created} (noded : (h.nodeOf k.parent.ref).isSome)
    (folder : h.localType k.parent.ref = some folderNode) : Segmented h [k] := by
  have one : Segmented h (k :: ([] ++ [])) := .subtree noded folder trivial .nil
  exact one

/-- Without remote children nothing is associated, and every folder that is entered is created. -/
theorem syncupChild_empty (h : Heap) (ll : LocalEntry) :
    (h.syncupChild (fun _ => none) ll).1 = h ∧
      (h.entersFolder (fun _ => none) ll = true → (h.syncupChild (fun _ => none) ll).2 = true) := by
  rw [syncupChild, entersFolder]
  cases h.locals ll.ref with
  | none => exact ⟨rfl, fun enters => by cases enters⟩
  | some l =>
    cases deleted : l.data.deleted with
    | true => simp [deleted]
    | false =>
      refine ⟨by simp [deleted], fun enters => ?_⟩
      have folder : l.data.type = folderNode := by simpa [deleted] using enters
      simp [deleted, sendable, folder, folderNode, fileNode]

theorem folder_of_enters {table : ChildTable} {ll : LocalEntry}
    (enters : h.entersFolder table ll = true) : h.localType ll.ref = some folderNode := by
  rw [entersFolder] at enters
  cases at_l : h.locals ll.ref with
  | none =>
    rw [at_l] at enters
    cases enters
  | some l =>
    rw [at_l, Option.any_some, Bool.and_eq_true, Bool.and_eq_true, decide_eq_true_eq] at enters
    rw [localType, at_l, Option.map_some, enters.1.2]

/-- What is below a folder without a node goes to `synccreate` behind the folder. -/
theorem hanging_syncupFrom (remote : Remote) (children : Children) (p : LocalItem) (h : Heap)
    (folder : h.localType p.ref = some folderNode) (nodeless : h.nodeOf p.ref = none)
    (below : ∀ r ∈ children.refs, h.nodeOf r = none) :
    (syncupFrom remote p (fun _ => none) children h).1 = h ∧
      ∀ placed, p ∈ placed →
        h.Hanging placed (syncupFrom remote p (fun _ => none) children h).2 := by
  induction children generalizing p with
  | nil => exact ⟨rfl, fun _ _ => trivial⟩
  | cons l inside next inBelow inNext =>
    obtain ⟨inner, enters, parts⟩ := syncupFrom_cons remote p (fun _ => none) l inside next h
    obtain ⟨same, created⟩ := h.syncupChild_empty l.entry
    obtain ⟨nextSame, nextHanging⟩ := inNext p folder nodeless fun r mem => below r (by
      simp [Children.refs, mem])
    rw [same] at enters
    have called : inner.1 = h ∧ ∀ placed, l ∈ placed → h.Hanging placed inner.2 := by
      rcases enters with ⟨-, rfl⟩ | ⟨entered, rfl⟩
      · exact ⟨rfl, fun _ _ => trivial⟩
      · have alone : h.nodeOf l.ref = none := below l.ref List.mem_cons_self
        have table : h.remoteTable remote l.ref = fun _ => none := by
          rw [remoteTable, alone]
          rfl
        rw [table]
        exact inBelow l (folder_of_enters entered) alone fun r mem => below r (by
          simp [Children.refs, mem])
    rw [parts, called.1]
    refine ⟨nextSame, fun placed mem => ?_⟩
    cases sent : (h.syncupChild (fun _ => none) l.entry).2 with
    | true =>
      have first : h.Hanging placed (⟨l, p⟩ :: (inner.2 ++
          (syncupFrom remote p (fun _ => none) next h).2)) :=
        ⟨⟨nodeless, mem, folder⟩, (called.2 _ List.mem_cons_self).append
          ((nextHanging placed mem).mono (List.subset_cons_self l placed))⟩
      exact first
    | false =>
      have skipped : inner.2 = [] := by
        rcases enters with ⟨-, rfl⟩ | ⟨entered, -⟩
        · rfl
        · rw [created entered] at sent
          cases sent
      rw [skipped]
      exact nextHanging placed mem

/-- A folder that is entered has a node afterwards, or is created and everything is as before. -/
theorem entered_child {table : ChildTable} {ll : LocalEntry}
    (enters : h.entersFolder table ll = true) :
    ((h.syncupChild table ll).1.nodeOf ll.ref).isSome ∨ h.syncupChild table ll = (h, true) := by
  rw [entersFolder] at enters
  cases at_l : h.locals ll.ref with
  | none =>
    rw [at_l] at enters
    cases enters
  | some l =>
    rw [at_l, Option.any_some, Bool.and_eq_true, Bool.and_eq_true, decide_eq_true_eq,
      Bool.not_eq_true'] at enters
    obtain ⟨⟨alive, folder⟩, winner⟩ := enters
    cases at_name : table ll.name with
    | none =>
      right
      simp [syncupChild, at_l, alive, at_name, sendable, folder, folderNode, fileNode]
    | some r =>
      left
      rw [at_name, Option.all_some, Option.any_eq_true] at winner
      obtain ⟨n, at_n, same⟩ := winner
      have remoteFolder : n.data.type = folderNode := by simpa using same
      have open_ : h.syncupSkips ll.ref r.id = false := by
        simp [syncupSkips, at_l, at_n, alive, folder, folderNode, fileNode]
      have step : (h.syncupChild table ll).1 = h.syncupItem ll.ref r.id := by
        simp [syncupChild, at_l, at_n, alive, at_name, folder, remoteFolder, open_, folderNode,
          fileNode]
      rw [step, syncupItem, open_]
      cases associates : h.associates ll.ref r.id with
      | true =>
        obtain ⟨live, target⟩ := alive_of_associates associates
        rw [Bool.not_false, Bool.and_true, if_pos rfl, (h.setnode_pointers live target).1,
          Function.update_self]
        rfl
      | false =>
        have already : l.node = some r.id := by
          simpa [Heap.associates, at_l, at_n, folder, remoteFolder, folderNode, fileNode]
            using associates
        simp [nodeOf, at_l, already]

theorem NodelessBelow.congr {children : Children} (nodeless : h.NodelessBelow children)
    (same : ∀ r ∈ children.refs, g.nodeOf r = h.nodeOf r) : g.NodelessBelow children := by
  induction children with
  | nil => trivial
  | cons l below next inBelow inNext =>
    obtain ⟨here, inside, behind⟩ := nodeless
    refine ⟨fun alone r mem => ?_,
      inBelow inside fun r mem => same r (by simp [Children.refs, mem]),
      inNext behind fun r mem => same r (by simp [Children.refs, mem])⟩
    rw [same r (by simp [Children.refs, mem])]
    exact here ((same l.ref List.mem_cons_self).symm.trans alone) r mem

/-- The elements are children of the folder or of folders below it. -/
theorem mem_syncupFrom (remote : Remote) (children : Children) (p : LocalItem) (table : ChildTable)
    (h : Heap) {k : Created} (mem : k ∈ (syncupFrom remote p table children h).2) :
    k.l.ref ∈ children.refs ∧ k.parent.ref ∈ p.ref :: children.refs := by
  induction children generalizing p table h with
  | nil => cases mem
  | cons l below next inBelow inNext =>
    obtain ⟨inner, enters, parts⟩ := syncupFrom_cons remote p table l below next h
    rw [parts] at mem
    rcases List.mem_append.mp mem with first | behind
    · rcases List.mem_append.mp first with here | inside
      · split at here
        · rw [List.mem_singleton] at here
          subst here
          simp [Children.refs]
        · cases here
      · rcases enters with ⟨-, rfl⟩ | ⟨-, rfl⟩
        · cases inside
        · obtain ⟨item, parent⟩ := inBelow _ _ _ inside
          exact ⟨by simp [Children.refs, item], by
            rcases List.mem_cons.mp parent with same | deeper
            · simp [Children.refs, same]
            · simp [Children.refs, deeper]⟩
    · obtain ⟨item, parent⟩ := inNext _ _ _ behind
      exact ⟨by simp [Children.refs, item], by
        rcases List.mem_cons.mp parent with same | deeper
        · simp [same]
        · simp [Children.refs, deeper]⟩

/-- A folder that is created without a node, and everything below it. -/
theorem subtree_syncupFrom (remote : Remote) (below : Children) {p l : LocalItem} {h : Heap}
    (folder : h.localType p.ref = some folderNode) (noded : (h.nodeOf p.ref).isSome)
    (created : h.localType l.ref = some folderNode) (alone : h.nodeOf l.ref = none)
    (nodeless : ∀ r ∈ below.refs, h.nodeOf r = none) :
    let called := syncupFrom remote l (h.remoteTable remote l.ref) below h
    Segmented called.1 (⟨l, p⟩ :: called.2) := by
  intro called
  have table : h.remoteTable remote l.ref = fun _ => none := by
    rw [remoteTable, alone]
    rfl
  obtain ⟨same, hanging⟩ := h.hanging_syncupFrom remote below l created alone nodeless
  rw [← table] at same hanging
  have whole : Segmented h (⟨l, p⟩ :: (called.2 ++ [])) :=
    .subtree noded folder (hanging [l] List.mem_cons_self) .nil
  rw [List.append_nil] at whole
  rw [show called.1 = h from same]
  exact whole

/-- The loop goes on behind a child with what it has left. -/
theorem syncupFrom_next (remote : Remote) (p : LocalItem) (table : ChildTable) (l : LocalItem)
    (below next : Children) (h : Heap) :
    let first := syncupFrom remote p table (.cons l below .nil) h
    let rest := syncupFrom remote p table next first.1
    syncupFrom remote p table (.cons l below next) h = (rest.1, first.2 ++ rest.2) := by
  cases enters : h.entersFolder table l.entry with
  | false => simp [syncupFrom, enters]
  | true => simp [syncupFrom, enters]

/-- A child of a folder with a node, and what is below the child. -/
theorem segmented_child (remote : Remote) {below : Children} {p l : LocalItem} {table : ChildTable}
    {h : Heap} (folder : h.localType p.ref = some folderNode) (noded : (h.nodeOf p.ref).isSome)
    (above : l.ref ∉ below.refs) (nodeless : h.NodelessBelow (.cons l below .nil))
    (inBelow : ∀ (table : ChildTable) (g : Heap), g.localType l.ref = some folderNode →
      (g.nodeOf l.ref).isSome → g.NodelessBelow below →
      Segmented (syncupFrom remote l table below g).1 (syncupFrom remote l table below g).2) :
    Segmented (syncupFrom remote p table (.cons l below .nil) h).1
      (syncupFrom remote p table (.cons l below .nil) h).2 := by
  obtain ⟨here, inside, -⟩ := nodeless
  have child : h.Extends (h.syncupChild table l.entry).1 [l.ref] := h.extends_syncupChild table _
  obtain ⟨inner, enters, parts⟩ := syncupFrom_cons remote p table l below .nil h
  have whole := (extends_syncupFrom remote (.cons l below .nil) p table h).1
  rw [parts] at whole ⊢
  simp only [syncupFrom, List.append_nil] at whole ⊢
  have single : Segmented inner.1 (if (h.syncupChild table l.entry).2 then [⟨l, p⟩] else []) := by
    split
    · exact .single (whole.kept p.ref noded) ((whole.localType p.ref).trans folder)
    · exact .nil
  rcases enters with ⟨-, rfl⟩ | ⟨entered, rfl⟩
  · rw [List.append_nil]
    exact single
  · cases owns : (h.syncupChild table l.entry).1.nodeOf l.ref with
    | some n =>
      refine single.append (inBelow _ _ ?_ ?_ ?_)
      · exact (child.localType l.ref).trans (folder_of_enters entered)
      · rw [owns]
        rfl
      · refine inside.congr fun r mem => child.nodeOf r fun hit => above ?_
        rw [← List.mem_singleton.mp hit]
        exact mem
    | none =>
      rcases entered_child entered with gained | created
      · rw [owns] at gained
        cases gained
      · rw [created] at owns ⊢
        exact subtree_syncupFrom remote below folder noded (folder_of_enters entered) owns
          (here owns)

/-- Below a folder with a node the descent leaves subtrees, one after the other. -/
theorem segmented_syncupFrom (remote : Remote) (children : Children) (p : LocalItem)
    (table : ChildTable) (h : Heap) (folder : h.localType p.ref = some folderNode)
    (noded : (h.nodeOf p.ref).isSome) (distinct : (p.ref :: children.refs).Nodup)
    (nodeless : h.NodelessBelow children) :
    Segmented (syncupFrom remote p table children h).1
      (syncupFrom remote p table children h).2 := by
  induction children generalizing p table h with
  | nil => exact .nil
  | cons l below next inBelow inNext =>
    obtain ⟨here, inside, behind⟩ := nodeless
    simp only [Children.refs, List.nodup_cons, List.mem_cons, List.mem_append, not_or,
      List.nodup_append] at distinct
    obtain ⟨⟨-, -, notNext⟩, ⟨above, apart⟩, belowDistinct, nextDistinct, disjoint⟩ := distinct
    have first : Segmented (syncupFrom remote p table (.cons l below .nil) h).1
        (syncupFrom remote p table (.cons l below .nil) h).2 :=
      segmented_child remote folder noded above ⟨here, inside, trivial⟩
        fun table g folder noded => inBelow l table g folder noded
          (List.nodup_cons.mpr ⟨above, belowDistinct⟩)
    have extended := (extends_syncupFrom remote (.cons l below .nil) p table h).1
    have later : ∀ r ∈ next.refs, r ∉ (Children.cons l below .nil).refs := by
      intro r mem hit
      simp only [Children.refs, List.append_nil, List.mem_cons] at hit
      rcases hit with same | deeper
      · exact apart (same ▸ mem)
      · exact disjoint r deeper r mem rfl
    rw [syncupFrom_next]
    generalize step : syncupFrom remote p table (.cons l below .nil) h = done at first extended
    have stays := (extends_syncupFrom remote next p table done.1).1
    have rest : Segmented (syncupFrom remote p table next done.1).1
        (syncupFrom remote p table next done.1).2 := by
      refine inNext p table done.1 ?_ (extended.kept p.ref noded) ?_ ?_
      · exact (extended.localType p.ref).trans folder
      · exact List.nodup_cons.mpr ⟨notNext, nextDistinct⟩
      · exact behind.congr fun r mem => extended.nodeOf r (later r mem)
    refine Segmented.append (first.congr stays.localType fun k mem => stays.nodeOf _ ?_) rest
    rw [← step] at mem
    intro hit
    rcases List.mem_cons.mp (mem_syncupFrom remote _ p table h mem).2 with same | deeper
    · exact notNext (same ▸ hit)
    · exact later _ hit deeper

end Subtrees

structure Settles (h g : Heap) : Prop where
  localType : ∀ l, g.localType l = h.localType l
  folders : ∀ l, h.localType l = some folderNode → g.nodeOf l = h.nodeOf l

section Settled
variable {f g h : Heap} {remote : Remote}

theorem Settles.refl (h : Heap) : h.Settles h := ⟨fun _ => rfl, fun _ _ => rfl⟩

theorem Settles.fileOrFolder {l : LocalRef} (settles : h.Settles g) (kind : h.FileOrFolder l) :
    g.FileOrFolder l := by
  rw [FileOrFolder, settles.localType]
  exact kind

theorem Settles.trans (first : f.Settles g) (second : g.Settles h) : f.Settles h where
  localType l := (second.localType l).trans (first.localType l)
  folders l folder :=
    (second.folders l ((first.localType l).trans folder)).trans (first.folders l folder)

/-- Some associations are gone, and the types are the same. -/
theorem Typed.fewer (typed : h.Typed) (localType : ∀ l, g.localType l = h.localType l)
    (nodeType : ∀ n, g.nodeType n = h.nodeType n)
    (nodes : ∀ l n, g.nodeOf l = some n → h.nodeOf l = some n)
    (locals : ∀ n l, g.localOf n = some l → h.localOf n = some l) : g.Typed where
  node l n points := by
    rw [localType, nodeType]
    exact typed.node l n (nodes l n points)
  localnode n l points := by
    rw [localType, nodeType]
    exact typed.localnode n l (locals n l points)

theorem nodeType_modifyNode (h : Heap) (n : NodeRef) {f : Node → Node}
    (kept : ∀ node, (f node).data.type = node.data.type) :
    (h.modifyNode n f).nodeType = h.nodeType := by
  funext k
  by_cases same : k = n
  · subst same
    cases at_k : h.nodes k <;> simp [nodeType, modifyNode, at_k, kept]
  · simp [nodeType, modifyNode, same]

theorem localType_modifyLocal (h : Heap) (l : LocalRef) {f : LocalNode → LocalNode}
    (kept : ∀ ll, (f ll).data.type = ll.data.type) :
    (h.modifyLocal l f).localType = h.localType := by
  funext k
  by_cases same : k = l
  · subst same
    cases at_k : h.locals k <;> simp [localType, modifyLocal, at_k, kept]
  · simp [localType, modifyLocal, same]

theorem unlink_pointers (h : Heap) (n : NodeRef) :
    (h.unlink n).localType = h.localType ∧ (h.unlink n).nodeType = h.nodeType ∧
      (h.unlink n).localOf = Function.update h.localOf n none ∧
      ∀ l, (h.unlink n).nodeOf l = if h.localOf n = some l then none else h.nodeOf l := by
  rw [unlink]
  cases owner : h.localOf n with
  | none =>
    have same : Function.update h.localOf n none = h.localOf := by
      rw [← owner, Function.update_eq_self]
    exact ⟨rfl, rfl, same.symm, fun l => by simp⟩
  | some k =>
    refine ⟨?_, ?_, ?_, fun l => ?_⟩
    · exact h.localType_modifyLocal k fun _ => by rfl
    · exact nodeType_modifyNode _ n fun _ => by rfl
    · rw [localOf_setLocalnode_none, localOf_modifyLocal]
    · rw [nodeOf_setLocalnode, nodeOf_clear, Function.update_apply]
      simp only [Option.some.injEq, eq_comm]

/-- `movetosyncdebris` of a node takes it away from its `LocalNode` only. -/
theorem movetosyncdebris_pointers (h : Heap) (n : NodeRef) :
    (h.movetosyncdebris n).localType = h.localType ∧ (h.movetosyncdebris n).nodeType = h.nodeType ∧
      (h.movetosyncdebris n).localOf = Function.update h.localOf n none ∧
      ∀ l, (h.movetosyncdebris n).nodeOf l = if h.localOf n = some l then none else h.nodeOf l := by
  have locals : (h.modifyNode n fun node =>
      { node with data := { node.data with syncdeleted := true } }).localOf = h.localOf :=
    h.localOf_modifyNode_data fun _ => by rfl
  have nodeType : (h.modifyNode n fun node =>
      { node with data := { node.data with syncdeleted := true } }).nodeType = h.nodeType :=
    h.nodeType_modifyNode n fun _ => by rfl
  obtain ⟨localType, nodeTypes, cleared, nodes⟩ := unlink_pointers (h.modifyNode n fun node =>
    { node with data := { node.data with syncdeleted := true } }) n
  rw [locals] at cleared nodes
  exact ⟨localType, nodeTypes.trans nodeType, cleared, nodes⟩

/-- The node that is replaced by a copy is a file's, and so is its `LocalNode`. -/
theorem Settles.movetosyncdebris (typed : h.Typed) {l : LocalRef} {n : NodeRef}
    (points : h.nodeOf l = some n) (notFolder : h.localType l ≠ some folderNode) :
    h.Settles (h.movetosyncdebris n) ∧ (h.movetosyncdebris n).Typed := by
  obtain ⟨localType, nodeType, locals, nodes⟩ := h.movetosyncdebris_pointers n
  refine ⟨⟨congrFun localType, fun k folder => ?_⟩, typed.fewer (congrFun localType)
    (congrFun nodeType) (fun k m now => ?_) fun m k now => ?_⟩
  · rw [nodes, if_neg]
    intro owner
    refine notFolder ?_
    rw [typed.node l n points, ← typed.localnode n k owner, folder]
  · rw [nodes] at now
    split at now
    · cases now
    · exact now
  · rw [locals, Function.update_apply] at now
    split at now
    · cases now
    · exact now

/-- One element: it has got a new node, or it is a file and is uploaded. -/
theorem createOne_cases (typed : h.Typed) (remote : Remote) (first : Bool) {k : Created}
    (kind : h.FileOrFolder k.l.ref) :
    (h.Settles (h.createOne remote first k).1 ∧ (h.createOne remote first k).1.Typed) ∧
      ((∃ nn, (h.createOne remote first k).2 = (some nn, none) ∧ nn.localnode = k ∧
          nn.syncid = k.l.syncid ∧ h.localType k.l.ref = some nn.type ∧
          nn.parenthandle = if first then none else some k.parent.syncid) ∨
        h.localType k.l.ref = some fileNode ∧ (h.createOne remote first k).2 = (none, some k)) := by
  cases at_l : h.locals k.l.ref with
  | none => simp [FileOrFolder, localType, at_l] at kind
  | some l =>
    have type : h.localType k.l.ref = some l.data.type := by rw [localType, at_l, Option.map_some]
    rw [FileOrFolder, type, Option.some.injEq, Option.some.injEq] at kind
    by_cases folder : l.data.type = folderNode
    · have one : h.createOne remote first k = (h, some ⟨l.data.type, k.l.syncid, k.l.syncid,
          if first then none else some k.parent.syncid, k⟩, none) := by
        simp [createOne, at_l, folder]
      rw [one]
      exact ⟨⟨Settles.refl h, typed⟩, .inl ⟨_, rfl, rfl, rfl, type, rfl⟩⟩
    · have file := kind.resolve_right folder
      cases known : remote.fingerprints l.data.file with
      | none =>
        have one : h.createOne remote first k = (h, none, some k) := by
          simp [createOne, at_l, file, known, fileNode, folderNode]
        rw [one]
        exact ⟨⟨Settles.refl h, typed⟩, .inr ⟨type.trans (congrArg some file), rfl⟩⟩
      | some n =>
        have one : h.createOne remote first k = (l.node.elim h h.movetosyncdebris,
            some ⟨l.data.type, k.l.syncid, remote.nodehandle n,
              if first then none else some k.parent.syncid, k⟩, none) := by
          simp [createOne, at_l, folder, known]
        rw [one]
        refine ⟨?_, .inl ⟨_, rfl, rfl, rfl, type, rfl⟩⟩
        cases replaced : l.node with
        | none => exact ⟨Settles.refl h, typed⟩
        | some m =>
          have points : h.nodeOf k.l.ref = some m := by
            rw [nodeOf, at_l, Option.bind_some, replaced]
          exact Settles.movetosyncdebris typed points fun same => folder (by
            rw [type] at same
            exact Option.some.inj same)

/-- All elements are in the new nodes or are uploaded. -/
theorem createAll_perm (typed : h.Typed) (remote : Remote) (first : Bool) {list : List Created}
    (kinds : ∀ k ∈ list, h.FileOrFolder k.l.ref) :
    let created := createAll remote first h list
    (h.Settles created.1 ∧ created.1.Typed) ∧
      (created.2.1.map NewNode.localnode ++ created.2.2).Perm list := by
  induction list generalizing h first with
  | nil => exact ⟨⟨Settles.refl h, typed⟩, .refl []⟩
  | cons k rest ih =>
    obtain ⟨⟨settles, still⟩, one⟩ :=
      createOne_cases typed remote first (kinds k List.mem_cons_self)
    obtain ⟨⟨more, last⟩, perm⟩ := ih still false fun e mem =>
      settles.fileOrFolder (kinds e (.tail k mem))
    refine ⟨⟨settles.trans more, last⟩, ?_⟩
    rw [createAll]
    rcases one with ⟨nn, made, element, -⟩ | ⟨-, made⟩
    · simp only [made, Option.toList_some, Option.toList_none, List.cons_append, List.nil_append,
        List.map_cons, element]
      exact perm.cons k
    · simp only [made, Option.toList_some, Option.toList_none, List.cons_append, List.nil_append]
      exact List.perm_middle.trans (perm.cons k)

/-- Behind the first element every new node is below one of the folders that were placed before. -/
theorem closed_createAll {remote : Remote} {placed : List LocalItem} {list : List Created}
    {earlier : List NewNode} (hanging : h.Hanging placed list) (settles : h.Settles g)
    (typed : g.Typed)
    (kinds : ∀ k ∈ list, h.FileOrFolder k.l.ref)
    (known : ∀ p ∈ placed, h.localType p.ref = some folderNode →
      ∃ f ∈ earlier, f.type = folderNode ∧ f.syncid = p.syncid) :
    ClosedFrom earlier (createAll remote false g list).2.1 := by
  induction list generalizing placed earlier g with
  | nil => trivial
  | cons k rest ih =>
    obtain ⟨⟨-, parent, folder⟩, behind⟩ := hanging
    have kind := settles.fileOrFolder (kinds k List.mem_cons_self)
    obtain ⟨⟨step, still⟩, one⟩ := createOne_cases typed remote false kind
    have others : ∀ e ∈ rest, h.FileOrFolder e.l.ref := fun e mem => kinds e (.tail k mem)
    rw [createAll]
    rcases one with ⟨nn, made, -, syncid, type, parenthandle⟩ | ⟨file, made⟩
    · rw [settles.localType] at type
      simp only [made, Option.toList_some, List.cons_append, List.nil_append]
      refine ⟨?_, ih behind (settles.trans step) still others fun p mem folder => ?_⟩
      · obtain ⟨f, mem, isFolder, same⟩ := known k.parent parent folder
        exact ⟨f, mem, isFolder, by rw [parenthandle, same]; rfl⟩
      · rcases List.mem_cons.mp mem with rfl | before
        · exact ⟨nn, List.mem_cons_self, Option.some.inj (type.symm.trans folder), syncid⟩
        · obtain ⟨f, mem, found⟩ := known p before folder
          exact ⟨f, .tail nn mem, found⟩
    · rw [settles.localType] at file
      simp only [made, Option.toList_none, List.nil_append]
      refine ih behind (settles.trans step) still others fun p mem folder => ?_
      rcases List.mem_cons.mp mem with rfl | before
      · rw [file] at folder
        cases folder
      · exact known p before folder

/-- The new nodes of a subtree; without one for its first element there are none. -/
theorem closed_subtree {remote : Remote} {k : Created} {tail : List Created}
    (hanging : h.Hanging [k.l] tail) (settles : h.Settles g) (typed : g.Typed)
    (kinds : ∀ e ∈ k :: tail, h.FileOrFolder e.l.ref) :
    (createAll remote true g (k :: tail)).2.1 = [] ∨
      ∃ nn rest, (createAll remote true g (k :: tail)).2.1 = nn :: rest ∧ nn.localnode = k ∧
        nn.parenthandle = none ∧ ClosedFrom [nn] rest := by
  have kind := settles.fileOrFolder (kinds k List.mem_cons_self)
  obtain ⟨⟨step, still⟩, one⟩ := createOne_cases typed remote true kind
  rw [createAll]
  rcases one with ⟨nn, made, element, syncid, type, parenthandle⟩ | ⟨file, made⟩
  · rw [settles.localType] at type
    right
    refine ⟨nn, (createAll remote false (g.createOne remote true k).1 tail).2.1,
      by simp only [made, Option.toList_some, List.cons_append, List.nil_append], element,
      parenthandle, closed_createAll hanging (settles.trans step) still
        (fun e mem => kinds e (.tail k mem)) fun p mem folder => ?_⟩
    rw [List.mem_singleton.mp mem] at folder ⊢
    exact ⟨nn, List.mem_cons_self, Option.some.inj (type.symm.trans folder), syncid⟩
  · -- nothing is below a file
    rw [settles.localType] at file
    left
    cases tail with
    | nil => simp [made, createAll]
    | cons e rest =>
      obtain ⟨⟨-, parent, folder⟩, -⟩ := hanging
      rw [List.mem_singleton.mp parent, file] at folder
      cases folder

theorem Hanging.nodeless {placed : List LocalItem} {list : List Created}
    (hanging : h.Hanging placed list) :
    ∀ k ∈ list, h.nodeOf k.parent.ref = none ∧ h.localType k.parent.ref = some folderNode := by
  induction list generalizing placed with
  | nil => exact fun _ mem => by cases mem
  | cons e rest ih =>
    obtain ⟨⟨nodeless, -, folder⟩, behind⟩ := hanging
    intro k mem
    rcases List.mem_cons.mp mem with rfl | later
    · exact ⟨nodeless, folder⟩
    · exact ih behind k later

/-- The scan for the end of a subtree stops before the first element below a folder with a node. -/
theorem span_subtree {tail rest : List Created} {placed : List LocalItem}
    (hanging : h.Hanging placed tail) (segmented : Segmented h rest) (settles : h.Settles g) :
    let inside := fun e : Created => (g.nodeOf e.parent.ref).isNone
    (tail ++ rest).takeWhile inside = tail ∧ (tail ++ rest).dropWhile inside = rest := by
  intro inside
  have all : ∀ e ∈ tail, inside e = true := by
    intro e mem
    obtain ⟨nodeless, folder⟩ := hanging.nodeless e mem
    show (g.nodeOf e.parent.ref).isNone = true
    rw [settles.folders _ folder, nodeless]
    rfl
  rw [List.takeWhile_append_of_pos all, List.dropWhile_append_of_pos all]
  cases segmented with
  | nil => exact ⟨List.append_nil tail, rfl⟩
  | @subtree k _ _ noded folder _ _ =>
    have stops : inside k = false := by
      show (g.nodeOf k.parent.ref).isNone = false
      rw [settles.folders _ folder, Option.isNone_eq_false_iff]
      exact noded
    simp [stops]

/-- The part of the loop for one subtree. -/
theorem syncupdateFrom_subtree (remote : Remote) (fuel : Nat) {k : Created}
    {tail rest : List Created} {placed : List LocalItem}
    (folder : h.localType k.parent.ref = some folderNode) {n : NodeRef}
    (noded : h.nodeOf k.parent.ref = some n) (hanging : h.Hanging placed tail)
    (segmented : Segmented h rest) (settles : h.Settles g)
    (created : h.Settles (createAll remote true g (k :: tail)).1) :
    let result := createAll remote true g (k :: tail)
    let more := syncupdateFrom remote fuel result.1 rest
    syncupdateFrom remote (fuel + 1) g (k :: (tail ++ rest)) =
      ⟨more.heap, (if result.2.1.isEmpty then [] else [⟨remote.nodehandle n, result.2.1⟩]) ++
        more.putnodes, result.2.2 ++ more.puts⟩ := by
  intro result more
  obtain ⟨whole, next⟩ := span_subtree hanging segmented settles
  have target := (created.folders _ folder).trans noded
  simp only [syncupdateFrom, whole, next, target]
  rfl

/-- One subtree is one command at most. -/
theorem splits_syncupdateFrom {remote : Remote} {list : List Created} {fuel : Nat}
    (segmented : Segmented h list) (settles : h.Settles g) (typed : g.Typed)
    (kinds : ∀ k ∈ list, h.FileOrFolder k.l.ref)
    (enough : list.length ≤ fuel) :
    let done := syncupdateFrom remote fuel g list
    (∀ batch ∈ done.putnodes, h.Closed remote batch) ∧
      ((done.putnodes.flatMap fun batch => batch.newnodes.map NewNode.localnode) ++
        done.puts).Perm list := by
  induction segmented generalizing g fuel with
  | nil => cases fuel <;> simp [syncupdateFrom]
  | @subtree k tail rest noded folder hanging behind ih =>
    cases fuel with
    | zero => simp at enough
    | succ fuel =>
      simp only [List.length_cons, List.length_append] at enough
      have inTail : ∀ e ∈ k :: tail, h.FileOrFolder e.l.ref := fun e mem => kinds e (by
        rcases List.mem_cons.mp mem with rfl | later <;> simp [*])
      have inTailNow : ∀ e ∈ k :: tail, g.FileOrFolder e.l.ref := fun e mem =>
        settles.fileOrFolder (inTail e mem)
      obtain ⟨n, at_parent⟩ := Option.isSome_iff_exists.mp noded
      obtain ⟨⟨step, still⟩, perm⟩ := createAll_perm typed remote true inTailNow
      have subtree := @closed_subtree g h remote k tail hanging settles typed inTail
      have settled := settles.trans step
      obtain ⟨closed, all⟩ := @ih _ fuel settled still (fun e mem => kinds e (by simp [mem]))
        (by omega)
      rw [syncupdateFrom_subtree remote fuel folder at_parent hanging behind settles settled]
      generalize createAll remote true g (k :: tail) = result at perm subtree closed all
      generalize syncupdateFrom remote fuel result.1 rest = more at closed all
      refine ⟨fun batch mem => ?_, ?_⟩
      · rcases List.mem_append.mp mem with sent | later
        · rcases subtree with nothing | ⟨nn, others, sends, element, first, inside⟩
          · simp [nothing] at sent
          · simp only [sends, List.isEmpty_cons, Bool.false_eq_true, if_false,
              List.mem_singleton] at sent
            subst sent
            refine ⟨nn, others, rfl, first, ?_, inside⟩
            rw [element, at_parent, Option.map_some]
        · exact closed batch later
      · have sent : (if result.2.1.isEmpty then [] else
            [(⟨remote.nodehandle n, result.2.1⟩ : PutNodes)]).flatMap
              (fun batch => batch.newnodes.map NewNode.localnode) =
            result.2.1.map NewNode.localnode := by
          cases result.2.1 <;> simp
        rw [List.flatMap_append, sent, List.append_assoc]
        refine (List.Perm.append_left _ (List.perm_append_comm_assoc _ _ _)).trans ?_
        rw [← List.append_assoc]
        exact perm.append all

end Settled

/-- What `syncup` finds under a root with a node are subtrees, one after the other. -/
theorem segmented_of_isTree {h : Heap} (remote : Remote) {root : LocalItem} {children : Children}
    (tree : h.IsTree root children) (typed : h.Typed) (noded : (h.nodeOf root.ref).isSome) :
    let up := h.syncup remote root children
    Segmented up.1 up.2 ∧ up.1.Typed ∧ ∀ k ∈ up.2, up.1.FileOrFolder k.l.ref := by
  obtain ⟨stays, still⟩ := extends_syncupFrom remote children root (h.remoteTable remote root.ref) h
  have segmented := segmented_syncupFrom remote children root (h.remoteTable remote root.ref) h
    tree.folder noded tree.distinct tree.nodelessBelow
  refine ⟨segmented, still typed, fun k mem => ?_⟩
  have inside := (mem_syncupFrom remote children root _ h mem).1
  rw [FileOrFolder, syncup, stays.localType]
  exact tree.kinds _ inside

/-- When the root of the sync has a node, the batches of `syncupdate` are closed and complete:
each goes to the node of its first element's parent, and all other elements are below folders
that come earlier in it. -/
theorem splits_of_isTree {h : Heap} (remote : Remote) {root : LocalItem} {children : Children}
    (tree : h.IsTree root children) (typed : h.Typed) (noded : (h.nodeOf root.ref).isSome) :
    h.Splits remote root children := by
  obtain ⟨segmented, still, kinds⟩ := segmented_of_isTree remote tree typed noded
  exact splits_syncupdateFrom segmented (Settles.refl _) still kinds (Nat.le_refl _)

/-- An element as the counter of creations sees it. -/
def newLocal (h : Heap) (remote : Remote) (tag : Int) (k : Created) : Creation.NewLocal where
  type := (h.localType k.l.ref).getD folderNode
  copy := (h.localView k.l.ref).any fun l => (remote.fingerprints l.2).isSome
  parentNode := (h.nodeOf k.parent.ref).map fun n =>
    BitVec.ofNat 48 (remote.nodehandle n).toNat
  tag := tag

def putnodesCommand (tag : Int) (batch : PutNodes) : Creation.Command :=
  .putnodes ⟨some (BitVec.ofNat 48 batch.target.toNat), batch.newnodes.length, tag, .sync⟩

section Counting
variable {g h : Heap}

theorem localView_createOne (h : Heap) (remote : Remote) (first : Bool) (k : Created) :
    (h.createOne remote first k).1.localView = h.localView := by
  unfold createOne
  split
  · rfl
  · next l _ =>
    dsimp only
    split
    · rfl
    · split
      · cases l.node with
        | none => rfl
        | some n => exact (h.alike_movetosyncdebris n).locals
      · rfl

theorem localView_createAll (h : Heap) (remote : Remote) (first : Bool) (list : List Created) :
    (createAll remote first h list).1.localView = h.localView := by
  induction list generalizing h first with
  | nil => rfl
  | cons k rest ih => exact (ih _ false).trans (h.localView_createOne remote first k)

/-- An element is created at once or uploaded as the counter has it. -/
theorem createOne_immediate (remote : Remote) (tag : Int) (view : g.localView = h.localView)
    (first : Bool) {k : Created} (kind : h.FileOrFolder k.l.ref) :
    (Creation.Client.immediate (h.newLocal remote tag k) = true ∧
        ∃ nn, (g.createOne remote first k).2 = (some nn, none) ∧ nn.localnode = k) ∨
      Creation.Client.immediate (h.newLocal remote tag k) = false ∧
        (h.newLocal remote tag k).type = fileNode ∧
        (g.createOne remote first k).2 = (none, some k) := by
  cases at_l : g.locals k.l.ref with
  | none =>
    rw [FileOrFolder, ← localType_of_view view, localType, at_l] at kind
    rcases kind with no | no <;> cases no
  | some l =>
    have seen : h.localView k.l.ref = some (l.data.type, l.data.file) := by
      rw [← view, localView, at_l, Option.map_some]
    have type : h.localType k.l.ref = some l.data.type := by
      rw [← localType_of_view view, localType, at_l, Option.map_some]
    rw [FileOrFolder, type, Option.some.injEq, Option.some.injEq] at kind
    have isImmediate : Creation.Client.immediate (h.newLocal remote tag k) =
        (decide (l.data.type = folderNode) || (remote.fingerprints l.data.file).isSome) := by
      simp [Creation.Client.immediate, newLocal, type, seen]
    rw [isImmediate]
    by_cases folder : l.data.type = folderNode
    · left
      simp [createOne, at_l, folder]
    · have file := kind.resolve_right folder
      cases known : remote.fingerprints l.data.file with
      | none =>
        right
        simp [createOne, newLocal, type, at_l, file, known, fileNode, folderNode]
      | some n =>
        left
        simp [createOne, at_l, folder, known]

theorem createAll_immediate (remote : Remote) (tag : Int) (view : g.localView = h.localView)
    (first : Bool) {list : List Created} (kinds : ∀ k ∈ list, h.FileOrFolder k.l.ref) :
    (createAll remote first g list).2.1.map (fun nn => h.newLocal remote tag nn.localnode) =
        (list.map (h.newLocal remote tag)).filter Creation.Client.immediate ∧
      (createAll remote first g list).2.2.map (h.newLocal remote tag) =
        (list.map (h.newLocal remote tag)).filter fun l =>
          !Creation.Client.immediate l && l.type = fileNode := by
  induction list generalizing g first with
  | nil => exact ⟨rfl, rfl⟩
  | cons k rest ih =>
    obtain ⟨created, uploaded⟩ := ih ((g.localView_createOne remote first k).trans view) false
      fun e mem => kinds e (.tail k mem)
    rw [createAll, List.map_cons, List.filter_cons, List.filter_cons]
    rcases createOne_immediate remote tag view first (kinds k List.mem_cons_self) with ⟨now, nn, made, element⟩ | ⟨later, file, made⟩
    · simp [made, now, element, created, uploaded]
    · simp [made, later, file, created, uploaded]

/-- Uploads are started and commands are queued, and each command is counted. -/
def accept (s : Creation.Client) (puts : List Creation.NewLocal)
    (commands : List Creation.Command) : Creation.Client :=
  { s with
    syncadding := s.syncadding + commands.length
    puts := s.puts ++ puts
    reqs := Function.update s.reqs s.r (s.reqs s.r ++ commands) }

theorem accept_nil (s : Creation.Client) : accept s [] [] = s := by
  simp [accept]

theorem accept_accept (s : Creation.Client) (puts more : List Creation.NewLocal)
    (commands others : List Creation.Command) :
    accept (accept s puts commands) more others =
      accept s (puts ++ more) (commands ++ others) := by
  simp [accept, Int.add_assoc]

theorem while_congr {α : Type} {p q : α → Bool} {list : List α}
    (same : ∀ a ∈ list, p a = q a) :
    list.takeWhile p = list.takeWhile q ∧ list.dropWhile p = list.dropWhile q := by
  induction list with
  | nil => exact ⟨rfl, rfl⟩
  | cons a rest ih =>
    obtain ⟨front, back⟩ := ih fun e mem => same e (.tail a mem)
    rw [List.takeWhile_cons, List.takeWhile_cons, List.dropWhile_cons, List.dropWhile_cons,
      same a List.mem_cons_self, front, back]
    exact ⟨rfl, rfl⟩

/-- What the loop of `syncupdate` does about one subtree. -/
theorem createSubtree_accept (remote : Remote) (tag : Int) (settles : h.Settles g) (typed : g.Typed)
    (view : g.localView = h.localView) {k : Created} {tail : List Created}
    (kinds : ∀ e ∈ k :: tail, h.FileOrFolder e.l.ref)
    (folder : h.localType k.parent.ref = some folderNode) (s : Creation.Client) :
    let created := createAll remote true g (k :: tail)
    let sent := if created.2.1.isEmpty then []
      else
        match created.1.nodeOf k.parent.ref with
        | some n => [⟨remote.nodehandle n, created.2.1⟩]
        | none => []
    s.createSubtree ((k :: tail).map (h.newLocal remote tag)) =
      accept s (created.2.2.map (h.newLocal remote tag)) (sent.map (putnodesCommand tag)) := by
  intro created sent
  obtain ⟨⟨step, -⟩, -⟩ := createAll_perm typed remote true fun e mem =>
    settles.fileOrFolder (kinds e mem)
  have target : created.1.nodeOf k.parent.ref = h.nodeOf k.parent.ref :=
    (settles.trans step).folders _ folder
  obtain ⟨immediate, uploads⟩ := createAll_immediate remote tag view true kinds
  have count := congrArg List.length immediate
  rw [List.length_map] at count
  rw [Creation.Client.createSubtree, ← count, ← uploads]
  have at_parent : (h.newLocal remote tag k).parentNode =
      (created.1.nodeOf k.parent.ref).map fun n => BitVec.ofNat 48 (remote.nodehandle n).toNat := by
    rw [target, newLocal]
  simp only [List.map_cons, List.head?_cons]
  cases sends : created.2.1 with
  | nil => simp [sent, created, sends, accept]
  | cons nn others =>
    cases noded : created.1.nodeOf k.parent.ref with
    | none => simp [sent, created, sends, noded, accept, at_parent]
    | some n =>
      have tagged : (h.newLocal remote tag k).tag = tag := rfl
      simp [sent, created, sends, noded, accept, at_parent, tagged, Creation.Client.add,
        putnodesCommand]

theorem syncupdateFrom_accept (remote : Remote) (tag : Int) (settles : h.Settles g) (typed : g.Typed)
    (view : g.localView = h.localView) (fuel : Nat) {list : List Created}
    (kinds : ∀ e ∈ list, h.FileOrFolder e.l.ref)
    (folders : ∀ e ∈ list, h.localType e.parent.ref = some folderNode) (s : Creation.Client) :
    (Creation.Client.subtrees fuel (list.map (h.newLocal remote tag))).foldl
        Creation.Client.createSubtree s =
      accept s ((syncupdateFrom remote fuel g list).puts.map (h.newLocal remote tag))
        ((syncupdateFrom remote fuel g list).putnodes.map (putnodesCommand tag)) := by
  induction fuel generalizing g list s with
  | zero => exact (accept_nil s).symm
  | succ fuel ih =>
    cases list with
    | nil => exact (accept_nil s).symm
    | cons k rest =>
      let inside := fun e : Created => (g.nodeOf e.parent.ref).isNone
      let view' := fun e : Created => (h.newLocal remote tag e).parentNode.isNone
      have same : ∀ e ∈ rest, view' e = inside e := by
        intro e mem
        simp only [view', inside, newLocal, Option.isNone_map,
          settles.folders _ (folders e (.tail k mem))]
      obtain ⟨front, back⟩ := while_congr same
      have taken : ∀ e ∈ k :: rest.takeWhile inside, e ∈ k :: rest := fun e mem =>
        (List.cons_sublist_cons.mpr (List.takeWhile_sublist inside)).subset mem
      have left : ∀ e ∈ rest.dropWhile inside, e ∈ k :: rest := fun e mem =>
        .tail k ((List.dropWhile_sublist inside).subset mem)
      obtain ⟨⟨step, still⟩, -⟩ := createAll_perm typed remote true fun e mem =>
        settles.fileOrFolder (kinds e (taken e mem))
      have subtree := createSubtree_accept remote tag settles typed view
        (fun e mem => kinds e (taken e mem)) (folders k List.mem_cons_self) s
      have more := ih (settles.trans step) still
        ((g.localView_createAll remote true (k :: rest.takeWhile inside)).trans view)
        (fun e mem => kinds e (left e mem)) (fun e mem => folders e (left e mem))
      rw [List.map_cons, Creation.Client.subtrees, List.takeWhile_map, List.dropWhile_map,
        List.foldl_cons]
      change (Creation.Client.subtrees fuel ((rest.dropWhile view').map _)).foldl _
        (s.createSubtree (_ :: (rest.takeWhile view').map _)) = _
      rw [front, back, ← List.map_cons, subtree, more, accept_accept]
      simp only [syncupdateFrom, List.map_append, inside]

/-- The commands that `syncupdate` sends are those that the counter counts. -/
theorem syncupdate_accept (remote : Remote) (tag : Int) (typed : h.Typed) {list : List Created}
    (kinds : ∀ e ∈ list, h.FileOrFolder e.l.ref)
    (folders : ∀ e ∈ list, h.localType e.parent.ref = some folderNode) (s : Creation.Client) :
    { s with synccreate := list.map (h.newLocal remote tag) }.syncupdate =
      { accept s ((h.syncupdate remote list).puts.map (h.newLocal remote tag))
          ((h.syncupdate remote list).putnodes.map (putnodesCommand tag)) with
        synccreate := [] } := by
  rw [Creation.Client.syncupdate, List.length_map,
    syncupdateFrom_accept remote tag (Settles.refl h) typed rfl list.length kinds folders]
  rfl

theorem Segmented.folders {list : List Created} (segmented : Segmented h list) :
    ∀ e ∈ list, h.localType e.parent.ref = some folderNode := by
  induction segmented with
  | nil => exact fun _ mem => by cases mem
  | @subtree k tail rest _ folder hanging _ ih =>
    intro e mem
    rcases List.mem_cons.mp mem with rfl | later
    · exact folder
    · rcases List.mem_append.mp later with inside | behind
      · exact (hanging.nodeless e inside).2
      · exact ih e behind

/-- Of what `syncup` has found, the counter counts the commands that `syncupdate` sends. -/
theorem syncup_accept (remote : Remote) (tag : Int) {root : LocalItem} {children : Children}
    (tree : h.IsTree root children) (typed : h.Typed) (noded : (h.nodeOf root.ref).isSome)
    (s : Creation.Client) :
    let up := h.syncup remote root children
    let done := up.1.syncupdate remote up.2
    { s with synccreate := up.2.map (up.1.newLocal remote tag) }.syncupdate =
      { accept s (done.puts.map (up.1.newLocal remote tag))
          (done.putnodes.map (putnodesCommand tag)) with synccreate := [] } := by
  obtain ⟨segmented, still, kinds⟩ := segmented_of_isTree remote tree typed noded
  exact syncupdate_accept remote tag still kinds segmented.folders s

end Counting

namespace Sample

def item (ref : LocalRef) (name : String) (mtime : Int) : LocalItem :=
  ⟨⟨ref, ascii name, false, false, some (3, mtime)⟩, UInt64.ofNat ref⟩

/-- The root of a sync, with a node or without, and a local folder with two files. -/
def localFolder (root : Option NodeRef) : Heap where
  nodes
    | 0 => some ⟨node folderNode none 0, some 0⟩
    | _ => none
  locals
    | 0 => some ⟨local' folderNode none 0, root⟩
    | 1 => some ⟨local' folderNode (some 0) 0, none⟩
    | 2 => some ⟨local' fileNode (some 1) 5, none⟩
    | 3 => some ⟨local' fileNode (some 1) 6, none⟩
    | _ => none

def localChildren : Children :=
  .cons (item 1 "dir" 0) (.cons (item 2 "a" 5) .nil (.cons (item 3 "b" 6) .nil .nil)) .nil

/-- Nothing is below the root, and the file `a` exists elsewhere. -/
def emptyRemote : Remote where
  children _ := []
  nodehandle n := UInt64.ofNat (n + 100)
  fingerprints f := if f.mtime = 5 then some 9 else none

/-- The node of the file `a` points back to the root. -/
def mistyped : Heap where
  nodes
    | 0 => some ⟨node folderNode none 0, some 0⟩
    | 9 => some ⟨node fileNode (some 8) 4, some 0⟩
    | _ => none
  locals
    | 0 => some ⟨local' folderNode none 0, some 0⟩
    | 2 => some ⟨local' fileNode (some 0) 5, some 9⟩
    | _ => none

def oneFile : Children := .cons (item 2 "a" 5) .nil .nil

theorem localFolder_isTree (root : Option NodeRef) :
    (localFolder root).IsTree (item 0 "" 0) localChildren where
  distinct := by decide
  folder := rfl
  kinds := by
    intro r mem
    obtain rfl | rfl | rfl : r = 1 ∨ r = 2 ∨ r = 3 := by
      simpa [localChildren, Children.refs, item] using mem
    · exact .inr rfl
    · exact .inl rfl
    · exact .inl rfl
  nodeless _ := by
    intro r mem
    obtain rfl | rfl | rfl : r = 1 ∨ r = 2 ∨ r = 3 := by
      simpa [localChildren, Children.refs, item] using mem
    all_goals rfl
  nodelessBelow := by simp [localChildren, NodelessBelow, Children.refs, item, nodeOf, localFolder]

theorem localFolder_typed : (localFolder (some 0)).Typed where
  node l n points := by
    rcases l with _ | _ | _ | _ | l <;> cases points
    rfl
  localnode n l points := by
    cases n <;> cases points
    rfl

end Sample

theorem splits_localFolder :
    (Sample.localFolder (some 0)).Splits Sample.emptyRemote (Sample.item 0 "" 0)
      Sample.localChildren :=
  splits_of_isTree Sample.emptyRemote (Sample.localFolder_isTree (some 0)) Sample.localFolder_typed
    rfl

/-- Below a root without a node a new folder goes nowhere, and so does a copied file whose former
node is registered for the root. -/
theorem not_splits_samples :
    ((Sample.localFolder none).IsTree (Sample.item 0 "" 0) Sample.localChildren ∧
        ¬(Sample.localFolder none).Splits Sample.emptyRemote (Sample.item 0 "" 0)
          Sample.localChildren) ∧
      Sample.mistyped.IsTree (Sample.item 0 "" 0) Sample.oneFile ∧
        (Sample.mistyped.nodeOf 0).isSome ∧
        ¬Sample.mistyped.Splits Sample.emptyRemote (Sample.item 0 "" 0) Sample.oneFile := by
  refine ⟨⟨Sample.localFolder_isTree none, ?_⟩, ?_, rfl, ?_⟩
  · rintro ⟨-, perm⟩
    exact absurd perm.length_eq (by decide)
  · refine ⟨by decide, rfl, by decide, (fun alone => by cases alone), ?_⟩
    simp [Sample.oneFile, NodelessBelow, Children.refs]
  · rintro ⟨-, perm⟩
    exact absurd perm.length_eq (by decide)

end Heap

end MegaSdk.Sync
