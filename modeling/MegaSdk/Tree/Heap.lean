import MegaSdk.Types
import MegaSdk.Lib.Membership

/-!
# The node tree in memory

node.cpp, treeproc.cpp and megaclient.cpp: nodes are found by their handles in
`MegaClient::nodes` and point to their parents, every node has a list of its children and
stores its own position in the list of its parent. Nodes that change are queued in
`nodenotify`; `notifypurge` deletes those that were marked as removed. A loop over parents
or children that does not end is `none` with any fuel.
-/

namespace MegaSdk.Tree

open Membership

/-- A `handle`. -/
abbrev Handle := UInt64

def undef : Handle := 0 - 1

abbrev Ref := Nat

abbrev LocalRef := Nat

/-- The part of a `LocalNode` that the tree consults; a sync root has no parent. -/
structure LocalNode where
  parent : Option LocalRef
  node : Option Ref
  deriving DecidableEq, Repr

/-- A `Node` without its links. -/
structure NodeData where
  nodehandle : Handle
  parenthandle : Handle
  type : NodeType
  removed : Bool
  notified : Bool
  localnode : Option LocalRef
  /-- A transfer for syncing is in progress. -/
  syncget : Bool
  deriving DecidableEq, Repr

structure Heap where
  data : Ref → NodeData
  /-- `parent`, `child_it` and `children` of the nodes. -/
  links : Links Ref Ref
  nodes : Handle → Option Ref
  nodenotify : List Ref
  locals : LocalRef → LocalNode
  /-- The next pointer that `new` returns. -/
  next : Nat

namespace Heap
variable (h : Heap)

def parent (n : Ref) : Option Ref := h.links.owner n

def children (n : Ref) : List Ref := h.links.members n

def nodebyhandle (k : Handle) : Option Ref := h.nodes k

def modify (n : Ref) (f : NodeData → NodeData) : Heap :=
  { h with data := Function.update h.data n (f (h.data n)) }

def setLocalnode (n : Ref) (l : Option LocalRef) : Heap :=
  h.modify n fun d => { d with localnode := l }

/-- Whether the node has a `LocalNode` that is not a sync root. -/
def syncedBelowRoot (n : Ref) : Bool :=
  (h.data n).localnode.any fun l => (h.locals l).parent.isSome

/-- A synced node that was moved to a location that is not synced loses its `LocalNode`. -/
def unsync (n : Ref) : Heap :=
  match (h.data n).localnode, h.parent n with
  | some l, some p =>
    if (h.locals l).parent.isSome && (h.data p).localnode.isNone then
      { h.setLocalnode n none with
        locals := Function.update h.locals l { h.locals l with node := none } }
    else h
  | _, _ => h

def enqueue (n : Ref) : Heap :=
  if (h.data n).notified then h
  else { h.modify n (fun d => { d with notified := true }) with nodenotify := h.nodenotify ++ [n] }

/-- `notifynode`, without the `deleted` flags of the `LocalNode`s. -/
def notifynode (n : Ref) : Heap := (h.unsync n).enqueue n

/-- `proctree`: bottom up, the children of a file are not visited. -/
def proctree (proc : Ref → Heap → Heap) : Nat → Ref → Heap → Option Heap
  | 0, _, _ => none
  | fuel + 1, n, h =>
    (if (h.data n).type = fileNode then some h
      else (h.children n).foldlM (fun h c => proctree proc fuel c h) h).map (proc n)

/-- `TreeProcDel::proc`. -/
def treeProcDel (n : Ref) (h : Heap) : Heap :=
  (h.modify n fun d => { d with removed := true }).notifynode n

/-- `TreeProcDelSyncGet::proc`. -/
def treeProcDelSyncGet (n : Ref) (h : Heap) : Heap :=
  h.modify n fun d => { d with syncget := false }

/-- The walk of `setparent` to the first node with a `LocalNode`. -/
def walk : Nat → Option Ref → Option (Option Ref)
  | 0, _ => none
  | _ + 1, none => some none
  | fuel + 1, some p =>
    if (h.data p).localnode.isSome then some (some p) else walk fuel (h.parent p)

/-- The links after `setparent`: erased from the children of the old parent, appended to those
of the new one. -/
def relink (n p : Ref) : Heap := { h with links := (h.links.leave n).pushBack n p }

/-- The end of `setparent`: below a location that is not synced, all GET transfers are
cancelled, unless an entire sync is moved. -/
def cancelGets (fuel : Nat) (n p : Ref) : Option Heap :=
  if (h.data n).localnode.isNone || h.syncedBelowRoot n then
    match h.walk fuel (some p) with
    | none => none
    | some (some _) => some h
    | some none => proctree treeProcDelSyncGet fuel n h
  else some h

/-- `Node::setparent`; returns whether the node was moved. -/
def setparent (fuel : Nat) (n p : Ref) : Option (Bool × Heap) :=
  if h.parent n = some p then some (false, h)
  else ((h.relink n p).cancelGets fuel n p).map fun h => (true, h)

/-- The node that a `LocalNode` had before. -/
def dissociate (l : LocalRef) (cnode : Ref) : Heap :=
  match (h.locals l).node with
  | some old => if old ≠ cnode then h.setLocalnode old none else h
  | none => h

/-- `LocalNode::setnode` with a node. -/
def setnode (l : LocalRef) (cnode : Ref) : Heap :=
  { (h.dissociate l cnode).setLocalnode cnode (some l) with
    locals := Function.update h.locals l { h.locals l with node := some cnode } }

/-- `Node::~Node`, as far as it concerns the links. -/
def delete (n : Ref) : Heap :=
  { h with
    links := (h.links.leave n).release n
    locals :=
      match (h.data n).localnode with
      | some l => Function.update h.locals l { h.locals l with node := none }
      | none => h.locals }

/-- The start of `Node::Node`: the node is known by its handle and has no links yet. -/
def create (k ph : Handle) (t : NodeType) : Heap :=
  { h with
    data := Function.update h.data h.next ⟨k, ph, t, false, false, none, false⟩
    links := { h.links with
      owner := Function.update h.links.owner h.next none
      list := Function.update h.links.list h.next [] }
    nodes := Function.update h.nodes k (some h.next)
    next := h.next + 1 }

/-- The body of the loop of `notifypurge`. -/
def purge (h : Heap) (n : Ref) : Heap :=
  if (h.data n).removed then
    { h with nodes := Function.update h.nodes (h.data n).nodehandle none }.delete n
  else h.modify n fun d => { d with notified := false }

/-- `notifypurge`: the removed nodes are deleted, the others are no longer notified. -/
def notifypurge : Heap := { h.nodenotify.foldl purge h with nodenotify := [] }

/-- The node is the one that `nodes` has under its handle. -/
def InNodes (n : Ref) : Prop := h.nodes (h.data n).nodehandle = some n

/-- The links are consistent, and what is linked can be found. -/
structure Wired : Prop where
  linked : h.links.Linked
  ends : ∀ n p, h.parent n = some p → h.InNodes n ∧ h.InNodes p
  handles : ∀ k n, h.nodes k = some n → (h.data n).nodehandle = k
  allocated : ∀ k n, h.nodes k = some n → n < h.next

/-- Every notified node is queued once and still there. -/
structure Consistent : Prop extends Wired h where
  once : h.nodenotify.Nodup
  queued : ∀ n ∈ h.nodenotify, h.InNodes n ∧ (h.data n).notified = true

variable {h}

theorem Wired.inNodes (wired : h.Wired) {k : Handle} {n : Ref} (found : h.nodes k = some n) :
    h.InNodes n := by
  rw [InNodes, wired.handles k n found]
  exact found

theorem Wired.inNodes_child (wired : h.Wired) {n c : Ref} (mem : c ∈ h.children n) :
    h.InNodes c :=
  (wired.ends c n ((wired.linked.mem_iff c n).mpr mem)).1

/-- Nodes with one handle are one node. -/
theorem InNodes.eq {n m : Ref} (live : h.InNodes n) (other : h.InNodes m)
    (same : (h.data n).nodehandle = (h.data m).nodehandle) : n = m := by
  rw [InNodes, same] at live
  exact Option.some.inj (live.symm.trans other)

/-- The tree is the same: links, handles, types and the map of nodes. -/
structure Framed (h h' : Heap) : Prop where
  links : h'.links = h.links
  nodes : h'.nodes = h.nodes
  next : h'.next = h.next
  nodehandle : ∀ n, (h'.data n).nodehandle = (h.data n).nodehandle
  type : ∀ n, (h'.data n).type = (h.data n).type

namespace Framed
variable {h h' h'' : Heap}

theorem refl (h : Heap) : Framed h h := ⟨rfl, rfl, rfl, fun _ => rfl, fun _ => rfl⟩

theorem trans (first : Framed h h') (second : Framed h' h'') : Framed h h'' :=
  ⟨second.links.trans first.links, second.nodes.trans first.nodes, second.next.trans first.next,
    fun n => (second.nodehandle n).trans (first.nodehandle n),
    fun n => (second.type n).trans (first.type n)⟩

theorem inNodes_iff (framed : Framed h h') (n : Ref) : h'.InNodes n ↔ h.InNodes n := by
  rw [InNodes, InNodes, framed.nodes, framed.nodehandle]

theorem parent (framed : Framed h h') : h'.parent = h.parent := by
  funext n
  rw [Heap.parent, Heap.parent, framed.links]

theorem children (framed : Framed h h') : h'.children = h.children := by
  funext n
  rw [Heap.children, Heap.children, framed.links]

theorem wired (framed : Framed h h') (wired : h.Wired) : h'.Wired where
  linked := framed.links ▸ wired.linked
  ends n p linked := by
    rw [framed.parent] at linked
    rw [framed.inNodes_iff, framed.inNodes_iff]
    exact wired.ends n p linked
  handles k n found := by
    rw [framed.nodes] at found
    rw [framed.nodehandle]
    exact wired.handles k n found
  allocated k n found := by
    rw [framed.nodes] at found
    rw [framed.next]
    exact wired.allocated k n found

end Framed

structure Quiet (h h' : Heap) : Prop extends Framed h h' where
  nodenotify : h'.nodenotify = h.nodenotify
  notified : ∀ n, (h'.data n).notified = (h.data n).notified

namespace Quiet
variable {h h' h'' : Heap}

theorem refl (h : Heap) : Quiet h h := ⟨.refl h, rfl, fun _ => rfl⟩

theorem trans (first : Quiet h h') (second : Quiet h' h'') : Quiet h h'' :=
  ⟨first.toFramed.trans second.toFramed, second.nodenotify.trans first.nodenotify,
    fun n => (second.notified n).trans (first.notified n)⟩

theorem consistent (quiet : Quiet h h') (consistent : h.Consistent) : h'.Consistent where
  toWired := quiet.toFramed.wired consistent.toWired
  once := quiet.nodenotify ▸ consistent.once
  queued n mem := by
    rw [quiet.nodenotify] at mem
    rw [quiet.inNodes_iff, quiet.notified]
    exact consistent.queued n mem

/-- `LocalNode`s are not part of the tree. -/
theorem withLocals (quiet : Quiet h h') (locals : LocalRef → LocalNode) :
    Quiet h { h' with locals := locals } :=
  ⟨⟨quiet.links, quiet.nodes, quiet.next, quiet.nodehandle, quiet.type⟩, quiet.nodenotify,
    quiet.notified⟩

end Quiet

theorem data_modify (h : Heap) (n m : Ref) (f : NodeData → NodeData) :
    (h.modify n f).data m = if m = n then f (h.data m) else h.data m := by
  by_cases same : m = n
  · subst same
    simp [modify]
  · simp [modify, same]

theorem framed_modify (h : Heap) (n : Ref) {f : NodeData → NodeData}
    (nodehandle : ∀ d, (f d).nodehandle = d.nodehandle) (type : ∀ d, (f d).type = d.type) :
    Framed h (h.modify n f) := by
  refine ⟨rfl, rfl, rfl, ?_, ?_⟩
  · intro m
    rw [data_modify]
    split
    · exact nodehandle _
    · rfl
  · intro m
    rw [data_modify]
    split
    · exact type _
    · rfl

theorem quiet_modify (h : Heap) (n : Ref) {f : NodeData → NodeData}
    (nodehandle : ∀ d, (f d).nodehandle = d.nodehandle) (type : ∀ d, (f d).type = d.type)
    (notified : ∀ d, (f d).notified = d.notified) : Quiet h (h.modify n f) := by
  refine ⟨framed_modify h n nodehandle type, rfl, ?_⟩
  intro m
  rw [data_modify]
  split
  · exact notified _
  · rfl

theorem quiet_setLocalnode (h : Heap) (n : Ref) (l : Option LocalRef) :
    Quiet h (h.setLocalnode n l) :=
  quiet_modify h n (fun _ => rfl) (fun _ => rfl) fun _ => rfl

theorem quiet_unsync (h : Heap) (n : Ref) : Quiet h (h.unsync n) := by
  rw [unsync]
  split
  · split
    · exact (quiet_setLocalnode h n none).withLocals _
    · exact .refl h
  · exact .refl h

theorem framed_enqueue (h : Heap) (n : Ref) : Framed h (h.enqueue n) := by
  rw [enqueue]
  split
  · exact .refl h
  · have framed : Framed h (h.modify n fun d => { d with notified := true }) :=
      framed_modify h n (fun _ => rfl) fun _ => rfl
    exact ⟨framed.links, framed.nodes, framed.next, framed.nodehandle, framed.type⟩

theorem framed_notifynode (h : Heap) (n : Ref) : Framed h (h.notifynode n) :=
  (quiet_unsync h n).toFramed.trans (framed_enqueue _ n)

theorem Consistent.enqueue (consistent : h.Consistent) {n : Ref} (live : h.InNodes n) :
    (h.enqueue n).Consistent := by
  by_cases notified : (h.data n).notified = true
  · have unchanged : h.enqueue n = h := if_pos notified
    rwa [unchanged]
  · have framed := framed_enqueue h n
    have queue : (h.enqueue n).nodenotify = h.nodenotify ++ [n] := by
      rw [Heap.enqueue, if_neg notified]
    have marked : (h.enqueue n).data = (h.modify n fun d => { d with notified := true }).data := by
      rw [Heap.enqueue, if_neg notified]
    refine ⟨framed.wired consistent.toWired, ?_, ?_⟩
    · rw [queue]
      refine List.nodup_append.mpr ⟨consistent.once, List.nodup_singleton n, ?_⟩
      rintro m mem _ new rfl
      rw [List.mem_singleton.mp new] at mem
      exact notified (consistent.queued n mem).2
    · intro m mem
      rw [queue] at mem
      rw [framed.inNodes_iff, marked, data_modify]
      split
      · rename_i same
        exact ⟨same ▸ live, rfl⟩
      · rename_i other
        rcases List.mem_append.mp mem with old | new
        · exact consistent.queued m old
        · exact absurd (List.mem_singleton.mp new) other

theorem Consistent.notifynode (consistent : h.Consistent) {n : Ref} (live : h.InNodes n) :
    (h.notifynode n).Consistent := by
  have quiet := quiet_unsync h n
  exact (quiet.consistent consistent).enqueue ((quiet.inNodes_iff n).mpr live)

/-- An invariant of the rounds of a loop that may fail. -/
theorem foldlM_invariant {σ α : Type} {step : σ → α → Option σ} {P : σ → Prop} {xs : List α}
    (keeps : ∀ s s', ∀ x ∈ xs, P s → step s x = some s' → P s') {s s' : σ} (start : P s)
    (done : xs.foldlM step s = some s') : P s' := by
  induction xs generalizing s with
  | nil =>
    obtain rfl := Option.some.inj done
    exact start
  | cons x xs ih =>
    rw [List.foldlM_cons] at done
    obtain ⟨mid, first, rest⟩ := Option.bind_eq_some_iff.mp done
    exact ih (fun s s' y mem => keeps s s' y (List.mem_cons_of_mem x mem))
      (keeps s mid x List.mem_cons_self start first) rest

/-- `proctree` returns after its children and its own `proc`. -/
theorem proctree_eq_some_iff {proc : Ref → Heap → Heap} {fuel : Nat} {n : Ref} {h h' : Heap} :
    proctree proc (fuel + 1) n h = some h' ↔ ∃ mid, proc n mid = h' ∧
      if (h.data n).type = fileNode then mid = h
      else (h.children n).foldlM (fun h c => proctree proc fuel c h) h = some mid := by
  rw [proctree, Option.map_eq_some_iff]
  by_cases file : (h.data n).type = fileNode
  · rw [if_pos file]
    constructor
    · rintro ⟨mid, inner, rfl⟩
      exact ⟨mid, rfl, (if_pos file).mpr (Option.some.inj inner).symm⟩
    · rintro ⟨mid, rfl, inner⟩
      rw [if_pos file] at inner
      exact ⟨mid, by rw [inner], rfl⟩
  · rw [if_neg file]
    constructor
    · rintro ⟨mid, inner, rfl⟩
      exact ⟨mid, rfl, (if_neg file).mpr inner⟩
    · rintro ⟨mid, rfl, inner⟩
      rw [if_neg file] at inner
      exact ⟨mid, inner, rfl⟩

/-- What every `proc` does, `proctree` does. -/
theorem proctree_rel {proc : Ref → Heap → Heap} {R : Heap → Heap → Prop} (refl : ∀ h, R h h)
    (trans : ∀ h h' h'', R h h' → R h' h'' → R h h'') (step : ∀ n h, R h (proc n h))
    {fuel : Nat} {n : Ref} {h h' : Heap} (done : proctree proc fuel n h = some h') : R h h' := by
  induction fuel generalizing n h h' with
  | zero => cases done
  | succ fuel ih =>
    obtain ⟨mid, rfl, inner⟩ := proctree_eq_some_iff.mp done
    refine trans h mid _ ?_ (step n mid)
    split at inner
    · rw [inner]
      exact refl h
    · exact foldlM_invariant (P := R h) (fun s s' c _ sofar visit => trans h s s' sofar (ih visit))
        (refl h) inner

/-- A `proc` that keeps the heap consistent and the tree as it is may be used on a whole tree. -/
theorem Consistent.proctree {proc : Ref → Heap → Heap}
    (keeps : ∀ n h, h.Consistent → h.InNodes n → (proc n h).Consistent)
    (framed : ∀ n h, Framed h (proc n h)) {fuel : Nat} {n : Ref} {h h' : Heap}
    (consistent : h.Consistent) (live : h.InNodes n)
    (done : Heap.proctree proc fuel n h = some h') : h'.Consistent := by
  induction fuel generalizing n h h' with
  | zero => cases done
  | succ fuel ih =>
    have whole : ∀ {fuel n h h'}, Heap.proctree proc fuel n h = some h' → Framed h h' :=
      fun done => proctree_rel Framed.refl (fun _ _ _ => Framed.trans) framed done
    obtain ⟨mid, rfl, inner⟩ := proctree_eq_some_iff.mp done
    have inside : mid.Consistent ∧ Framed h mid := by
      split at inner
      · rw [inner]
        exact ⟨consistent, .refl h⟩
      · refine foldlM_invariant (P := fun s => s.Consistent ∧ Framed h s) ?_
          ⟨consistent, .refl h⟩ inner
        rintro s s' c mem ⟨good, sofar⟩ visit
        have present := (sofar.inNodes_iff c).mpr (consistent.inNodes_child mem)
        exact ⟨ih good present visit, sofar.trans (whole visit)⟩
    exact keeps n mid inside.1 ((inside.2.inNodes_iff n).mpr live)

theorem framed_treeProcDel (n : Ref) (h : Heap) : Framed h (treeProcDel n h) :=
  (framed_modify h n (f := fun d => { d with removed := true }) (fun _ => rfl) fun _ => rfl).trans
    (framed_notifynode _ n)

theorem Consistent.treeProcDel (n : Ref) (h : Heap) (consistent : h.Consistent)
    (live : h.InNodes n) : (Heap.treeProcDel n h).Consistent := by
  have quiet := quiet_modify h n (f := fun d => { d with removed := true }) (fun _ => rfl)
    (fun _ => rfl) fun _ => rfl
  exact (quiet.consistent consistent).notifynode ((quiet.inNodes_iff n).mpr live)

theorem quiet_treeProcDelSyncGet (n : Ref) (h : Heap) : Quiet h (treeProcDelSyncGet n h) :=
  quiet_modify h n (fun _ => rfl) (fun _ => rfl) fun _ => rfl

theorem leave_owner_self (l : Links Ref Ref) (n : Ref) : (l.leave n).owner n = none := by
  refine Option.eq_none_iff_forall_ne_some.mpr ?_
  intro p owned
  exact ((Links.leave_owner_iff n n p).mp owned).2 rfl

theorem parent_relink (h : Heap) (n p : Ref) :
    (h.relink n p).parent = Function.update h.parent n (some p) := by
  funext m
  refine Option.ext fun q => ?_
  refine (Links.attach_owner_iff n m p q _).trans ?_
  rw [Links.leave_owner_iff]
  by_cases same : m = n
  · subst same
    simp [eq_comm]
  · simp [same, parent]

theorem Wired.relink (wired : h.Wired) {n p : Ref} (live : h.InNodes n) (above : h.InNodes p) :
    (h.relink n p).Wired where
  linked := Links.linked_pushBack (Links.linked_leave wired.linked n) (leave_owner_self _ n) p
  ends m q linked := by
    rw [parent_relink] at linked
    by_cases same : m = n
    · subst same
      rw [Function.update_self] at linked
      exact ⟨live, Option.some.inj linked ▸ above⟩
    · rw [Function.update_of_ne same] at linked
      exact wired.ends m q linked
  handles := wired.handles
  allocated := wired.allocated

theorem Consistent.relink (consistent : h.Consistent) {n p : Ref} (live : h.InNodes n)
    (above : h.InNodes p) : (h.relink n p).Consistent where
  toWired := consistent.toWired.relink live above
  once := consistent.once
  queued := consistent.queued

theorem quiet_cancelGets {fuel : Nat} {n p : Ref} {h' : Heap}
    (done : h.cancelGets fuel n p = some h') : Quiet h h' := by
  rw [cancelGets] at done
  split at done
  · split at done
    · cases done
    · exact Option.some.inj done ▸ .refl h
    · exact proctree_rel Quiet.refl (fun _ _ _ => Quiet.trans) quiet_treeProcDelSyncGet done
  · exact Option.some.inj done ▸ .refl h

/-- `setparent` does nothing or relinks the node, and cancels transfers. -/
theorem setparent_cases {fuel : Nat} {n p : Ref} {moved : Bool} {h' : Heap}
    (done : h.setparent fuel n p = some (moved, h')) :
    (h.parent n = some p ∧ moved = false ∧ h' = h) ∨
      (h.parent n ≠ some p ∧ moved = true ∧ Quiet (h.relink n p) h') := by
  rw [setparent] at done
  split at done
  · rename_i there
    obtain ⟨rfl, rfl⟩ := Prod.mk.inj (Option.some.inj done)
    exact .inl ⟨there, rfl, rfl⟩
  · rename_i elsewhere
    obtain ⟨mid, cancelled, same⟩ := Option.map_eq_some_iff.mp done
    obtain ⟨rfl, rfl⟩ := Prod.mk.inj same
    exact .inr ⟨elsewhere, rfl, quiet_cancelGets cancelled⟩

theorem Consistent.setparent (consistent : h.Consistent) {n p : Ref} (live : h.InNodes n)
    (above : h.InNodes p) {fuel : Nat} {moved : Bool} {h' : Heap}
    (done : h.setparent fuel n p = some (moved, h')) : h'.Consistent := by
  rcases setparent_cases done with ⟨-, -, rfl⟩ | ⟨-, -, quiet⟩
  · exact consistent
  · exact quiet.consistent (consistent.relink live above)

theorem quiet_setnode (h : Heap) (l : LocalRef) (cnode : Ref) : Quiet h (h.setnode l cnode) := by
  have before : Quiet h (h.dissociate l cnode) := by
    rw [dissociate]
    split
    · split
      · exact quiet_setLocalnode h _ none
      · exact .refl h
    · exact .refl h
  exact (before.trans (quiet_setLocalnode _ cnode (some l))).withLocals _

/-- A fresh pointer has no links. -/
theorem Wired.links_create (wired : h.Wired) (k ph : Handle) (t : NodeType) :
    (h.create k ph t).links = h.links := by
  have outside : ¬h.InNodes h.next := fun live => Nat.lt_irrefl _ (wired.allocated _ _ live)
  have alone : h.links.owner h.next = none := by
    refine Option.eq_none_iff_forall_ne_some.mpr ?_
    intro p owned
    exact outside (wired.ends _ p owned).1
  have childless : h.links.list h.next = [] := by
    refine List.eq_nil_iff_forall_not_mem.mpr ?_
    intro e mem
    have owned := (wired.linked.mem_iff e.2 h.next).mpr (Links.mem_members mem)
    exact outside (wired.ends _ _ owned).2
  have owner : Function.update h.links.owner h.next none = h.links.owner := by
    rw [← alone, Function.update_eq_self]
  have list : Function.update h.links.list h.next [] = h.links.list := by
    rw [← childless, Function.update_eq_self]
  simp only [create, owner, list]

section Create
variable (wired : h.Wired) {k : Handle} (unknown : h.nodes k = none) (ph : Handle) (t : NodeType)
include wired unknown

/-- The nodes that were there are still there. -/
theorem Wired.inNodes_create {n : Ref} (live : h.InNodes n) : (h.create k ph t).InNodes n := by
  have old : n ≠ h.next := Nat.ne_of_lt (wired.allocated _ n live)
  have other : (h.data n).nodehandle ≠ k := by
    rintro rfl
    rw [InNodes, unknown] at live
    cases live
  simpa [InNodes, create, old, other] using live

theorem Wired.create : (h.create k ph t).Wired where
  linked := by
    rw [wired.links_create]
    exact wired.linked
  ends n p linked := by
    rw [parent, wired.links_create] at linked
    obtain ⟨live, above⟩ := wired.ends n p linked
    exact ⟨wired.inNodes_create unknown ph t live, wired.inNodes_create unknown ph t above⟩
  handles k' n found := by
    by_cases new : k' = k
    · subst new
      obtain rfl : h.next = n := by simpa [Heap.create] using found
      simp [Heap.create]
    · have old : h.nodes k' = some n := by simpa [Heap.create, new] using found
      have before := wired.allocated k' n old
      simpa [Heap.create, Nat.ne_of_lt before] using wired.handles k' n old
  allocated k' n found := by
    change n < h.next + 1
    by_cases new : k' = k
    · subst new
      obtain rfl : h.next = n := by simpa [Heap.create] using found
      exact Nat.lt_succ_self _
    · have old : h.nodes k' = some n := by simpa [Heap.create, new] using found
      exact Nat.lt_succ_of_lt (wired.allocated k' n old)

end Create

theorem Consistent.create (consistent : h.Consistent) {k : Handle} (unknown : h.nodes k = none)
    (ph : Handle) (t : NodeType) : (h.create k ph t).Consistent where
  toWired := consistent.toWired.create unknown ph t
  once := consistent.once
  queued n mem := by
    obtain ⟨live, notified⟩ := consistent.queued n mem
    have old : n ≠ h.next := Nat.ne_of_lt (consistent.allocated _ n live)
    refine ⟨consistent.inNodes_create unknown ph t live, ?_⟩
    simpa [Heap.create, old] using notified

theorem nodes_purge (h : Heap) (n : Ref) : (h.purge n).nodes =
    if (h.data n).removed then Function.update h.nodes (h.data n).nodehandle none else h.nodes := by
  rw [purge]
  split <;> rfl

theorem framed_unnotify (h : Heap) (n : Ref) :
    Framed h (h.modify n fun d => { d with notified := false }) :=
  framed_modify h n (fun _ => rfl) fun _ => rfl

theorem nodehandle_purge (h : Heap) (n m : Ref) :
    ((h.purge n).data m).nodehandle = (h.data m).nodehandle := by
  rw [purge]
  split
  · rfl
  · exact (framed_unnotify h n).nodehandle m

/-- The other nodes stay. -/
theorem inNodes_purge {n m : Ref} (live : h.InNodes n) (other : h.InNodes m) (apart : m ≠ n) :
    (h.purge n).InNodes m := by
  rw [InNodes, nodehandle_purge, nodes_purge]
  split
  · have differ : (h.data m).nodehandle ≠ (h.data n).nodehandle :=
      fun same => apart (other.eq live same)
    rw [Function.update_of_ne differ]
    exact other
  · exact other

/-- `nodes` only loses entries. -/
theorem nodes_of_purge {n m : Ref} {k : Handle} (found : (h.purge n).nodes k = some m) :
    h.nodes k = some m := by
  rw [nodes_purge] at found
  split at found
  · by_cases gone : k = (h.data n).nodehandle
    · subst gone
      rw [Function.update_self] at found
      cases found
    · rwa [Function.update_of_ne gone] at found
  · exact found

theorem Wired.purge (wired : h.Wired) {n : Ref} (live : h.InNodes n) : (h.purge n).Wired := by
  by_cases removed : (h.data n).removed = true
  · have links : (h.purge n).links = (h.links.leave n).release n := by
      rw [Heap.purge, if_pos removed]
      rfl
    have left := Links.linked_leave wired.linked n
    refine ⟨?_, ?_, ?_, ?_⟩
    · rw [links]
      exact Links.linked_release left n
    · intro m p linked
      rw [parent, links, left.release_owner_iff, Links.leave_owner_iff] at linked
      obtain ⟨⟨owned, apart⟩, above⟩ := linked
      obtain ⟨child, other⟩ := wired.ends m p owned
      exact ⟨inNodes_purge live child apart, inNodes_purge live other above⟩
    · intro k m found
      rw [nodehandle_purge]
      exact wired.handles k m (nodes_of_purge found)
    · intro k m found
      have next : (h.purge n).next = h.next := by
        rw [Heap.purge, if_pos removed]
        rfl
      rw [next]
      exact wired.allocated k m (nodes_of_purge found)
  · have kept : h.purge n = h.modify n fun d => { d with notified := false } := if_neg removed
    rw [kept]
    exact (framed_unnotify h n).wired wired

/-- The loop of `notifypurge`: the nodes still to come are there. -/
theorem Wired.purgeAll (wired : h.Wired) {queue : List Ref} (once : queue.Nodup)
    (live : ∀ n ∈ queue, h.InNodes n) : (queue.foldl Heap.purge h).Wired := by
  induction queue generalizing h with
  | nil => exact wired
  | cons n queue ih =>
    obtain ⟨fresh, others⟩ := List.nodup_cons.mp once
    have here := live n List.mem_cons_self
    refine ih (wired.purge here) others ?_
    intro m mem
    refine inNodes_purge here (live m (List.mem_cons_of_mem n mem)) ?_
    rintro rfl
    exact fresh mem

theorem Consistent.notifypurge (consistent : h.Consistent) : h.notifypurge.Consistent := by
  have wired := consistent.toWired.purgeAll consistent.once fun n mem => (consistent.queued n mem).1
  exact ⟨⟨wired.linked, wired.ends, wired.handles, wired.allocated⟩, List.nodup_nil,
    fun n mem => nomatch mem⟩

end Heap

end MegaSdk.Tree
