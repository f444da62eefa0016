import MegaSdk.Tree.Heap
import MegaSdk.Sync.Creation
import Mathlib.Logic.Relation

/-!
# Node records become nodes

`MegaClient::readnodes` of megaclient.cpp on the records of an array. A record of an unknown
handle makes a new node, a record of a removed node resurrects it. The node is linked to its
parent at once or, if the parent is not known yet, at the end, in reverse order. The records
of a `CommandPutNodes` also belong to the nodes it was made for, counted by `i`.
-/

namespace MegaSdk.Tree

open Sync.Creation (PutSource)

/-- The variables of `readnodes` at the end of a record. -/
structure Record where
  h : Handle
  ph : Handle
  t : NodeType
  a : Option Bytes
  k : Option Bytes
  s : Int
  fa : Option Bytes
  deriving DecidableEq

/-- What `readnodes` warns about. -/
def Record.warnings (r : Record) : List String :=
  (if r.h = undef then ["Missing node handle"]
    else if r.t = typeUnknown then ["Unknown node type"]
    else if r.t = fileNode ∨ r.t = folderNode then
      (if r.ph = undef then ["Missing parent"]
        else if r.a.isNone then ["Missing node attributes"]
        else if r.k.isNone then ["Missing node key"]
        else []) ++
      (if r.t = fileNode ∧ r.s = -1 then ["File node without file size"] else [])
    else []) ++
  (if r.fa.isSome ∧ r.t ≠ fileNode then ["Spurious file attributes"] else [])

def Record.accepted (r : Record) : Bool := r.warnings.isEmpty

/-- `newnodesource_t`. -/
inductive NewNodeSource where
  | newNode
  | newPublic
  | newUpload
  deriving DecidableEq, Repr

structure NewNode where
  source : NewNodeSource
  uploadhandle : Handle
  localnode : Option LocalRef
  deriving DecidableEq, Repr

/-- What a `CommandPutNodes` hands to `readnodes`; beyond the end of the array `nn` is whatever
the memory holds. -/
structure Put where
  source : PutSource
  nn : Nat → NewNode

/-- What the client knows about uploads: the nodes they became, the file attributes that wait
for a node (upload handle, type, attribute handle and tag) and the requests that attach them. -/
structure Uploads where
  uhnh : Handle → Option Handle
  pendingfa : List (Handle × Nat × Handle × Int)
  attachfa : List (Handle × Nat × Handle × Int)

/-- The upload `uh` became the node `k`. -/
def Uploads.become (u : Uploads) (uh k : Handle) : Uploads where
  uhnh := if (u.uhnh uh).isSome then u.uhnh else Function.update u.uhnh uh (some k)
  pendingfa := u.pendingfa.filter fun fa => fa.1 ≠ uh
  attachfa := u.attachfa ++ (u.pendingfa.filter fun fa => fa.1 = uh).map fun fa => (k, fa.2)

/-- `readnodes` between two records; `used` lists the elements of `nn` that were looked at, each
with the handle of the node that was just made. -/
structure Reading where
  heap : Heap
  dp : List Ref
  i : Nat
  uploads : Uploads
  used : List (Nat × Handle)

namespace Reading
variable (s : Reading)

/-- The node goes below its parent, or waits for it in `dp`. -/
def place (fuel : Nat) (n : Ref) (ph : Handle) : Option Reading :=
  match s.heap.nodebyhandle ph with
  | some p => (s.heap.setparent fuel n p).map fun r => { s with heap := r.2 }
  | none => some { s with
      heap := s.heap.modify n fun d => { d with parenthandle := ph }
      dp := s.dp ++ [n] }

/-- A node marked for deletion is being resurrected, possibly with a new parent. -/
def resurrect (fuel : Nat) (n : Ref) (ph : Handle) : Option Reading :=
  let s := { s with heap := s.heap.modify n fun d => { d with removed := false } }
  if ph = undef then some s else s.place fuel n ph

/-- `new Node`. -/
def construct (fuel : Nat) (r : Record) : Option Reading :=
  { s with heap := s.heap.create r.h r.ph r.t }.place fuel s.heap.next r.ph

/-- The new node `n` and the element of `nn` that is next. -/
def associate (put : Option Put) (n : Ref) (k : Handle) : Reading :=
  match put with
  | none => { s with i := s.i + 1 }
  | some put =>
    let new := put.nn s.i
    { s with
      heap :=
        if put.source = .sync then
          match new.localnode with
          | some l => s.heap.setnode l n
          | none => s.heap
        else s.heap
      uploads := if new.source = .newUpload then s.uploads.become new.uploadhandle k else s.uploads
      used := s.used ++ [(s.i, k)]
      i := s.i + 1 }

def notify (notify : Bool) (n : Ref) : Reading :=
  if notify then { s with heap := s.heap.notifynode n } else s

/-- The body of the loop of `readnodes` from the warnings on. -/
def record (fuel : Nat) (notify : Bool) (put : Option Put) (s : Reading) (r : Record) :
    Option Reading :=
  if r.accepted then
    match s.heap.nodebyhandle r.h with
    | some n =>
      (if (s.heap.data n).removed then s.resurrect fuel n r.ph else some s).map
        fun s => s.notify notify n
    | none =>
      (s.construct fuel r).map
        fun s' => (s'.associate put s.heap.next r.h).notify notify s.heap.next
  else some s

def deferred (fuel : Nat) (h : Heap) (n : Ref) : Option Heap :=
  match h.nodebyhandle (h.data n).parenthandle with
  | some p => (h.setparent fuel n p).map Prod.snd
  | none => some h

def start (h : Heap) (uploads : Uploads) : Reading := ⟨h, [], 0, uploads, []⟩

end Reading

def readrecords (fuel : Nat) (notify : Bool) (put : Option Put) (rs : List Record) (h : Heap)
    (uploads : Uploads) : Option Reading :=
  rs.foldlM (Reading.record fuel notify put) (.start h uploads)

def readnodes (fuel : Nat) (notify : Bool) (put : Option Put) (rs : List Record) (h : Heap)
    (uploads : Uploads) : Option Reading :=
  match readrecords fuel notify put rs h uploads with
  | none => none
  | some s => (s.dp.reverse.foldlM (Reading.deferred fuel) s.heap).map fun h => { s with heap := h }

namespace Heap
variable {h h' : Heap}

theorem inNodes_setparent {fuel : Nat} {n p : Ref} {moved : Bool}
    (done : h.setparent fuel n p = some (moved, h')) (m : Ref) :
    h'.InNodes m ↔ h.InNodes m := by
  rcases setparent_cases done with ⟨-, -, rfl⟩ | ⟨-, -, quiet⟩
  · exact Iff.rfl
  · exact quiet.inNodes_iff m

theorem quiet_parenthandle (h : Heap) (n : Ref) (ph : Handle) :
    Quiet h (h.modify n fun d => { d with parenthandle := ph }) :=
  quiet_modify h n (fun _ => rfl) (fun _ => rfl) fun _ => rfl

theorem quiet_unremove (h : Heap) (n : Ref) :
    Quiet h (h.modify n fun d => { d with removed := false }) :=
  quiet_modify h n (fun _ => rfl) (fun _ => rfl) fun _ => rfl

theorem inNodes_new (h : Heap) (k ph : Handle) (t : NodeType) :
    (h.create k ph t).InNodes h.next := by
  simp [InNodes, create]

theorem nodehandle_new (h : Heap) (k ph : Handle) (t : NodeType) :
    ((h.create k ph t).data h.next).nodehandle = k := by
  simp [create]

end Heap

namespace Reading
variable {s s' : Reading}

/-- The heap is consistent and the nodes that wait for their parents are there. -/
structure Sound (s : Reading) : Prop where
  consistent : s.heap.Consistent
  waiting : ∀ n ∈ s.dp, s.heap.InNodes n

theorem Sound.withQuiet (sound : s.Sound) {h : Heap} (quiet : Heap.Quiet s.heap h) :
    Sound { s with heap := h } :=
  ⟨quiet.consistent sound.consistent, fun n mem => (quiet.inNodes_iff n).mpr (sound.waiting n mem)⟩

theorem Sound.place (sound : s.Sound) {fuel : Nat} {n : Ref} {ph : Handle}
    (live : s.heap.InNodes n) (done : s.place fuel n ph = some s') :
    s'.Sound ∧ ∀ m, s'.heap.InNodes m ↔ s.heap.InNodes m := by
  rw [Reading.place] at done
  split at done
  · rename_i p found
    obtain ⟨⟨moved, h'⟩, linked, rfl⟩ := Option.map_eq_some_iff.mp done
    have above := sound.consistent.inNodes found
    have same := Heap.inNodes_setparent linked
    exact ⟨⟨sound.consistent.setparent live above linked,
      fun m mem => (same m).mpr (sound.waiting m mem)⟩, same⟩
  · obtain rfl := Option.some.inj done
    have quiet := Heap.quiet_parenthandle s.heap n ph
    refine ⟨⟨quiet.consistent sound.consistent, ?_⟩, quiet.inNodes_iff⟩
    intro m mem
    rw [quiet.inNodes_iff]
    rcases List.mem_append.mp mem with old | new
    · exact sound.waiting m old
    · exact List.mem_singleton.mp new ▸ live

theorem Sound.resurrect (sound : s.Sound) {fuel : Nat} {n : Ref} {ph : Handle}
    (live : s.heap.InNodes n) (done : s.resurrect fuel n ph = some s') :
    s'.Sound ∧ ∀ m, s'.heap.InNodes m ↔ s.heap.InNodes m := by
  have quiet := Heap.quiet_unremove s.heap n
  have revived := sound.withQuiet quiet
  rw [Reading.resurrect] at done
  split at done
  · obtain rfl := Option.some.inj done
    exact ⟨revived, quiet.inNodes_iff⟩
  · obtain ⟨placed, same⟩ := revived.place ((quiet.inNodes_iff n).mpr live) done
    exact ⟨placed, fun m => (same m).trans (quiet.inNodes_iff m)⟩

theorem Sound.created (sound : s.Sound) {r : Record} (unknown : s.heap.nodes r.h = none) :
    Sound { s with heap := s.heap.create r.h r.ph r.t } :=
  ⟨sound.consistent.create unknown r.ph r.t,
    fun n mem => sound.consistent.inNodes_create unknown r.ph r.t (sound.waiting n mem)⟩

theorem Sound.construct (sound : s.Sound) {fuel : Nat} {r : Record}
    (unknown : s.heap.nodes r.h = none) (done : s.construct fuel r = some s') :
    s'.Sound ∧ s'.heap.InNodes s.heap.next := by
  have new := Heap.inNodes_new s.heap r.h r.ph r.t
  obtain ⟨placed, same⟩ := (sound.created unknown).place new done
  exact ⟨placed, (same _).mpr new⟩

theorem quiet_associate (s : Reading) (put : Option Put) (n : Ref) (k : Handle) :
    Heap.Quiet s.heap (s.associate put n k).heap ∧ (s.associate put n k).dp = s.dp := by
  cases put with
  | none => exact ⟨.refl _, rfl⟩
  | some put =>
    refine ⟨?_, rfl⟩
    simp only [associate]
    split
    · split
      · exact Heap.quiet_setnode _ _ _
      · exact .refl _
    · exact .refl _

theorem Sound.associate (sound : s.Sound) (put : Option Put) (n : Ref) (k : Handle) :
    (s.associate put n k).Sound := by
  obtain ⟨quiet, dp⟩ := quiet_associate s put n k
  refine ⟨quiet.consistent sound.consistent, ?_⟩
  rw [dp]
  exact fun m mem => (quiet.inNodes_iff m).mpr (sound.waiting m mem)

theorem Sound.notify (sound : s.Sound) (notify : Bool) {n : Ref} (live : s.heap.InNodes n) :
    (s.notify notify n).Sound := by
  rw [Reading.notify]
  split
  · exact ⟨sound.consistent.notifynode live,
      fun m mem => ((Heap.framed_notifynode _ n).inNodes_iff m).mpr (sound.waiting m mem)⟩
  · exact sound

/-- One record keeps the tree consistent. -/
theorem Sound.record (sound : s.Sound) {fuel : Nat} {notify : Bool} {put : Option Put}
    {r : Record} (done : record fuel notify put s r = some s') : s'.Sound := by
  rw [Reading.record] at done
  split at done
  · split at done
    · rename_i n found
      have live := sound.consistent.inNodes found
      obtain ⟨mid, revived, rfl⟩ := Option.map_eq_some_iff.mp done
      split at revived
      · obtain ⟨good, same⟩ := sound.resurrect live revived
        exact good.notify notify ((same n).mpr live)
      · obtain rfl := Option.some.inj revived
        exact sound.notify notify live
    · rename_i unknown
      obtain ⟨mid, constructed, rfl⟩ := Option.map_eq_some_iff.mp done
      obtain ⟨good, new⟩ := sound.construct unknown constructed
      have quiet := (quiet_associate mid put s.heap.next r.h).1
      exact (good.associate put _ _).notify notify ((quiet.inNodes_iff _).mpr new)
  · exact Option.some.inj done ▸ sound

/-- So does a child that finds its parent. -/
theorem deferred_consistent {fuel : Nat} {h h' : Heap} {n : Ref} (consistent : h.Consistent)
    (live : h.InNodes n) (done : deferred fuel h n = some h') :
    h'.Consistent ∧ ∀ m, h'.InNodes m ↔ h.InNodes m := by
  rw [deferred] at done
  split at done
  · rename_i p found
    obtain ⟨⟨moved, mid⟩, linked, rfl⟩ := Option.map_eq_some_iff.mp done
    exact ⟨consistent.setparent live (consistent.inNodes found) linked,
      Heap.inNodes_setparent linked⟩
  · exact Option.some.inj done ▸ ⟨consistent, fun _ => Iff.rfl⟩

theorem deferrals_consistent {fuel : Nat} {h h' : Heap} {ns : List Ref} (consistent : h.Consistent)
    (live : ∀ n ∈ ns, h.InNodes n) (done : ns.foldlM (deferred fuel) h = some h') :
    h'.Consistent := by
  refine (Heap.foldlM_invariant (P := fun x => x.Consistent ∧ ∀ m, x.InNodes m ↔ h.InNodes m)
    ?_ ⟨consistent, fun _ => Iff.rfl⟩ done).1
  rintro x x' n mem ⟨good, same⟩ step
  obtain ⟨kept, still⟩ := deferred_consistent good ((same n).mpr (live n mem)) step
  exact ⟨kept, fun m => (still m).trans (same m)⟩

end Reading

theorem sound_readrecords {fuel : Nat} {notify : Bool} {put : Option Put} {rs : List Record}
    {h : Heap} {uploads : Uploads} (consistent : h.Consistent) {s : Reading}
    (done : readrecords fuel notify put rs h uploads = some s) : s.Sound :=
  Heap.foldlM_invariant (P := Reading.Sound) (fun _ _ _ _ sound => sound.record)
    ⟨consistent, fun _ mem => absurd mem List.not_mem_nil⟩ done

theorem consistent_readnodes {fuel : Nat} {notify : Bool} {put : Option Put} {rs : List Record}
    {h : Heap} {uploads : Uploads} (consistent : h.Consistent) {s : Reading}
    (done : readnodes fuel notify put rs h uploads = some s) : s.heap.Consistent := by
  rw [readnodes] at done
  split at done
  · cases done
  · rename_i mid loop
    have sound := sound_readrecords consistent loop
    obtain ⟨h', linked, rfl⟩ := Option.map_eq_some_iff.mp done
    exact Reading.deferrals_consistent sound.consistent
      (fun n mem => sound.waiting n (List.mem_reverse.mp mem)) linked

/-- What happens to the tree. Nodes are given by their handles, the verdict of an access check
and the changes that syncs make to `LocalNode`s come from outside. -/
inductive Event where
  | readnodes (notify : Bool) (put : Option Put) (rs : List Record) (uploads : Uploads)
  /-- The array breaks off: `readnodes` returns at once. -/
  | readbroken (notify : Bool) (put : Option Put) (rs : List Record) (uploads : Uploads)
  | setparent (n p : Handle)
  | rename (checkmove : ApiError) (n p : Handle)
  | unlink (checkaccess : Bool) (n : Handle)
  | deltree (n : Handle)
  | notifynode (n : Handle)
  | notifypurge
  | sync (localnode : Ref → Option LocalRef) (locals : LocalRef → LocalNode)

namespace Heap

/-- `rename` after `checkmove`. -/
def rename (fuel : Nat) (checkmove : ApiError) (n p : Ref) (h : Heap) : Option Heap :=
  if checkmove = .ok then
    (h.setparent fuel n p).map fun r => if r.1 then r.2.notifynode n else r.2
  else some h

/-- `unlink` after `checkaccess`. -/
def unlink (fuel : Nat) (checkaccess : Bool) (n : Ref) (h : Heap) : Option Heap :=
  if checkaccess then proctree treeProcDel fuel n h else some h

/-- An operation on the node with a handle, if there is one. -/
def withNode (k : Handle) (f : Ref → Heap → Option Heap) (h : Heap) : Option Heap :=
  match h.nodebyhandle k with
  | some n => f n h
  | none => some h

def perform (fuel : Nat) (h : Heap) : Event → Option Heap
  | .readnodes notify put rs uploads => (Tree.readnodes fuel notify put rs h uploads).map (·.heap)
  | .readbroken notify put rs uploads => (readrecords fuel notify put rs h uploads).map (·.heap)
  | .setparent n p =>
    h.withNode n fun n h => h.withNode p fun p h => (h.setparent fuel n p).map Prod.snd
  | .rename checkmove n p =>
    h.withNode n fun n h => h.withNode p fun p h => h.rename fuel checkmove n p
  | .unlink checkaccess n => h.withNode n fun n h => h.unlink fuel checkaccess n
  | .deltree n => h.withNode n fun n h => proctree treeProcDel fuel n h
  | .notifynode n => h.withNode n fun n h => some (h.notifynode n)
  | .notifypurge => some h.notifypurge
  | .sync localnode locals =>
    some { h with data := fun n => { h.data n with localnode := localnode n }, locals := locals }

def empty : Heap where
  data _ := ⟨undef, undef, typeUnknown, false, false, none, false⟩
  links := .empty
  nodes _ := none
  nodenotify := []
  locals _ := ⟨none, none⟩
  next := 0

/-- Some event takes the first heap to the second one, and the call returns. -/
def Step (h h' : Heap) : Prop := ∃ event fuel, h.perform fuel event = some h'

def Reachable (h : Heap) : Prop := Relation.ReflTransGen Step empty h

theorem consistent_empty : empty.Consistent where
  linked := Membership.Links.linked_empty
  ends n p linked := by simp [parent, empty, Membership.Links.empty] at linked
  handles k n found := by simp [empty] at found
  allocated k n found := by simp [empty] at found
  once := List.nodup_nil
  queued n mem := by simp [empty] at mem

theorem Consistent.withNode {h h' : Heap} (consistent : h.Consistent) {k : Handle}
    {f : Ref → Heap → Option Heap}
    (keeps : ∀ n, h.InNodes n → f n h = some h' → h'.Consistent)
    (done : h.withNode k f = some h') : h'.Consistent := by
  rw [Heap.withNode] at done
  split at done
  · rename_i n found
    exact keeps n (consistent.inNodes found) done
  · exact Option.some.inj done ▸ consistent

theorem Consistent.deltree {h h' : Heap} (consistent : h.Consistent) {fuel : Nat} {n : Ref}
    (live : h.InNodes n) (done : Heap.proctree Heap.treeProcDel fuel n h = some h') :
    h'.Consistent :=
  consistent.proctree Consistent.treeProcDel framed_treeProcDel live done

theorem Consistent.rename {h h' : Heap} (consistent : h.Consistent) {fuel : Nat}
    {checkmove : ApiError} {n p : Ref} (live : h.InNodes n) (above : h.InNodes p)
    (done : h.rename fuel checkmove n p = some h') : h'.Consistent := by
  rw [Heap.rename] at done
  split at done
  · obtain ⟨⟨moved, mid⟩, linked, same⟩ := Option.map_eq_some_iff.mp done
    have good := consistent.setparent live above linked
    split at same
    · exact same ▸ good.notifynode ((inNodes_setparent linked n).mpr live)
    · exact same ▸ good
  · exact Option.some.inj done ▸ consistent

/-- One event keeps the tree consistent. -/
theorem Consistent.perform {h h' : Heap} (consistent : h.Consistent) {fuel : Nat} {event : Event}
    (done : h.perform fuel event = some h') : h'.Consistent := by
  cases event with
  | readnodes notify put rs uploads =>
    obtain ⟨s, read, rfl⟩ := Option.map_eq_some_iff.mp done
    exact consistent_readnodes consistent read
  | readbroken notify put rs uploads =>
    obtain ⟨s, read, rfl⟩ := Option.map_eq_some_iff.mp done
    exact (sound_readrecords consistent read).consistent
  | setparent n p =>
    refine consistent.withNode (fun n live => ?_) done
    refine fun inner => consistent.withNode (fun p above relinked => ?_) inner
    obtain ⟨⟨moved, mid⟩, linked, rfl⟩ := Option.map_eq_some_iff.mp relinked
    exact consistent.setparent live above linked
  | rename checkmove n p =>
    refine consistent.withNode (fun n live => ?_) done
    exact fun inner => consistent.withNode (fun p above => consistent.rename live above) inner
  | unlink checkaccess n =>
    refine consistent.withNode (fun n live inner => ?_) done
    rw [Heap.unlink] at inner
    split at inner
    · exact consistent.deltree live inner
    · exact Option.some.inj inner ▸ consistent
  | deltree n => exact consistent.withNode (fun n live => consistent.deltree live) done
  | notifynode n =>
    have queue : h.withNode n (fun n h => some (h.notifynode n)) = some h' := done
    refine consistent.withNode (fun n live inner => ?_) queue
    exact Option.some.inj inner ▸ consistent.notifynode live
  | notifypurge => exact Option.some.inj done ▸ consistent.notifypurge
  | sync localnode locals =>
    have quiet : Quiet h { h with
        data := fun n => { h.data n with localnode := localnode n }, locals := locals } :=
      ⟨⟨rfl, rfl, rfl, fun _ => rfl, fun _ => rfl⟩, rfl, fun _ => rfl⟩
    exact Option.some.inj done ▸ quiet.consistent consistent

theorem Reachable.consistent {h : Heap} (reachable : Reachable h) : h.Consistent := by
  induction reachable with
  | refl => exact consistent_empty
  | tail _ step ih =>
    obtain ⟨event, fuel, done⟩ := step
    exact ih.perform done

/-- The four copies of the tree agree: parent pointers, lists of children, stored positions and
the map of handles. -/
structure LinkConsistent (h : Heap) : Prop where
  parent_iff : ∀ n p, h.parent n = some p ↔ n ∈ h.children p
  once : ∀ p, (h.children p).Nodup
  child_it : ∀ n p, h.parent n = some p → (h.links.position n, n) ∈ h.links.list p
  cells : ∀ p, ((h.links.list p).map Prod.fst).Nodup
  parents : ∀ n p, h.parent n = some p → h.InNodes n ∧ h.InNodes p
  handles : ∀ k n, h.nodes k = some n → (h.data n).nodehandle = k

/-- In every reachable state the copies agree. -/
theorem linkConsistent_of_reachable {h : Heap} (reachable : Reachable h) : h.LinkConsistent := by
  have consistent := reachable.consistent
  exact ⟨consistent.linked.mem_iff, consistent.linked.once, consistent.linked.designates,
    consistent.linked.distinct, consistent.ends, consistent.handles⟩

def run (fuel : Nat) (events : List Event) (h : Heap) : Option Heap :=
  events.foldlM (perform fuel) h

theorem reachable_of_run {fuel : Nat} {events : List Event} {h : Heap}
    (returns : run fuel events empty = some h) : Reachable h :=
  foldlM_invariant (P := Reachable)
    (fun _ _ event _ sofar done => sofar.tail ⟨event, fuel, done⟩) .refl returns

end Heap

def noUploads : Uploads := ⟨fun _ => none, [], []⟩

def rootRecord : Record := ⟨1, undef, rootNode, none, none, -1, none⟩

def folderRecord (h ph : Handle) : Record := ⟨h, ph, folderNode, some [], some [], -1, none⟩

/-- A child arrives before its parent, both are deleted, the parent comes back, and a purge. -/
def deleteAndReturn : List Event :=
  [.readnodes true none [folderRecord 3 2, rootRecord, folderRecord 2 1] noUploads, .unlink true 2,
    .readnodes true none [folderRecord 2 1] noUploads, .notifypurge]

theorem linkConsistent_deleteAndReturn :
    ∃ h, Heap.run 9 deleteAndReturn Heap.empty = some h ∧ h.LinkConsistent := by
  have returns : (Heap.run 9 deleteAndReturn Heap.empty).isSome = true := by decide +kernel
  obtain ⟨h, run⟩ := Option.isSome_iff_exists.mp returns
  exact ⟨h, run, Heap.linkConsistent_of_reachable (Heap.reachable_of_run run)⟩

end MegaSdk.Tree
