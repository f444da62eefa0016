import MegaSdk.Tree.NewNodes
import MegaSdk.Lib.ParentForest

/-!
# What `readnodes` does to the tree, by handles

An outline of the tree knows the handles, which of them are marked as removed and the handle
of each parent. `readnodes` acts on it without a search through the tree: a record links its
node at once or later, or does nothing.
-/

namespace MegaSdk.Tree

open ParentForest

/-- The tree by handles, with the links that wait for a parent. -/
structure Outline where
  known : Handle → Bool
  removed : Handle → Bool
  parent : Handle → Option Handle
  dp : List (Handle × Handle)

namespace Outline
variable (o : Outline)

def link (n p : Handle) : Outline := { o with parent := Function.update o.parent n (some p) }

def place (n ph : Handle) : Outline :=
  if o.known ph then o.link n ph else { o with dp := o.dp ++ [(n, ph)] }

/-- The outline in which a record places its node, if it does. -/
def prepare (r : Record) : Outline :=
  { o with
    known := Function.update o.known r.h true
    removed := Function.update o.removed r.h false }

/-- Whether the record is of a new node, or of one that comes back. -/
def places (r : Record) : Bool :=
  r.accepted && (!o.known r.h || (o.removed r.h && r.ph ≠ undef))

def record (r : Record) : Outline :=
  if o.places r then (o.prepare r).place r.h r.ph
  else if r.accepted then { o with removed := Function.update o.removed r.h false }
  else o

def deferred (e : Handle × Handle) : Outline := if o.known e.2 then o.link e.1 e.2 else o

def readnodes (rs : List Record) : Outline :=
  (rs.foldl record o).dp.reverse.foldl deferred (rs.foldl record o)

theorem parent_link_self (n p : Handle) : (o.link n p).parent n = some p :=
  Function.update_self _ _ _

theorem parent_link_of_ne {n k : Handle} (p : Handle) (other : k ≠ n) :
    (o.link n p).parent k = o.parent k := Function.update_of_ne other _ _

end Outline

namespace Heap
variable (h : Heap)

def up (k : Handle) : Option Handle :=
  (h.nodes k).bind fun n => (h.parent n).map fun p => (h.data p).nodehandle

def removedAt (k : Handle) : Bool := (h.nodes k).any fun n => (h.data n).removed

def waits (n : Ref) : Handle × Handle := ((h.data n).nodehandle, (h.data n).parenthandle)

def outline (dp : List Ref) : Outline := ⟨h.known, h.removedAt, h.up, dp.map h.waits⟩

/-- Only transfers, `LocalNode`s and notifications differ. -/
structure Alike (h h' : Heap) : Prop extends Framed h h' where
  removed : ∀ n, (h'.data n).removed = (h.data n).removed
  parenthandle : ∀ n, (h'.data n).parenthandle = (h.data n).parenthandle

namespace Alike
variable {h h' h'' : Heap}

theorem refl (h : Heap) : Alike h h := ⟨.refl h, fun _ => rfl, fun _ => rfl⟩

theorem trans (first : Alike h h') (second : Alike h' h'') : Alike h h'' :=
  ⟨first.toFramed.trans second.toFramed, fun n => (second.removed n).trans (first.removed n),
    fun n => (second.parenthandle n).trans (first.parenthandle n)⟩

/-- What is not in the data and the links does not matter. -/
theorem elsewhere (alike : Alike h h') (queue : List Ref) (locals : LocalRef → LocalNode) :
    Alike h { h' with nodenotify := queue, locals := locals } :=
  ⟨⟨alike.links, alike.nodes, alike.next, alike.nodehandle, alike.type⟩, alike.removed,
    alike.parenthandle⟩

theorem outline (alike : Alike h h') (dp : List Ref) : h'.outline dp = h.outline dp := by
  have known : h'.known = h.known := by
    funext k
    rw [Heap.known, Heap.known, alike.nodes]
  have removed : h'.removedAt = h.removedAt := by
    funext k
    simp only [removedAt, alike.nodes, alike.removed]
  have up : h'.up = h.up := by
    funext k
    simp only [Heap.up, alike.nodes, alike.parent, alike.nodehandle]
  have waits : h'.waits = h.waits := by
    funext n
    rw [Heap.waits, Heap.waits, alike.nodehandle, alike.parenthandle]
  rw [Heap.outline, Heap.outline, known, removed, up, waits]

end Alike

theorem alike_modify (h : Heap) (n : Ref) {f : NodeData → NodeData}
    (nodehandle : ∀ d, (f d).nodehandle = d.nodehandle) (type : ∀ d, (f d).type = d.type)
    (removed : ∀ d, (f d).removed = d.removed)
    (parenthandle : ∀ d, (f d).parenthandle = d.parenthandle) : Alike h (h.modify n f) := by
  refine ⟨framed_modify h n nodehandle type, ?_, ?_⟩
  · intro m
    rw [data_modify]
    split
    · exact removed _
    · rfl
  · intro m
    rw [data_modify]
    split
    · exact parenthandle _
    · rfl

theorem alike_setLocalnode (h : Heap) (n : Ref) (l : Option LocalRef) :
    Alike h (h.setLocalnode n l) :=
  alike_modify h n (fun _ => rfl) (fun _ => rfl) (fun _ => rfl) fun _ => rfl

theorem alike_notifynode (h : Heap) (n : Ref) : Alike h (h.notifynode n) := by
  have first : Alike h (h.unsync n) := by
    rw [unsync]
    split
    · split
      · exact (alike_setLocalnode h n none).elsewhere _ _
      · exact .refl h
    · exact .refl h
  have second : ∀ h : Heap, Alike h (h.enqueue n) := by
    intro h
    rw [enqueue]
    split
    · exact .refl h
    · have marked : Alike h (h.modify n fun d => { d with notified := true }) :=
        alike_modify h n (fun _ => rfl) (fun _ => rfl) (fun _ => rfl) fun _ => rfl
      exact marked.elsewhere _ _
  exact first.trans (second _)

theorem alike_setnode (h : Heap) (l : LocalRef) (cnode : Ref) : Alike h (h.setnode l cnode) := by
  have before : Alike h (h.dissociate l cnode) := by
    rw [dissociate]
    split
    · split
      · exact alike_setLocalnode h _ none
      · exact .refl h
    · exact .refl h
  exact (before.trans (alike_setLocalnode _ cnode (some l))).elsewhere _ _

theorem alike_treeProcDelSyncGet (n : Ref) (h : Heap) : Alike h (treeProcDelSyncGet n h) :=
  alike_modify h n (fun _ => rfl) (fun _ => rfl) (fun _ => rfl) fun _ => rfl

theorem alike_cancelGets {h h' : Heap} {fuel : Nat} {n p : Ref}
    (done : h.cancelGets fuel n p = some h') : Alike h h' := by
  rw [cancelGets] at done
  split at done
  · split at done
    · cases done
    · exact Option.some.inj done ▸ .refl h
    · exact proctree_rel Alike.refl (fun _ _ _ => Alike.trans) alike_treeProcDelSyncGet done
  · exact Option.some.inj done ▸ .refl h

section Links
variable {h}

theorem InNodes.up_eq {n : Ref} (live : h.InNodes n) :
    h.up (h.data n).nodehandle = (h.parent n).map fun p => (h.data p).nodehandle := by
  rw [up, live, Option.bind_some]

theorem Wired.up_relink (wired : h.Wired) {n : Ref} (live : h.InNodes n) (p : Ref) :
    (h.relink n p).up =
      Function.update h.up (h.data n).nodehandle (some (h.data p).nodehandle) := by
  funext k
  change (h.nodes k).bind
    (fun m => ((h.relink n p).parent m).map fun q => (h.data q).nodehandle) = _
  rw [parent_relink]
  by_cases same : k = (h.data n).nodehandle
  · subst same
    rw [live, Option.bind_some, Function.update_self, Function.update_self, Option.map_some]
  · rw [Function.update_of_ne same, up]
    cases found : h.nodes k with
    | none => rfl
    | some m =>
      have other : m ≠ n := by
        rintro rfl
        exact same (wired.handles k m found).symm
      rw [Option.bind_some, Option.bind_some, Function.update_of_ne other]

/-- `setparent` links the handles. -/
theorem Wired.outline_setparent (wired : h.Wired) {n p : Ref} (live : h.InNodes n) {fuel : Nat}
    {moved : Bool} {h' : Heap} (done : h.setparent fuel n p = some (moved, h')) (dp : List Ref) :
    h'.outline dp = (h.outline dp).link (h.data n).nodehandle (h.data p).nodehandle := by
  rw [setparent] at done
  split at done
  · rename_i there
    obtain ⟨rfl, rfl⟩ := Prod.mk.inj (Option.some.inj done)
    have linked : h.up (h.data n).nodehandle = some (h.data p).nodehandle := by
      rw [live.up_eq, there, Option.map_some]
    rw [Outline.link, outline, ← linked, Function.update_eq_self]
  · obtain ⟨mid, cancelled, same⟩ := Option.map_eq_some_iff.mp done
    obtain ⟨rfl, rfl⟩ := Prod.mk.inj same
    rw [(alike_cancelGets cancelled).outline, outline, wired.up_relink live]
    rfl

theorem Wired.parent_acyclic_iff (wired : h.Wired) : Acyclic h.parent ↔ Acyclic h.up := by
  constructor
  · rintro ⟨rank, drops⟩
    refine ⟨fun k => ((h.nodes k).map rank).getD 0, ?_⟩
    intro k q linked
    obtain ⟨n, found, above⟩ := Option.bind_eq_some_iff.mp linked
    obtain ⟨p, owner, rfl⟩ := Option.map_eq_some_iff.mp above
    have there : h.nodes (h.data p).nodehandle = some p := (wired.ends n p owner).2
    simp only [found, there, Option.map_some, Option.getD_some]
    exact drops n p owner
  · rintro ⟨rank, drops⟩
    refine ⟨fun n => rank (h.data n).nodehandle, ?_⟩
    intro n p owner
    refine drops _ _ ?_
    rw [(wired.ends n p owner).1.up_eq, owner, Option.map_some]

end Links

section Create
variable {h} (wired : h.Wired) {k : Handle} (unknown : h.nodes k = none) (ph : Handle)
    (t : NodeType)
include wired unknown

theorem Wired.up_create : (h.create k ph t).up = h.up := by
  have parent : (h.create k ph t).parent = h.parent := by
    funext n
    rw [Heap.parent, Heap.parent, wired.links_create]
  funext q
  rw [up, up, parent]
  by_cases same : q = k
  · subst same
    have alone : h.parent h.next = none := by
      rw [← parent, Heap.parent, Heap.create]
      exact Function.update_self _ _ _
    simp [Heap.create, unknown, alone]
  · have nodes : (h.create k ph t).nodes q = h.nodes q := Function.update_of_ne same _ _
    rw [nodes]
    cases found : h.nodes q with
    | none => rfl
    | some n =>
      rw [Option.bind_some, Option.bind_some]
      cases owner : h.parent n with
      | none => rfl
      | some p =>
        have old : p ≠ h.next := Nat.ne_of_lt (wired.allocated _ p (wired.ends n p owner).2)
        simp [Heap.create, old]

theorem Wired.outline_create {dp : List Ref} (waiting : ∀ n ∈ dp, h.InNodes n) :
    (h.create k ph t).outline dp = { h.outline dp with
      known := Function.update h.known k true
      removed := Function.update h.removedAt k false } := by
  have known : (h.create k ph t).known = Function.update h.known k true := by
    funext q
    by_cases same : q = k
    · subst same
      simp [Heap.known, Heap.create]
    · simp [Heap.known, Heap.create, same]
  have removed : (h.create k ph t).removedAt = Function.update h.removedAt k false := by
    funext q
    by_cases same : q = k
    · subst same
      simp [removedAt, Heap.create]
    · rw [Function.update_of_ne same, removedAt, removedAt]
      have nodes : (h.create k ph t).nodes q = h.nodes q := Function.update_of_ne same _ _
      rw [nodes]
      cases found : h.nodes q with
      | none => rfl
      | some n =>
        have old : n ≠ h.next := Nat.ne_of_lt (wired.allocated q n found)
        simp [Heap.create, old]
  have waits : dp.map (h.create k ph t).waits = dp.map h.waits := by
    refine List.map_congr_left ?_
    intro n mem
    have old : n ≠ h.next := Nat.ne_of_lt (wired.allocated _ n (waiting n mem))
    simp [Heap.waits, Heap.create, old]
  rw [outline, known, removed, wired.up_create unknown, waits]
  rfl

end Create

/-- The mark is taken off. -/
theorem Wired.outline_unremove {h : Heap} (wired : h.Wired) {n : Ref} (live : h.InNodes n)
    (dp : List Ref) :
    (h.modify n fun d => { d with removed := false }).outline dp = { h.outline dp with
      removed := Function.update h.removedAt (h.data n).nodehandle false } := by
  have quiet := quiet_unremove h n
  have removed : (h.modify n fun d => { d with removed := false }).removedAt =
      Function.update h.removedAt (h.data n).nodehandle false := by
    funext k
    rw [removedAt, quiet.nodes]
    by_cases same : k = (h.data n).nodehandle
    · subst same
      rw [live, Function.update_self, Option.any_some, data_modify, if_pos rfl]
    · rw [Function.update_of_ne same, removedAt]
      cases found : h.nodes k with
      | none => rfl
      | some m =>
        have other : m ≠ n := by
          rintro rfl
          exact same (wired.handles k m found).symm
        rw [Option.any_some, Option.any_some, data_modify, if_neg other]
  have up : (h.modify n fun d => { d with removed := false }).up = h.up := by
    funext k
    simp only [Heap.up, quiet.nodes, quiet.parent, quiet.nodehandle]
  have waits : (h.modify n fun d => { d with removed := false }).waits = h.waits := by
    funext m
    rw [Heap.waits, Heap.waits, data_modify]
    split <;> rfl
  rw [outline, removed, up, waits]
  rfl

theorem outline_parenthandle {h : Heap} {n : Ref} {dp : List Ref} (fresh : n ∉ dp)
    (ph : Handle) :
    (h.modify n fun d => { d with parenthandle := ph }).outline (dp ++ [n]) = { h.outline dp with
      dp := dp.map h.waits ++ [((h.data n).nodehandle, ph)] } := by
  have quiet := quiet_parenthandle h n ph
  have removed : (h.modify n fun d => { d with parenthandle := ph }).removedAt = h.removedAt := by
    funext k
    rw [removedAt, removedAt, quiet.nodes]
    refine congrArg (fun f => Option.any f (h.nodes k)) ?_
    funext m
    rw [data_modify]
    split <;> rfl
  have up : (h.modify n fun d => { d with parenthandle := ph }).up = h.up := by
    funext k
    simp only [Heap.up, quiet.nodes, quiet.parent, quiet.nodehandle]
  have waits : (dp ++ [n]).map (h.modify n fun d => { d with parenthandle := ph }).waits =
      dp.map h.waits ++ [((h.data n).nodehandle, ph)] := by
    rw [List.map_append, List.map_singleton, Heap.waits, data_modify, if_pos rfl]
    refine congrArg (· ++ _) (List.map_congr_left ?_)
    intro m mem
    have other : m ≠ n := by
      rintro rfl
      exact fresh mem
    rw [Heap.waits, Heap.waits, data_modify, if_neg other]
  rw [outline, removed, up, waits]
  rfl

/-- `setparent` changes the links of one node, and then only hidden things. -/
theorem setparent_alike {h h' : Heap} {fuel : Nat} {n p : Ref} {moved : Bool}
    (done : h.setparent fuel n p = some (moved, h')) :
    ∃ links, Alike { h with links := links } h' := by
  rw [setparent] at done
  split at done
  · obtain ⟨rfl, rfl⟩ := Prod.mk.inj (Option.some.inj done)
    exact ⟨h.links, .refl h⟩
  · obtain ⟨mid, cancelled, same⟩ := Option.map_eq_some_iff.mp done
    obtain ⟨rfl, rfl⟩ := Prod.mk.inj same
    exact ⟨_, alike_cancelGets cancelled⟩

end Heap

namespace Reading

def outline (s : Reading) : Outline := s.heap.outline s.dp

/-- The nodes that wait for their parents are not marked as removed. -/
structure Settled (s : Reading) : Prop extends Sound s where
  settled : ∀ n ∈ s.dp, (s.heap.data n).removed = false

variable {s s' : Reading}

theorem Settled.place (settled : s.Settled) {fuel : Nat} {n : Ref} {ph : Handle}
    (live : s.heap.InNodes n) (kept : (s.heap.data n).removed = false) (fresh : n ∉ s.dp)
    (done : s.place fuel n ph = some s') :
    s'.Settled ∧ s'.outline = s.outline.place (s.heap.data n).nodehandle ph := by
  have sound := (settled.toSound.place live done).1
  rw [Reading.place] at done
  split at done
  · rename_i p found
    obtain ⟨⟨moved, h'⟩, linked, rfl⟩ := Option.map_eq_some_iff.mp done
    refine ⟨⟨sound, ?_⟩, ?_⟩
    · intro m mem
      obtain ⟨links, alike⟩ := Heap.setparent_alike linked
      exact (alike.removed m).trans (settled.settled m mem)
    · have known : s.outline.known ph = true := Option.isSome_iff_exists.mpr ⟨p, found⟩
      have handle : (s.heap.data p).nodehandle = ph := settled.consistent.handles ph p found
      rw [Outline.place, if_pos known]
      refine (settled.consistent.toWired.outline_setparent live linked s.dp).trans ?_
      rw [handle]
      rfl
  · rename_i missing
    obtain rfl := Option.some.inj done
    refine ⟨⟨sound, ?_⟩, ?_⟩
    · intro m mem
      rw [Heap.data_modify]
      split
      · rename_i same
        exact same ▸ kept
      · rename_i other
        rcases List.mem_append.mp mem with old | new
        · exact settled.settled m old
        · exact absurd (List.mem_singleton.mp new) other
    · have unknown : ¬s.outline.known ph = true := by
        change ¬(s.heap.nodes ph).isSome = true
        rw [show s.heap.nodes ph = none from missing]
        exact Bool.false_ne_true
      rw [Outline.place, if_neg unknown]
      exact Heap.outline_parenthandle fresh ph

/-- Settled is a matter of the outline and of what is queued. -/
theorem Settled.alike (settled : s.Settled) (sound : s'.Sound) (alike : Heap.Alike s.heap s'.heap)
    (dp : s'.dp = s.dp) : s'.Settled ∧ s'.outline = s.outline := by
  refine ⟨⟨sound, ?_⟩, ?_⟩
  · intro n mem
    rw [dp] at mem
    exact (alike.removed n).trans (settled.settled n mem)
  · rw [outline, outline, dp]
    exact alike.outline s.dp

theorem Settled.notify (settled : s.Settled) (notify : Bool) {n : Ref} (live : s.heap.InNodes n) :
    (s.notify notify n).Settled ∧ (s.notify notify n).outline = s.outline := by
  refine settled.alike (settled.toSound.notify notify live) ?_ ?_
  · rw [Reading.notify]
    split
    · exact Heap.alike_notifynode s.heap n
    · exact .refl _
  · rw [Reading.notify]
    split <;> rfl

theorem Settled.associate (settled : s.Settled) (put : Option Put) (n : Ref) (k : Handle) :
    (s.associate put n k).Settled ∧ (s.associate put n k).outline = s.outline := by
  refine settled.alike (settled.toSound.associate put n k) ?_ (quiet_associate s put n k).2
  cases put with
  | none => exact .refl _
  | some put =>
    simp only [Reading.associate]
    split
    · split
      · exact Heap.alike_setnode _ _ _
      · exact .refl _
    · exact .refl _

/-- The node of a record that comes back, before it is placed. -/
theorem Settled.outline_revived (settled : s.Settled) {n : Ref} {r : Record}
    (found : s.heap.nodes r.h = some n) :
    Reading.outline { s with heap := s.heap.modify n fun d => { d with removed := false } } =
      s.outline.prepare r := by
  have wired := settled.consistent.toWired
  have handle : (s.heap.data n).nodehandle = r.h := wired.handles r.h n found
  have known : s.outline.known r.h = true := Option.isSome_iff_exists.mpr ⟨n, found⟩
  have present : Function.update s.outline.known r.h true = s.outline.known := by
    rw [← known, Function.update_eq_self]
  rw [Outline.prepare, present, ← handle]
  exact wired.outline_unremove (wired.inNodes found) s.dp

/-- A new node before it is placed. -/
theorem Settled.outline_created (settled : s.Settled) {r : Record}
    (unknown : s.heap.nodes r.h = none) :
    Reading.outline { s with heap := s.heap.create r.h r.ph r.t } = s.outline.prepare r :=
  settled.consistent.toWired.outline_create unknown r.ph r.t settled.waiting

/-- A node that comes back. -/
theorem Settled.resurrect (settled : s.Settled) {fuel : Nat} {n : Ref} {ph : Handle}
    (live : s.heap.InNodes n) (marked : (s.heap.data n).removed = true)
    (done : s.resurrect fuel n ph = some s') :
    s'.Settled ∧ s'.outline =
      let o := { s.outline with
        removed := Function.update s.outline.removed (s.heap.data n).nodehandle false }
      if ph = undef then o else o.place (s.heap.data n).nodehandle ph := by
  have fresh : n ∉ s.dp := by
    intro mem
    rw [settled.settled n mem] at marked
    cases marked
  have quiet := Heap.quiet_unremove s.heap n
  have outline := settled.consistent.toWired.outline_unremove live s.dp
  have revived :
      Settled { s with heap := s.heap.modify n fun d => { d with removed := false } } := by
    refine ⟨settled.toSound.withQuiet quiet, ?_⟩
    intro m mem
    rw [Heap.data_modify]
    split
    · rfl
    · exact settled.settled m mem
  rw [Reading.resurrect] at done
  split at done
  · rename_i absent
    obtain rfl := Option.some.inj done
    refine ⟨revived, ?_⟩
    rw [if_pos absent]
    exact outline
  · rename_i given
    have kept :
        ((s.heap.modify n fun d => { d with removed := false }).data n).removed = false := by
      rw [Heap.data_modify, if_pos rfl]
    obtain ⟨placed, same⟩ := revived.place ((quiet.inNodes_iff n).mpr live) kept fresh done
    refine ⟨placed, ?_⟩
    rw [if_neg given, same, quiet.nodehandle]
    exact congrArg (fun o => Outline.place o _ ph) outline

/-- A new node. -/
theorem Settled.construct (settled : s.Settled) {fuel : Nat} {r : Record}
    (unknown : s.heap.nodes r.h = none) (done : s.construct fuel r = some s') :
    s'.Settled ∧ s'.outline = (s.outline.prepare r).place r.h r.ph := by
  have live := Heap.inNodes_new s.heap r.h r.ph r.t
  have fresh : s.heap.next ∉ s.dp := by
    intro mem
    exact Nat.lt_irrefl _ (settled.consistent.allocated _ _ (settled.waiting _ mem))
  have created : Settled { s with heap := s.heap.create r.h r.ph r.t } := by
    refine ⟨settled.toSound.created unknown, ?_⟩
    intro n mem
    have old : n ≠ s.heap.next := by
      rintro rfl
      exact fresh mem
    simpa [Heap.create, old] using settled.settled n mem
  obtain ⟨placed, same⟩ := created.place live (by simp [Heap.create]) fresh done
  refine ⟨placed, ?_⟩
  rw [same, Heap.nodehandle_new, settled.outline_created unknown]

/-- `readnodes` on a record is the outline of it. -/
theorem Settled.record (settled : s.Settled) {fuel : Nat} {notify : Bool} {put : Option Put}
    {r : Record} (done : Reading.record fuel notify put s r = some s') :
    s'.Settled ∧ s'.outline = s.outline.record r := by
  rw [Reading.record] at done
  split at done
  · rename_i accepted
    split at done
    · rename_i n found
      have live := settled.consistent.inNodes found
      have handle : (s.heap.data n).nodehandle = r.h := settled.consistent.handles r.h n found
      have known : s.outline.known r.h = true := Option.isSome_iff_exists.mpr ⟨n, found⟩
      have removed : s.outline.removed r.h = (s.heap.data n).removed := by
        change (s.heap.nodes r.h).any _ = _
        rw [show s.heap.nodes r.h = some n from found, Option.any_some]
      obtain ⟨mid, revived, rfl⟩ := Option.map_eq_some_iff.mp done
      have middle : mid.Settled ∧ mid.outline = s.outline.record r ∧ mid.heap.InNodes n := by
        split at revived
        · rename_i marked
          obtain ⟨good, same⟩ := settled.resurrect live marked revived
          refine ⟨good, ?_, ((settled.toSound.resurrect live revived).2 n).mpr live⟩
          have present : Function.update s.outline.known r.h true = s.outline.known := by
            rw [← known, Function.update_eq_self]
          rw [same, handle, Outline.record, Outline.places, accepted, known, removed, marked,
            Outline.prepare, present]
          by_cases absent : r.ph = undef
          · simp [absent]
          · simp [absent]
        · rename_i unmarked
          obtain rfl := Option.some.inj revived
          refine ⟨settled, ?_, live⟩
          have clear : s.outline.removed r.h = false := by simpa [removed] using unmarked
          have unchanged : Function.update s.outline.removed r.h false = s.outline.removed := by
            rw [← clear, Function.update_eq_self]
          simp [Outline.record, Outline.places, accepted, known, clear, unchanged]
      obtain ⟨good, same, present⟩ := middle
      obtain ⟨final, unchanged⟩ := good.notify notify present
      exact ⟨final, unchanged.trans same⟩
    · rename_i missing
      obtain ⟨mid, constructed, rfl⟩ := Option.map_eq_some_iff.mp done
      have unknown : s.outline.known r.h = false := by
        change (s.heap.nodes r.h).isSome = false
        rw [show s.heap.nodes r.h = none from missing, Option.isSome_none]
      obtain ⟨good, same⟩ := settled.construct missing constructed
      have new := (settled.toSound.construct missing constructed).2
      have quiet := (quiet_associate mid put s.heap.next r.h).1
      obtain ⟨associated, still⟩ := good.associate put s.heap.next r.h
      obtain ⟨final, unchanged⟩ := associated.notify notify ((quiet.inNodes_iff _).mpr new)
      refine ⟨final, ?_⟩
      rw [unchanged, still, same, Outline.record, Outline.places, accepted, unknown]
      rfl
  · rename_i rejected
    obtain rfl := Option.some.inj done
    refine ⟨settled, ?_⟩
    simp [Outline.record, Outline.places, rejected]

theorem settled_start {h : Heap} (consistent : h.Consistent) (uploads : Uploads) :
    (start h uploads).Settled :=
  ⟨⟨consistent, fun _ mem => absurd mem List.not_mem_nil⟩, fun _ mem => absurd mem List.not_mem_nil⟩

theorem Settled.records (settled : s.Settled) {fuel : Nat} {notify : Bool} {put : Option Put}
    {rs : List Record} (done : rs.foldlM (Reading.record fuel notify put) s = some s') :
    s'.Settled ∧ s'.outline = rs.foldl Outline.record s.outline := by
  induction rs generalizing s with
  | nil =>
    obtain rfl := Option.some.inj done
    exact ⟨settled, rfl⟩
  | cons r rs ih =>
    rw [List.foldlM_cons] at done
    obtain ⟨mid, first, rest⟩ := Option.bind_eq_some_iff.mp done
    obtain ⟨good, same⟩ := settled.record first
    rw [List.foldl_cons, ← same]
    exact ih good rest

/-- `readnodes` on a child whose parent may have arrived. -/
theorem outline_deferred {fuel : Nat} {h h' : Heap} {n : Ref} (wired : h.Wired)
    (live : h.InNodes n) (done : deferred fuel h n = some h') (dp : List Ref) :
    h'.outline dp = (h.outline dp).deferred (h.waits n) := by
  rw [deferred] at done
  split at done
  · rename_i p found
    obtain ⟨⟨moved, mid⟩, linked, rfl⟩ := Option.map_eq_some_iff.mp done
    have known : (h.outline dp).known (h.waits n).2 = true :=
      Option.isSome_iff_exists.mpr ⟨p, found⟩
    have handle : (h.data p).nodehandle = (h.waits n).2 := wired.handles _ p found
    rw [Outline.deferred, if_pos known, ← handle]
    exact wired.outline_setparent live linked dp
  · rename_i missing
    obtain rfl := Option.some.inj done
    have unknown : ¬(h.outline dp).known (h.waits n).2 = true := by
      change ¬(h.nodes _).isSome = true
      rw [show h.nodes (h.waits n).2 = none from missing]
      exact Bool.false_ne_true
    rw [Outline.deferred, if_neg unknown]

theorem waits_deferred {fuel : Nat} {h h' : Heap} {n : Ref} (done : deferred fuel h n = some h') :
    h'.waits = h.waits ∧ h'.next = h.next := by
  rw [deferred] at done
  split at done
  · obtain ⟨⟨moved, mid⟩, linked, rfl⟩ := Option.map_eq_some_iff.mp done
    obtain ⟨links, alike⟩ := Heap.setparent_alike linked
    refine ⟨?_, alike.next⟩
    funext m
    rw [Heap.waits, Heap.waits, alike.nodehandle, alike.parenthandle]
  · obtain rfl := Option.some.inj done
    exact ⟨rfl, rfl⟩

/-- A pass over children; what they wait for does not change. -/
theorem outline_deferrals {fuel : Nat} {h h' : Heap} {ns : List Ref} (consistent : h.Consistent)
    (live : ∀ n ∈ ns, h.InNodes n) (done : ns.foldlM (deferred fuel) h = some h') (dp : List Ref) :
    h'.outline dp = (ns.map h.waits).foldl Outline.deferred (h.outline dp) := by
  induction ns generalizing h with
  | nil =>
    obtain rfl := Option.some.inj done
    rfl
  | cons n ns ih =>
    rw [List.foldlM_cons] at done
    obtain ⟨mid, first, rest⟩ := Option.bind_eq_some_iff.mp done
    have here := live n List.mem_cons_self
    obtain ⟨good, same⟩ := deferred_consistent consistent here first
    have step := outline_deferred consistent.toWired here first dp
    rw [List.map_cons, List.foldl_cons, ← step, ← (waits_deferred first).1]
    exact ih good (fun m mem => (same m).mpr (live m (List.mem_cons_of_mem n mem))) rest

end Reading

/-- The tree that `readnodes` leaves, by handles. -/
theorem outline_readnodes {h : Heap} (consistent : h.Consistent) {fuel : Nat} {notify : Bool}
    {put : Option Put} {rs : List Record} {uploads : Uploads} {s : Reading}
    (done : readnodes fuel notify put rs h uploads = some s) :
    s.outline = (h.outline []).readnodes rs := by
  rw [readnodes] at done
  split at done
  · cases done
  · rename_i mid loop
    obtain ⟨settled, same⟩ := (Reading.settled_start consistent uploads).records loop
    obtain ⟨h', linked, rfl⟩ := Option.map_eq_some_iff.mp done
    have live : ∀ n ∈ mid.dp.reverse, mid.heap.InNodes n :=
      fun n mem => settled.waiting n (List.mem_reverse.mp mem)
    have pass := Reading.outline_deferrals settled.consistent live linked mid.dp
    rw [Outline.readnodes]
    change h'.outline mid.dp = _
    have read : rs.foldl Outline.record (h.outline []) = mid.outline := same.symm
    rw [pass, read, List.map_reverse]
    rfl

end MegaSdk.Tree
