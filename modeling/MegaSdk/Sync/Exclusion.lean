import Mathlib.Logic.Relation
import MegaSdk.Sync.NameClash
import MegaSdk.Sync.Passes

/-!
# One direction for each file

A file name that exists on both sides of a synced folder: `syncdown` may fetch the remote file and
`syncup` may send the local one. The two have different tables and different comparisons, and
`syncdown` moves files that were moved on the remote side; apart from these moves they never do
both.
-/

namespace MegaSdk.Sync

open Champions

/-- Files stay, and nothing else is fetched. -/
structure FetchesNone (s s' : Sides) : Prop extends KeepsFiles s s' where
  gets : s'.gets ⊆ s.gets

theorem Relocates.silent {s s' : Sides} (moves : Relocates s s') : FetchesNone s s' :=
  ⟨moves.toKeepsFiles, moves.gets⟩

theorem FetchesNone.refl (s : Sides) : FetchesNone s s := (Relocates.refl s).silent

theorem FetchesNone.trans {s s' s'' : Sides} (first : FetchesNone s s')
    (second : FetchesNone s' s'') : FetchesNone s s'' :=
  ⟨first.toKeepsFiles.trans second.toKeepsFiles, List.Subset.trans second.gets first.gets⟩

theorem silent_heap (s : Sides) {h : Heap} (alike : Heap.Alike s.heap h) (asked : Nat) :
    FetchesNone s { s with heap := h, asked := asked } :=
  ⟨keeps_heap s alike asked, List.Subset.refl _⟩

def TableWithin (table' table : ChildTable) : Prop :=
  ∀ key c, table' key = some c → table key = some c

theorem TableWithin.erase {table' table : ChildTable} (within : TableWithin table' table)
    (name : Bytes) : TableWithin (Function.update table' name none) table := by
  intro key c found
  rw [Function.update_apply] at found
  split at found
  · cases found
  · exact within key c found

section Loops
variable (env : Surroundings) (rubbish : Bool) (recurse : LocalRef → Sides → Sides × Bool)
variable (l : LocalRef)

theorem silent_removeDeleted (pass : Pass) (k : LocalRef) (file : Bool) :
    FetchesNone pass.sides (removeDeleted env pass k file).sides ∧
      (removeDeleted env pass k file).nchildren = pass.nchildren := by
  unfold removeDeleted
  dsimp only
  split
  · exact ⟨silent_heap _ (Heap.alike_setDeleted _ k false) _, rfl⟩
  · split
    · exact ⟨(moves_ask _).silent, rfl⟩
    · exact ⟨((moves_ask _).trans (moves_destroy _ env.levels k)).silent, rfl⟩

/-- An item of two folders or two other things of one type has the remote item as its node. -/
theorem nodeOf_syncdownItem {h : Heap} {k : LocalRef} {r : NodeRef} {ll : LocalNode} {n : Node}
    (at_k : h.locals k = some ll) (at_r : h.nodes r = some n) (types : n.data.type = ll.data.type)
    (folder : ll.data.type ≠ fileNode) : (h.syncdownItem k r).nodeOf k = some r := by
  have keeps : h.drops k r = false := by simp [Heap.drops, at_k, at_r, folder]
  rw [Heap.syncdownItem, keeps]
  simp only [Bool.false_eq_true, if_false]
  by_cases same : ll.node = some r
  · have other : h.associates k r = false := by simp [Heap.associates, at_k, at_r, folder, same]
    rw [other]
    simp [Heap.nodeOf, at_k, same]
  · have associates : h.associates k r = true := by
      simp [Heap.associates, at_k, at_r, folder, same, types]
    rw [associates, if_pos rfl, (h.setnode_pointers (by simp [at_k]) (by simp [at_r])).1]
    exact Function.update_self _ _ _

/-- A call for a folder that `table` has. -/
def EntersFolder (table : ChildTable) (recurse : LocalRef → Sides → Sides × Bool)
    (s s' : Sides) : Prop :=
  ∃ item k key c, FetchesNone s item ∧ s' = (recurse k item).1 ∧ table key = some c ∧
    (∀ q, item.heap.nodeOf k = some q → q = c.id) ∧
    ∃ n, s.heap.nodes c.id = some n ∧ n.data.type ≠ fileNode

/-- What a round of the first loop can do. -/
theorem visitChild_cases (pass : Pass) (e : Bytes × LocalRef) :
    TableWithin (visitChild env rubbish recurse l pass e).nchildren pass.nchildren ∧
      (FetchesNone pass.sides (visitChild env rubbish recurse l pass e).sides ∨
        EntersFolder pass.nchildren recurse pass.sides
          (visitChild env rubbish recurse l pass e).sides) := by
  have all : TableWithin pass.nchildren pass.nchildren := fun _ _ => id
  unfold visitChild
  dsimp only
  split
  · exact ⟨all, .inl (.refl _)⟩
  rename_i ll at_k
  split
  · exact ⟨all, .inl (.refl _)⟩
  split
  · split
    · obtain ⟨silent, table⟩ := silent_removeDeleted env pass e.2
        (decide (ll.data.type = fileNode))
      rw [table]
      exact ⟨all, .inl silent⟩
    · exact ⟨all, .inl (.refl _)⟩
  rename_i r found
  split
  · exact ⟨all.erase _, .inl (.refl _)⟩
  rename_i types
  have silent : FetchesNone pass.sides
      { pass.sides with heap := pass.sides.heap.syncdownItem e.2 r.id } :=
    silent_heap pass.sides (Heap.alike_syncdownItem _ e.2 r.id) _
  split
  · refine ⟨?_, .inl silent⟩
    dsimp only
    split
    · exact all
    · exact all.erase _
  · rename_i folder
    refine ⟨all.erase _, .inr ⟨_, e.2, _, r, silent, rfl, found, fun q points => ?_, ?_⟩⟩
    · cases at_r : pass.sides.heap.nodes r.id with
      | none => simp [at_r] at types
      | some n =>
        have types : n.data.type = ll.data.type := by simpa [at_r] using types
        rw [nodeOf_syncdownItem at_k at_r types folder] at points
        exact (Option.some.inj points).symm
    · cases at_r : pass.sides.heap.nodes r.id with
      | none => simp [at_r] at types
      | some n =>
        have types : n.data.type = ll.data.type := by simpa [at_r] using types
        exact ⟨n, rfl, types ▸ folder⟩

/-- `setnode` leaves no other node behind. -/
theorem eq_of_setnode {h : Heap} {k : LocalRef} {r q : NodeRef}
    (points : (h.setnode k (some r)).nodeOf k = some q) : q = r := by
  rw [Heap.setnode, Heap.nodeOf_setLocalnode, Heap.nodeOf_modifyLocal,
    Function.update_self] at points
  cases at_k : (h.release k (some r)).locals k with
  | none => simp [at_k] at points
  | some ll => simpa [at_k, eq_comm] using points

theorem enters_enterFolder {nchildren : ChildTable} {key : Bytes} {c : RemoteChild} {n : Node}
    {s s' : Sides} (found : nchildren key = some c) (at_c : s.heap.nodes c.id = some n)
    (folder : n.data.type ≠ fileNode) (before : FetchesNone s s') (k : LocalRef)
    (localname : Bytes) :
    EntersFolder nchildren recurse s (enterFolder env recurse l k c.id localname s').1 := by
  have moves := moves_setnameparent env
    { s' with heap := s'.heap.setnode k (some c.id) } k l localname
  refine ⟨_, k, key, c, (before.trans (silent_heap s' (Heap.alike_setnode _ k _) _)).trans
    moves.silent, rfl, found, fun q points => ?_, n, at_c, folder⟩
  exact eq_of_setnode (moves.associated k q points)

/-- A round of the second loop fetches a file of the table, enters a folder of it, or neither. -/
theorem fetchMissing_cases (nchildren : ChildTable) (s : Sides) (key : Bytes) :
    FetchesNone s (fetchMissing env recurse l nchildren s key).1 ∨
      (∃ c, nchildren key = some c ∧ (s.heap.nodes c.id).isSome ∧
        (fetchMissing env recurse l nchildren s key).1 =
          { s with heap := s.heap.setSyncget c.id, gets := s.gets ++ [c.id] }) ∨
      EntersFolder nchildren recurse s (fetchMissing env recurse l nchildren s key).1 := by
  have asked : FetchesNone s s.ask := (moves_ask s).silent
  have asked' : FetchesNone s s.ask.ask := asked.trans (moves_ask _).silent
  unfold fetchMissing
  split
  · exact .inl (.refl s)
  rename_i c found
  split
  · rename_i n name at_c _
    split
    · exact .inl (.refl s)
    split
    · split
      · exact .inl (.refl s)
      · split
        · exact .inl (asked.trans (moves_setnameparent env _ _ l _).silent)
        · exact .inl asked
        · exact .inl asked
    · split
      · split
        · exact .inl (.refl s)
        · exact .inr (.inl ⟨c, found, Option.isSome_of_mem at_c, rfl⟩)
      · rename_i folder
        split
        · unfold addFolder
          split
          · exact .inl asked'
          · split
            · exact .inr (.inr (enters_enterFolder env recurse l found at_c folder asked' _ _))
            · exact .inl asked'
          · split
            · exact .inl (asked'.trans (moves_setnameparent env _ _ l _).silent)
            · exact .inl asked'
          · rename_i k _
            split
            · exact .inl asked'
            · rename_i fresh
              refine .inr (.inr (enters_enterFolder env recurse l found at_c folder ?_ _ _))
              have fresh : s.ask.ask.heap.locals k = none := by
                simpa [Sides.ask] using fresh
              exact (asked'.trans (moves_newFolder _ fresh).silent).trans
                (moves_setnameparent env _ _ l _).silent
        · exact .inl asked
        · exact .inl asked
  · exact .inl (.refl s)

/-- The file of a new transfer is marked. -/
theorem keeps_fetch {s : Sides} {r : NodeRef} (there : (s.heap.nodes r).isSome) :
    KeepsFiles s { s with heap := s.heap.setSyncget r, gets := s.gets ++ [r] } := by
  refine ⟨fun n => s.heap.map_modifyNode _ (fun _ => by rfl) r n, fun _ _ => rfl,
    List.Subset.refl _, List.Subset.refl _, fun _ _ => rfl, fun _ _ _ _ => Iff.rfl,
    fun _ _ _ => Iff.rfl, fun marked n mem => ?_⟩
  obtain ⟨node, at_r⟩ := Option.isSome_iff_exists.mp there
  by_cases same : n = r
  · subst same
    simp [Heap.fetching, Heap.setSyncget, Heap.modifyNode, at_r]
  · have before : n ∈ s.gets := by simpa [same] using mem
    have before := marked n before
    simpa [Heap.fetching, Heap.setSyncget, Heap.modifyNode, same] using before

variable {recurse}

theorem keeps_foldl {β ε : Type} (sides : β → Sides) {round : β → ε → β}
    (step : ∀ b e, KeepsFiles (sides b) (sides (round b e))) (es : List ε) (b : β) :
    KeepsFiles (sides b) (sides (es.foldl round b)) := by
  induction es generalizing b with
  | nil => exact .refl _
  | cons e es ih => exact (step b e).trans (ih _)

theorem keeps_of_enters (below : ∀ k s, KeepsFiles s (recurse k s).1) {table : ChildTable}
    {s s' : Sides} (enters : EntersFolder table recurse s s') : KeepsFiles s s' := by
  obtain ⟨item, k, _, _, silent, rfl, -⟩ := enters
  exact silent.toKeepsFiles.trans (below k item)

theorem keeps_visitChild (below : ∀ k s, KeepsFiles s (recurse k s).1) (pass : Pass)
    (e : Bytes × LocalRef) :
    KeepsFiles pass.sides (visitChild env rubbish recurse l pass e).sides := by
  rcases (visitChild_cases env rubbish recurse l pass e).2 with silent | enters
  · exact silent.toKeepsFiles
  · exact keeps_of_enters below enters

theorem keeps_fetchMissing (below : ∀ k s, KeepsFiles s (recurse k s).1) (nchildren : ChildTable)
    (s : Sides) (key : Bytes) : KeepsFiles s (fetchMissing env recurse l nchildren s key).1 := by
  rcases fetchMissing_cases env recurse l nchildren s key with
    silent | ⟨c, -, there, fetched⟩ | enters
  · exact silent.toKeepsFiles
  · rw [fetched]
    exact keeps_fetch there
  · exact keeps_of_enters below enters

theorem keeps_firstLoop (below : ∀ k s, KeepsFiles s (recurse k s).1) (s : Sides) :
    KeepsFiles s (firstLoop env rubbish recurse l s).sides :=
  keeps_foldl Pass.sides (keeps_visitChild env rubbish l below) (s.children l) (childHash env l s)

theorem keeps_secondLoop (below : ∀ k s, KeepsFiles s (recurse k s).1) (entries : List RemoteEntry)
    (first : Pass) : KeepsFiles first.sides (secondLoop env recurse l entries first).1 := by
  have round : ∀ done key,
      KeepsFiles done.1 (fetchRound env recurse l first.nchildren done key).1 :=
    fun done key => keeps_fetchMissing env l below _ done.1 key
  exact keeps_foldl Prod.fst round _ (first.sides, first.success)

/-- Whatever the recursion does, files stay as they were. -/
theorem keeps_syncdownFrom (levels : Nat) (l : LocalRef) (s : Sides) :
    KeepsFiles s (syncdownFrom env rubbish levels l s).1 := by
  induction levels generalizing l s with
  | zero => exact .refl s
  | succ levels ih =>
    rw [syncdownFrom]
    split
    · exact (keeps_firstLoop env rubbish l ih s).trans (keeps_secondLoop env l ih _ _)
    · exact .refl s

end Loops

section Unfetched
variable {above : NodeRef → Prop} {r : NodeRef}

/-- The nodes that are looked at have their parents among them. -/
def Tidy (above : NodeRef → Prop) (s : Sides) : Prop :=
  ∀ a q, above a → a ∈ s.remote q → above q

def Unmoved (above : NodeRef → Prop) (s : Sides) : Prop := ∀ a, above a → a ∉ s.movedNodes

/-- Unless they are moved, nothing fetches `r`. -/
structure Unfetched (above : NodeRef → Prop) (r : NodeRef) (s s' : Sides) : Prop
    extends KeepsFiles s s' where
  gets : Tidy above s → Unmoved above s' → r ∈ s'.gets → r ∈ s.gets

theorem FetchesNone.quiet {s s' : Sides} (silent : FetchesNone s s') : Unfetched above r s s' :=
  ⟨silent.toKeepsFiles, fun _ _ mem => silent.gets mem⟩

theorem Unmoved.before {s s' : Sides} (unmoved : Unmoved above s') (keeps : KeepsFiles s s') :
    Unmoved above s :=
  fun a mem moved => unmoved a mem (keeps.nodes moved)

theorem Tidy.keeps {s s' : Sides} (tidy : Tidy above s) (keeps : KeepsFiles s s')
    (unmoved : Unmoved above s') : Tidy above s' :=
  fun a q mem child => tidy a q mem ((keeps.remote a (unmoved a mem) q).mp child)

theorem Unfetched.trans {s s' s'' : Sides} (first : Unfetched above r s s')
    (second : Unfetched above r s' s'') : Unfetched above r s s'' := by
  refine ⟨first.toKeepsFiles.trans second.toKeepsFiles, fun tidy unmoved mem => ?_⟩
  have between := unmoved.before second.toKeepsFiles
  exact first.gets tidy between (second.gets (tidy.keeps first.toKeepsFiles between) unmoved mem)

def FilesAmong (above : NodeRef → Prop) (s : Sides) (table : ChildTable) : Prop :=
  ∀ key c, table key = some c → above c.id → ∀ n, s.heap.nodes c.id = some n →
    n.data.type = fileNode

theorem FilesAmong.keeps {s s' : Sides} {table table' : ChildTable}
    (files : FilesAmong above s table) (keeps : KeepsFiles s s')
    (within : TableWithin table' table) : FilesAmong above s' table' := by
  intro key c found mem n at_c
  have view := keeps.types c.id
  rw [Heap.fileView, at_c, Option.map_some] at view
  obtain ⟨old, at_old, same⟩ := Option.map_eq_some_iff.mp view.symm
  rw [← (Prod.mk.inj same).1]
  exact files key c (within key c found) mem old at_old

variable (env : Surroundings) (rubbish : Bool) {recurse : LocalRef → Sides → Sides × Bool}
variable (l : LocalRef)

theorem quiet_of_enters
    (below : ∀ k s, (∀ q, s.heap.nodeOf k = some q → ¬above q) →
      Unfetched above r s (recurse k s).1)
    {table : ChildTable} {s s' : Sides} (files : FilesAmong above s table)
    (enters : EntersFolder table recurse s s') : Unfetched above r s s' := by
  obtain ⟨item, k, key, c, silent, rfl, found, only, n, at_c, folder⟩ := enters
  refine silent.quiet.trans (below k item fun q points mem => ?_)
  rw [only q points] at mem
  exact folder (files key c found mem n at_c)

theorem quiet_firstLoop
    (below : ∀ k s, (∀ q, s.heap.nodeOf k = some q → ¬above q) →
      Unfetched above r s (recurse k s).1)
    (es : List (Bytes × LocalRef)) (pass : Pass)
    (files : FilesAmong above pass.sides pass.nchildren) :
    Unfetched above r pass.sides (es.foldl (visitChild env rubbish recurse l) pass).sides ∧
      TableWithin (es.foldl (visitChild env rubbish recurse l) pass).nchildren pass.nchildren := by
  induction es generalizing pass with
  | nil => exact ⟨(FetchesNone.refl _).quiet, fun _ _ => id⟩
  | cons e es ih =>
    obtain ⟨within, does⟩ := visitChild_cases env rubbish recurse l pass e
    have quiet : Unfetched above r pass.sides (visitChild env rubbish recurse l pass e).sides := by
      rcases does with silent | enters
      · exact silent.quiet
      · exact quiet_of_enters below files enters
    obtain ⟨rest, less⟩ := ih _ (files.keeps quiet.toKeepsFiles within)
    exact ⟨quiet.trans rest, fun key c found => within key c (less key c found)⟩

theorem quiet_secondLoop
    (below : ∀ k s, (∀ q, s.heap.nodeOf k = some q → ¬above q) →
      Unfetched above r s (recurse k s).1)
    {table : ChildTable} (others : ∀ key c, table key = some c → c.id ≠ r) (keys : List Bytes)
    (done : Sides × Bool) (files : FilesAmong above done.1 table) :
    Unfetched above r done.1 (keys.foldl (fetchRound env recurse l table) done).1 := by
  induction keys generalizing done with
  | nil => exact (FetchesNone.refl _).quiet
  | cons key keys ih =>
    have quiet : Unfetched above r done.1 (fetchMissing env recurse l table done.1 key).1 := by
      rcases fetchMissing_cases env recurse l table done.1 key with
        silent | ⟨c, found, there, fetched⟩ | enters
      · exact silent.quiet
      · rw [fetched]
        refine ⟨keeps_fetch there, fun _ _ mem => ?_⟩
        rcases List.mem_append.mp mem with before | new
        · exact before
        · exact absurd (List.mem_singleton.mp new).symm (others key c found)
      · exact quiet_of_enters below files enters
    exact quiet.trans (ih (fetchRound env recurse l table done key)
      (files.keeps quiet.toKeepsFiles fun _ _ => id))

variable {env l} in
/-- The items of the table of `syncdown` are remote children, under their names. -/
theorem mem_childHash {s : Sides} {key : Bytes} {c : RemoteChild}
    (found : (childHash env l s).nchildren key = some c) :
    ∃ q name, s.heap.nodeOf l = some q ∧ c.id ∈ s.remote q ∧ s.attrName c.id = some name ∧
      childKey name = key := by
  simp only [childHash, Heap.downTable, Heap.foldl_enlist] at found
  have champion := champion_childTable ((s.entries env l).filterMap (s.heap.accepted
    fun e name => e.syncable && (!(s.parentOf l).isNone || decide (env.debris ≠ name)))) key
  rw [found] at champion
  obtain ⟨child, mem, named, rfl⟩ := mem_filed.mp champion.1
  obtain ⟨e, listed, accepted⟩ := List.mem_filterMap.mp mem
  rw [Sides.entries] at listed
  cases at_l : s.heap.nodeOf l with
  | none => simp [at_l] at listed
  | some q =>
    rw [at_l, Option.elim_some] at listed
    obtain ⟨n, inside, rfl⟩ := List.mem_map.mp listed
    rw [Heap.accepted] at accepted
    split at accepted
    · split at accepted
      · rename_i name node has_name at_n take
        cases accepted
        exact ⟨q, name, rfl, inside, has_name, named⟩
      · cases accepted
    · cases accepted

/-- Below a folder that is not looked at, `r` is not fetched. -/
theorem quiet_syncdownFrom (looked : above r) (levels : Nat) (l : LocalRef) (s : Sides)
    (outside : ∀ q, s.heap.nodeOf l = some q → ¬above q) :
    Unfetched above r s (syncdownFrom env rubbish levels l s).1 := by
  refine ⟨keeps_syncdownFrom env rubbish levels l s, ?_⟩
  induction levels generalizing l s with
  | zero => exact fun _ _ => id
  | succ levels ih =>
    intro tidy
    rw [syncdownFrom]
    split
    · have below : ∀ k s, (∀ q, s.heap.nodeOf k = some q → ¬above q) →
          Unfetched above r s (syncdownFrom env rubbish levels k s).1 :=
        fun k s outside => ⟨keeps_syncdownFrom env rubbish levels k s, ih k s outside⟩
      have apart : ∀ key c, (childHash env l s).nchildren key = some c → ¬above c.id := by
        intro key c found mem
        obtain ⟨q, name, at_l, child, -⟩ := mem_childHash found
        exact outside q at_l (tidy c.id q mem child)
      have files : FilesAmong above s (childHash env l s).nchildren :=
        fun key c found mem => absurd mem (apart key c found)
      obtain ⟨first, within⟩ := quiet_firstLoop env rubbish l below (s.children l)
        (childHash env l s) files
      have second := quiet_secondLoop env l below
        (fun key c found same => apart key c (within key c found) (same ▸ looked))
        (tableKeys (s.entries env l))
        (_, (firstLoop env rubbish (syncdownFrom env rubbish levels) l s).success)
        (files.keeps first.toKeepsFiles within)
      exact (first.trans second).gets tidy
    · exact fun _ => id

end Unfetched

namespace Sides

/-- `LocalNode::parent`, as the children have it. -/
def InFolder (s : Sides) (k p : LocalRef) : Prop := ∃ x, (x, k) ∈ s.children p

def InNode (s : Sides) (n q : NodeRef) : Prop := n ∈ s.remote q

end Sides

/-- A file in a synced folder and a remote file of its name in the remote folder. Each of them is in
one folder, which is not inside itself, and the remote file is not being fetched. -/
structure Counterparts (s : Sides) (l ll : LocalRef) (r : NodeRef) (f : LocalNode) (n : Node) :
    Prop where
  file : s.heap.locals ll = some f ∧ f.data.type = fileNode
  remoteFile : s.heap.nodes r = some n ∧ n.data.type = fileNode
  name : (s.attrName r).map childKey = some (s.name ll)
  child : ∀ k x, (x, ll) ∈ s.children k ↔ k = l ∧ x = s.localname ll
  remoteChild : ∀ q, s.InNode r q ↔ s.heap.nodeOf l = some q
  outside : ∀ k, Relation.ReflTransGen s.InFolder l k → ¬s.InFolder k l
  remoteOutside : ∀ q a, s.heap.nodeOf l = some q → Relation.ReflTransGen s.InNode q a →
    ¬s.InNode a q
  marked : s.Marked
  idle : r ∉ s.gets

/-- Neither the two files nor folders that they are in have been moved. -/
structure StayPut (s s' : Sides) (ll : LocalRef) (r : NodeRef) : Prop where
  locals : ∀ k, Relation.ReflTransGen s.InFolder ll k → k ∉ s'.movedLocals
  nodes : ∀ a, Relation.ReflTransGen s.InNode r a → a ∉ s'.movedNodes

section Pair
variable {env : Surroundings} {rubbish : Bool} {s s' : Sides} {l ll : LocalRef} {r : NodeRef}
variable {f : LocalNode} {n : Node}

theorem Counterparts.files (pair : Counterparts s l ll r f n) :
    FilesAmong (Relation.ReflTransGen s.InNode r) s (childHash env l s).nchildren := by
  intro key c found above m at_c
  obtain ⟨q, name, at_l, inside, -⟩ := mem_childHash found
  rcases above.cases_head with same | ⟨p, parent, above⟩
  · rw [← same, pair.remoteFile.1] at at_c
    rw [← Option.some.inj at_c]
    exact pair.remoteFile.2
  · obtain rfl : q = p := Option.some.inj (at_l.symm.trans ((pair.remoteChild p).mp parent))
    exact absurd inside (pair.remoteOutside q c.id at_l above)

/-- The item of the file is compared with the remote one, unless it is gone. -/
theorem Counterparts.local_after (pair : Counterparts s l ll r f n) (keeps : KeepsFiles s s')
    (still : ll ∉ s'.movedLocals) :
    ∃ f', s'.heap.locals ll = some f' ∧ f'.data.type = fileNode ∧ f'.data.file = f.data.file := by
  have view := keeps.files ll still
  rw [Heap.localView, Heap.localView, pair.file.1, Option.map_some] at view
  obtain ⟨f', at_ll, same⟩ := Option.map_eq_some_iff.mp view
  exact ⟨f', at_ll, (Prod.mk.inj same).1.trans pair.file.2, (Prod.mk.inj same).2⟩

theorem Counterparts.node_after (pair : Counterparts s l ll r f n) (keeps : KeepsFiles s s') :
    ∃ n', s'.heap.nodes r = some n' ∧ n'.data.type = fileNode ∧ n'.data.file = n.data.file := by
  have view := keeps.types r
  rw [Heap.fileView, Heap.fileView, pair.remoteFile.1, Option.map_some] at view
  obtain ⟨n', at_r, same⟩ := Option.map_eq_some_iff.mp view
  exact ⟨n', at_r, (Prod.mk.inj same).1.trans pair.remoteFile.2, (Prod.mk.inj same).2⟩

/-- Where the local file is newer or the same, the first loop takes the remote one off. -/
theorem Counterparts.compares (pair : Counterparts s l ll r f n)
    (settled : f.data.file.mtime > n.data.file.mtime ∨ f.data.file.same n.data.file = true)
    (recurse : LocalRef → Sides → Sides × Bool) {pass : Pass} (keeps : KeepsFiles s pass.sides)
    (still : ll ∉ pass.sides.movedLocals) (c : RemoteChild)
    (found : (visitChild env rubbish recurse l pass (s.localname ll, ll)).nchildren (s.name ll) =
      some c) : c.id ≠ r := by
  rintro rfl
  have name : pass.sides.name ll = s.name ll := congrArg local2name (keeps.named ll still)
  have here : (s.localname ll, ll) ∈ pass.sides.children l :=
    (keeps.placed ll still l _).mpr ((pair.child l _).mpr ⟨rfl, rfl⟩)
  obtain ⟨f', at_ll, file, same⟩ := pair.local_after keeps still
  obtain ⟨n', at_c, remoteFile, remoteSame⟩ := pair.node_after keeps
  have within := (visitChild_cases env rubbish recurse l pass (s.localname ll, ll)).1
  have before := within _ c found
  have drops : pass.sides.heap.drops ll c.id = false := by
    rw [Heap.drops_eq at_ll at_c file remoteFile, same, remoteSame]
    rcases settled with newer | equal
    · simp [newer]
    · simp [equal]
  have erased : (visitChild env rubbish recurse l pass (s.localname ll, ll)).nchildren (s.name ll) =
      none := by
    unfold visitChild
    dsimp only
    rw [at_ll]
    simp only [here, not_true_eq_false, if_false, name, before, at_c, Option.all_some, remoteFile,
      file, ne_eq, decide_false, Bool.false_eq_true, if_true, drops, Function.update_self]
  rw [erased] at found
  cases found

/-- A file that is newer or the same on this side is not fetched. -/
theorem Counterparts.not_fetched (pair : Counterparts s l ll r f n)
    (settled : f.data.file.mtime > n.data.file.mtime ∨ f.data.file.same n.data.file = true)
    (stays : StayPut s (syncdown env rubbish l s).1 ll r) :
    r ∉ (syncdown env rubbish l s).1.gets := by
  rw [syncdown] at stays ⊢
  generalize env.levels = levels at stays ⊢
  cases levels with
  | zero => exact pair.idle
  | succ levels =>
    rw [syncdownFrom] at stays ⊢
    split at stays
    · rename_i link
      rw [if_pos link]
      have below : ∀ k s', (∀ q, s'.heap.nodeOf k = some q → ¬Relation.ReflTransGen s.InNode r q) →
          Unfetched (Relation.ReflTransGen s.InNode r) r s'
            (syncdownFrom env rubbish levels k s').1 :=
        fun k s' outside => quiet_syncdownFrom env rubbish .refl levels k s' outside
      -- the first loop up to the file, the file, and the others
      obtain ⟨before, after, split⟩ :=
        List.append_of_mem ((pair.child l _).mpr ⟨rfl, rfl⟩)
      obtain ⟨quiet, within⟩ := quiet_firstLoop env rubbish l below before (childHash env l s)
        pair.files
      generalize reached : before.foldl (visitChild env rubbish (syncdownFrom env rubbish levels) l)
        (childHash env l s) = pass at quiet within
      have files := pair.files.keeps quiet.toKeepsFiles within
      obtain ⟨here, less⟩ := quiet_firstLoop env rubbish l below [(s.localname ll, ll)] pass files
      obtain ⟨others, fewer⟩ := quiet_firstLoop env rubbish l below after
        (visitChild env rubbish (syncdownFrom env rubbish levels) l pass (s.localname ll, ll))
        (files.keeps here.toKeepsFiles less)
      have looped : firstLoop env rubbish (syncdownFrom env rubbish levels) l s =
          after.foldl (visitChild env rubbish (syncdownFrom env rubbish levels) l)
            (visitChild env rubbish (syncdownFrom env rubbish levels) l pass
              (s.localname ll, ll)) := by
        rw [firstLoop, split, List.foldl_append, reached, List.foldl_cons]
      have last := keeps_secondLoop env l (keeps_syncdownFrom env rubbish levels) (s.entries env l)
        (firstLoop env rubbish (syncdownFrom env rubbish levels) l s)
      have still : ll ∉ pass.sides.movedLocals := by
        intro moved
        have later := others.locals (here.locals moved)
        rw [← looped] at later
        exact stays.locals ll .refl (last.locals later)
      have gone : ∀ key c,
          (firstLoop env rubbish (syncdownFrom env rubbish levels) l s).nchildren key =
          some c → c.id ≠ r := by
        intro key c found same
        rw [looped] at found
        have found := fewer key c found
        obtain ⟨_, name, -, -, named, rfl⟩ := mem_childHash (within _ c (less _ c found))
        have key := pair.name
        rw [← same, named, Option.map_some] at key
        rw [Option.some.inj key] at found
        exact pair.compares settled _ quiet.toKeepsFiles still c found same
      rw [← looped] at others fewer
      have rest := quiet_secondLoop env l below gone (tableKeys (s.entries env l))
        (_, (firstLoop env rubbish (syncdownFrom env rubbish levels) l s).success)
        ((files.keeps here.toKeepsFiles less).keeps others.toKeepsFiles fewer)
      exact fun fetched => pair.idle ((((quiet.trans here).trans others).trans rest).gets
        (fun a q above child => above.tail child) stays.nodes fetched)
    · rename_i link
      rw [if_neg link]
      exact pair.idle

end Pair

/-- A relation holds of the children of `p` and, below, of every item and its children. -/
def Children.Placed (P : LocalItem → LocalItem → Prop) (p : LocalItem) : Children → Prop
  | .nil => True
  | .cons l below next => P p l ∧ below.Placed P l ∧ next.Placed P p

namespace Heap

theorem alike_syncupChild (h : Heap) (table : ChildTable) (ll : LocalEntry) :
    Alike h (h.syncupChild table ll).1 := by
  rcases h.syncupChild_heap table ll with same | ⟨n, -, set⟩
  · rw [same]
    exact .refl h
  · rw [set]
    exact h.alike_setnode ll.ref (some n)

/-- An element of `synccreate` is a child of the folder itself, which its table lets pass, or of a
folder below. -/
theorem created_cases (remote : Remote) {P : LocalItem → LocalItem → Prop} (children : Children)
    (p : LocalItem) (table : ChildTable) (h : Heap) (placed : children.Placed P p) :
    Alike h (syncupFrom remote p table children h).1 ∧
      ∀ k ∈ (syncupFrom remote p table children h).2, P k.parent k.l ∧
        ((k.parent = p ∧ ∃ h', Alike h h' ∧ (h'.syncupChild table k.l.entry).2 = true) ∨
          k.parent.ref ∈ children.refs) := by
  induction children generalizing p table h with
  | nil => exact ⟨.refl h, fun k mem => absurd mem List.not_mem_nil⟩
  | cons l below next inBelow inNext =>
    obtain ⟨here, deeper, rest⟩ := placed
    have child := alike_syncupChild h table l.entry
    obtain ⟨inner, enters, parts⟩ := syncupFrom_cons remote p table l below next h
    have middle : Alike h inner.1 ∧ ∀ k ∈ inner.2, P k.parent k.l ∧
        (k.parent.ref = l.ref ∨ k.parent.ref ∈ below.refs) := by
      rcases enters with ⟨-, rfl⟩ | ⟨-, rfl⟩
      · exact ⟨child, fun k mem => absurd mem List.not_mem_nil⟩
      · obtain ⟨alike, created⟩ := inBelow l
          ((h.syncupChild table l.entry).1.remoteTable remote l.ref) (h.syncupChild table l.entry).1
          deeper
        refine ⟨child.trans alike, fun k mem => ?_⟩
        obtain ⟨related, place⟩ := created k mem
        exact ⟨related, place.imp (fun own => congrArg LocalItem.ref own.1) id⟩
    obtain ⟨alike, created⟩ := inNext p table inner.1 rest
    rw [parts]
    refine ⟨middle.1.trans alike, fun k mem => ?_⟩
    rcases List.mem_append.mp mem with mem | later
    · rcases List.mem_append.mp mem with own | inside
      · split at own
        · rename_i sends
          obtain rfl := List.mem_singleton.mp own
          exact ⟨here, .inl ⟨rfl, h, .refl h, sends⟩⟩
        · cases own
      · obtain ⟨related, place⟩ := middle.2 k inside
        refine ⟨related, .inr ?_⟩
        rcases place with same | deep
        · simp [Children.refs, same]
        · simp [Children.refs, deep]
    · obtain ⟨related, place⟩ := created k later
      refine ⟨related, place.imp (fun own => ?_) fun deep => ?_⟩
      · obtain ⟨same, h', before, sends⟩ := own
        exact ⟨same, h', middle.1.trans before, sends⟩
      · simp [Children.refs, deep]

/-- What `syncup` has seen of a file that it sends although there is a remote one. -/
theorem syncupChild_sends {h : Heap} {table : ChildTable} {ll : LocalEntry} {r : RemoteChild}
    {l : LocalNode} {n : Node} (at_l : h.locals ll.ref = some l) (at_r : h.nodes r.id = some n)
    (local_file : l.data.type = fileNode) (winner : table ll.name = some r)
    (sends : (h.syncupChild table ll).2 = true) :
    n.data.syncget = false ∧ ¬l.data.file.mtime < n.data.file.mtime ∧
      likelyIdentical l.data.file n.data.file = false := by
  simp only [syncupChild, at_l, winner, at_r] at sends
  split at sends
  · cases sends
  · split at sends
    · cases sends
    · rename_i compared
      simp only [Bool.and_eq_true, Bool.not_eq_true'] at sends
      obtain ⟨-, open_⟩ : l.data.type = n.data.type ∧ h.syncupSkips ll.ref r.id = false := by
        simpa using compared
      simp only [syncupSkips, at_l, at_r, local_file, decide_true, Bool.true_and,
        Bool.or_eq_false_iff, decide_eq_false_iff_not] at open_
      exact ⟨open_.2.1, open_.2.2, sends.1⟩

end Heap

section Below
variable (env : Surroundings) (s : Sides)

def Sides.Listed (p k : LocalItem) : Prop :=
  ∃ x, k = Sides.item env (local2name x) k.ref ∧ (x, k.ref) ∈ s.children p.ref

theorem placed_below (levels : Nat) (p : LocalItem) :
    (s.below env levels p.ref).Placed (s.Listed env) p := by
  induction levels generalizing p with
  | zero => trivial
  | succ levels ih =>
    have rest : ∀ es : List (Bytes × LocalRef), es ⊆ s.children p.ref →
        (es.foldr (fun e next => Children.cons (Sides.item env (local2name e.1) e.2)
          (s.below env levels e.2) next) .nil).Placed (s.Listed env) p := by
      intro es
      induction es with
      | nil => exact fun _ => trivial
      | cons e es inner =>
        intro inside
        rw [List.cons_subset] at inside
        exact ⟨⟨e.1, rfl, inside.1⟩, ih (Sides.item env (local2name e.1) e.2), inner inside.2⟩
    exact rest _ (List.Subset.refl _)

/-- What is below a folder is inside it. -/
theorem inside_of_below (levels : Nat) (p m : LocalRef) (mem : m ∈ (s.below env levels p).refs) :
    ∃ k, Relation.ReflTransGen s.InFolder m k ∧ s.InFolder k p := by
  induction levels generalizing p with
  | zero => cases mem
  | succ levels ih =>
    have rest : ∀ es : List (Bytes × LocalRef), es ⊆ s.children p →
        m ∈ (es.foldr (fun e next => Children.cons (Sides.item env (local2name e.1) e.2)
          (s.below env levels e.2) next) .nil).refs →
        ∃ k, Relation.ReflTransGen s.InFolder m k ∧ s.InFolder k p := by
      intro es
      induction es with
      | nil => exact fun _ mem => absurd mem List.not_mem_nil
      | cons e es inner =>
        intro inside mem
        rw [List.cons_subset] at inside
        rcases List.mem_cons.mp mem with rfl | mem
        · exact ⟨_, .refl, e.1, inside.1⟩
        · rcases List.mem_append.mp mem with deep | mem
          · obtain ⟨k, path, last⟩ := ih e.2 deep
            exact ⟨e.2, path.tail last, e.1, inside.1⟩
          · exact inner inside.2 mem
    exact rest _ (List.Subset.refl _) mem

end Below

section Pair
variable {env : Surroundings} {rubbish : Bool} {s s' : Sides} {l ll : LocalRef} {r : NodeRef}
variable {f : LocalNode} {n : Node}

theorem Counterparts.inFolder (pair : Counterparts s l ll r f n) : s.InFolder ll l :=
  ⟨_, (pair.child l _).mpr ⟨rfl, rfl⟩⟩

/-- The folders that the file is in are still where they were. -/
theorem StayPut.folders (stays : StayPut s s' ll r) (keeps : KeepsFiles s s')
    (pair : Counterparts s l ll r f n) {k : LocalRef}
    (path : Relation.ReflTransGen s'.InFolder l k) : Relation.ReflTransGen s.InFolder l k := by
  induction path with
  | refl => exact .refl
  | tail path last ih =>
    obtain ⟨x, listed⟩ := last
    exact ih.tail ⟨x, (keeps.placed _ (stays.locals _ (ih.head pair.inFolder)) _ x).mp listed⟩

/-- What `syncup` has seen of the file when it sends it. -/
theorem Counterparts.sent (pair : Counterparts s l ll r f n) (keeps : KeepsFiles s s')
    (stays : StayPut s s' ll r)
    (wins : (s'.heap.remoteTable (s'.remoteSide env) l (s'.name ll)).map (·.id) = some r)
    (sends : ll ∈ s'.synccreate env l) :
    s'.heap.fetching r = false ∧ ¬f.data.file.mtime < n.data.file.mtime ∧
      Heap.likelyIdentical f.data.file n.data.file = false := by
  have still := stays.locals ll .refl
  obtain ⟨created, mem, same⟩ := List.mem_map.mp sends
  obtain ⟨⟨x, item, listed⟩, place⟩ := (Heap.created_cases (s'.remoteSide env)
    (s'.below env env.levels l) (Sides.item env (s'.name l) l) _ s'.heap
    (placed_below env s' env.levels (Sides.item env (s'.name l) l))).2 created mem
  have same : created.l.ref = ll := same
  rw [same] at item listed
  obtain ⟨parent, rfl⟩ := (pair.child _ _).mp ((keeps.placed ll still _ _).mp listed)
  rcases place with ⟨-, h, alike, passes⟩ | deeper
  · obtain ⟨c, winner, rfl⟩ := Option.map_eq_some_iff.mp wins
    have keeps := keeps.trans (keeps_heap s' alike s'.asked)
    obtain ⟨f', at_ll, file, same_f⟩ := pair.local_after keeps still
    obtain ⟨n', at_r, -, same_n⟩ := pair.node_after keeps
    rw [item] at passes
    have named : (Sides.item env (local2name (s.localname ll)) ll).entry.name = s'.name ll :=
      congrArg local2name (keeps.named ll still).symm
    obtain ⟨idle, older, differs⟩ :=
      Heap.syncupChild_sends at_ll at_r file (named ▸ winner) passes
    rw [same_f, same_n] at older differs
    refine ⟨?_, older, differs⟩
    rw [← alike.fetching, Heap.fetching, at_r]
    exact idle
  · rw [parent] at deeper
    obtain ⟨k, path, x, listed⟩ := inside_of_below env s' env.levels l l deeper
    have path := stays.folders keeps pair path
    have unmoved := stays.locals k (path.head pair.inFolder)
    exact absurd ⟨x, (keeps.placed k unmoved l x).mp listed⟩ (pair.outside k path)

/-- For a file name on both sides of a folder, `syncdown` and then `syncup` never schedule transfers
in both directions, none at all for files of the same size, time and checksum, no GET over a newer
local file and no PUT over a newer remote one, unless `syncdown` moves one of them, or `syncup`
finds another remote file under the name. -/
theorem direction_exclusive (pair : Counterparts s l ll r f n)
    (stays : StayPut s (syncdown env rubbish l s).1 ll r)
    (wins : ((syncdown env rubbish l s).1.heap.remoteTable
      ((syncdown env rubbish l s).1.remoteSide env) l
      ((syncdown env rubbish l s).1.name ll)).map (·.id) = some r) :
    let after := (syncdown env rubbish l s).1
    ¬(r ∈ after.gets ∧ ll ∈ after.synccreate env l) ∧
      (f.data.file.size = n.data.file.size ∧ f.data.file.mtime = n.data.file.mtime ∧
        f.data.file.crc = n.data.file.crc → r ∉ after.gets ∧ ll ∉ after.synccreate env l) ∧
      (f.data.file.mtime > n.data.file.mtime → r ∉ after.gets) ∧
      (f.data.file.mtime < n.data.file.mtime → ll ∉ after.synccreate env l) := by
  intro after
  have keeps : KeepsFiles s after := keeps_syncdownFrom env rubbish env.levels l s
  have sent := pair.sent keeps stays wins
  refine ⟨?_, ?_, fun newer => pair.not_fetched (.inl newer) stays, fun older sends => ?_⟩
  · rintro ⟨fetched, sends⟩
    have marked := keeps.marked pair.marked r fetched
    rw [(sent sends).1] at marked
    cases marked
  · rintro ⟨size, mtime, crc⟩
    have same : f.data.file.same n.data.file = true := by
      simp [FileFingerprint.same, size, mtime, crc]
    refine ⟨pair.not_fetched (.inr same) stays, fun sends => ?_⟩
    have differs := (sent sends).2.2
    simp [Heap.likelyIdentical, size, mtime, same] at differs
  · exact (sent sends).2.1 older

end Pair

namespace Sample

def fingerprint (size : Int) : FileFingerprint := ⟨size, 5, Vector.replicate 4 1, true⟩

def localFile (node : Option NodeRef) : LocalNode :=
  ⟨⟨fileNode, some 0, false, fingerprint 5⟩, node⟩

def remoteFile (size : Int) (localnode : Option LocalRef) : Node :=
  ⟨⟨fileNode, some 0, false, false, false, fingerprint size⟩, localnode⟩

/-- A local file `a`, and two remote files of which the first has that name. -/
def twoFiles (node : Option NodeRef) (other : Bytes) (localnode : Option LocalRef) : Sides where
  heap :=
    { nodes := fun n =>
        if n = 0 then some ⟨⟨folderNode, none, false, false, false, fingerprint 0⟩, some 0⟩
        else if n = 1 then some (remoteFile 6 none)
        else if n = 2 then some (remoteFile 7 localnode)
        else none
      locals := fun l =>
        if l = 0 then some ⟨⟨folderNode, none, false, fingerprint 0⟩, some 0⟩
        else if l = 1 then some (localFile node)
        else none }
  children l := if l = 0 then [(ascii "a", 1)] else []
  localname l := if l = 1 then ascii "a" else []
  remote n := if n = 0 then [1, 2] else []
  attrName n := if n = 1 then some (ascii "a") else if n = 2 then some other else none
  undecrypted _ := false
  gets := []
  asked := 0
  movedLocals := []
  movedNodes := []

/-- Nothing fails; only some nodes are to be synchronised. -/
def surroundings (syncable : NodeRef → Bool) : Surroundings where
  levels := 2
  debris := ascii "Rubbish"
  syncable := syncable
  renamelocal _ := .done
  mkdirlocal _ := .done
  movetolocaldebris _ := .done
  changed _ := false
  checkpath _ := .missing
  permitted _ := true
  transfer _ := false
  nagling _ := false
  disk _ := some (5, 5)
  syncid _ := 0
  nodehandle _ := 0
  fingerprints _ := none

theorem counterparts (node : Option NodeRef) (other : Bytes) (localnode : Option LocalRef) :
    Counterparts (twoFiles node other localnode) 0 1 1 (localFile node) (remoteFile 6 none) := by
  have top : ∀ k, ¬(twoFiles node other localnode).InFolder 0 k := by
    rintro k ⟨x, listed⟩
    by_cases root : k = 0
    · simp [twoFiles, root] at listed
    · simp [twoFiles, root] at listed
  have remoteTop : ∀ q, ¬(twoFiles node other localnode).InNode 0 q := by
    intro q listed
    by_cases root : q = 0
    · simp [Sides.InNode, twoFiles, root] at listed
    · simp [Sides.InNode, twoFiles, root] at listed
  have named : childKey (ascii "a") = local2name (ascii "a") := by decide +kernel
  refine ⟨⟨rfl, rfl⟩, ⟨rfl, rfl⟩, congrArg some named, fun k x => ?_, fun q => ?_, fun k path => ?_,
    fun q a here path => ?_, fun n mem => absurd mem List.not_mem_nil, List.not_mem_nil⟩
  · by_cases root : k = 0
    · simp [twoFiles, root]
    · simp [twoFiles, root]
  · by_cases root : q = 0
    · simp [Sides.InNode, twoFiles, Heap.nodeOf, root]
    · simp [Sides.InNode, twoFiles, Heap.nodeOf, root, eq_comm]
  · rcases path.cases_head with rfl | ⟨p, inside, -⟩
    · exact top 0
    · exact absurd inside (top p)
  · obtain rfl : q = 0 := (Option.some.inj here).symm
    rcases path.cases_head with rfl | ⟨p, inside, -⟩
    · exact remoteTop 0
    · exact absurd inside (remoteTop p)

end Sample

open Sample

/-- The remote file is fetched, and the local one of the same time is not sent. -/
theorem direction_exclusive_sameTime :
    (syncdown (surroundings fun _ => true) false 0
        (twoFiles none (ascii "b") none)).1.gets = [1, 2] ∧
      1 ∉ (syncdown (surroundings fun _ => true) false 0
        (twoFiles none (ascii "b") none)).1.synccreate (surroundings fun _ => true) 0 := by
  have fetched : (syncdown (surroundings fun _ => true) false 0
      (twoFiles none (ascii "b") none)).1.gets = [1, 2] := by decide +kernel
  have still : (syncdown (surroundings fun _ => true) false 0
      (twoFiles none (ascii "b") none)).1.movedLocals = [] := by decide +kernel
  have stillNodes : (syncdown (surroundings fun _ => true) false 0
      (twoFiles none (ascii "b") none)).1.movedNodes = [] := by decide +kernel
  have exclusive := direction_exclusive (counterparts none (ascii "b") none)
    ⟨fun k _ => by rw [still]; exact List.not_mem_nil,
      fun a _ => by rw [stillNodes]; exact List.not_mem_nil⟩ (by decide +kernel)
  refine ⟨fetched, fun sends => exclusive.1 ⟨?_, sends⟩⟩
  rw [fetched]
  exact List.mem_cons_self

/-- Both are scheduled for one name if the local file belongs to another remote one, to whose new
name it is moved, and if `syncup` finds a newer file that the application does not want. -/
theorem direction_notExclusive :
    (Counterparts (twoFiles (some 2) (ascii "b") (some 1)) 0 1 1 (localFile (some 2))
        (remoteFile 6 none) ∧
      ((childHash (surroundings fun _ => true) 0
        (twoFiles (some 2) (ascii "b") (some 1))).nchildren (ascii "a")).map (·.id) = some 1 ∧
      1 ∈ (syncdown (surroundings fun _ => true) false 0
        (twoFiles (some 2) (ascii "b") (some 1))).1.gets ∧
      1 ∈ (syncdown (surroundings fun _ => true) false 0
        (twoFiles (some 2) (ascii "b") (some 1))).1.synccreate (surroundings fun _ => true) 0) ∧
      Counterparts (twoFiles none (ascii "a") none) 0 1 1 (localFile none) (remoteFile 6 none) ∧
        ((childHash (surroundings (· ≠ 2)) 0
          (twoFiles none (ascii "a") none)).nchildren (ascii "a")).map (·.id) = some 1 ∧
        1 ∈ (syncdown (surroundings (· ≠ 2)) false 0 (twoFiles none (ascii "a") none)).1.gets ∧
        1 ∈ (syncdown (surroundings (· ≠ 2)) false 0
          (twoFiles none (ascii "a") none)).1.synccreate (surroundings (· ≠ 2)) 0 :=
  ⟨⟨counterparts _ _ _, by decide +kernel, by decide +kernel, by decide +kernel⟩,
    counterparts _ _ _, by decide +kernel, by decide +kernel, by decide +kernel⟩

end MegaSdk.Sync
