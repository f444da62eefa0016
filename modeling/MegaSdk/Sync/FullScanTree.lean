import MegaSdk.Lib.Mirroring
import MegaSdk.Sync.FullScan

/-!
# The tree of local nodes during a scan

The `LocalNode`s are kept twice: with their sizes and their ids, and with their names. Both agree on
which of them exist and what is below what, and every one but the root is found by its id.
-/

namespace MegaSdk.Sync

open FsIds ParentForest

namespace FsIds.Client
variable {s : Client} {l k : LocalRef} {newfsid f : UInt64}

theorem locals_eraseIt (s : Client) (n : FsNode) : (s.eraseIt n).locals = s.locals := by
  rw [eraseIt]
  split <;> rfl

theorem locals_destroy (s : Client) (l : LocalRef) :
    (s.destroy l).locals = Function.update s.locals l none := by
  rw [destroy]
  split
  · next dead => rw [← dead, Function.update_eq_self]
  · rw [← locals_eraseIt s]

theorem locals_destroyAll (s : Client) (destroyed : List LocalRef) (k : LocalRef) :
    (destroyed.foldl destroy s).locals k = if k ∈ destroyed then none else s.locals k := by
  induction destroyed generalizing s with
  | nil => rfl
  | cons l rest ih =>
    rw [List.foldl_cons, ih, locals_destroy]
    by_cases later : k ∈ rest
    · rw [if_pos later, if_pos (List.mem_cons_of_mem _ later)]
    · rw [if_neg later]
      by_cases here : k = l
      · rw [here, Function.update_self, if_pos List.mem_cons_self]
      · rw [Function.update_of_ne here, if_neg (List.not_mem_cons_of_ne_of_not_mem here later)]

theorem good_destroyAll (good : Good s) (destroyed : List LocalRef) :
    Good (destroyed.foldl destroy s) := by
  induction destroyed generalizing s with
  | nil => exact good
  | cons l rest ih => exact ih (good.destroy l)

theorem fsidnode_eraseIt (n : FsNode) (free : s.fsidnode f = none) :
    (s.eraseIt n).fsidnode f = none := by
  rw [eraseIt]
  split
  · exact congrArg (Option.filter _) free
  · exact free

/-- An id that nobody has is set, and nobody loses the own one. -/
theorem locals_setfsid {n : FsNode} (here : s.locals l = some n)
    (free : s.fsidnode newfsid = none) :
    ∃ it, (s.setfsid l newfsid).locals = Function.update s.locals l (some ⟨newfsid, some it⟩) ∨
      n = ⟨newfsid, some it⟩ ∧ s.setfsid l newfsid = s := by
  rw [setfsid, here]
  dsimp only
  split
  · next own =>
    obtain ⟨it, held⟩ := Option.isSome_iff_exists.mp own.1
    exact ⟨it, .inr ⟨by rw [own.2, ← held], rfl⟩⟩
  · rw [takeId, fsidnode_eraseIt n free]
    exact ⟨_, .inl (by rw [locals_eraseIt])⟩

/-- A new `LocalNode` gets an id that nobody has. -/
theorem locals_init_setfsid (unused : s.locals l = none) (unset : UInt64)
    (free : s.fsidnode newfsid = none) :
    ∃ it, ((s.init l unset).setfsid l newfsid).locals =
      Function.update s.locals l (some ⟨newfsid, some it⟩) := by
  have started : s.init l unset =
      { s with locals := Function.update s.locals l (some ⟨unset, none⟩) } := by
    rw [init, unused]
    exact if_neg Bool.false_ne_true
  have here : (s.init l unset).locals l = some ⟨unset, none⟩ := by
    rw [started]
    exact Function.update_self ..
  have still : (s.init l unset).fsidnode newfsid = none := by rw [started, free]
  obtain ⟨it, changed⟩ := locals_setfsid here still
  refine ⟨it, ?_⟩
  rcases changed with set | ⟨same, -⟩
  · rw [set, started, Function.update_idem]
  · cases same

theorem held_congr {t : Client} (same : t.locals k = s.locals k) : t.held k = s.held k := by
  rw [held, held, same]

end FsIds.Client

namespace LocalBytes

/-- `t` has the objects of `s`, with other sizes at most. -/
structure Alike (s t : State) : Prop where
  live : t.live = s.live
  client : t.client = s.client
  fullscan : t.fullscan = s.fullscan
  type : ∀ k, (t.locals k).type = (s.locals k).type
  parent : ∀ k, (t.locals k).parent = (s.locals k).parent

section Alike
variable {r s t : State}

theorem Alike.refl (s : State) : Alike s s := ⟨rfl, rfl, rfl, fun _ => rfl, fun _ => rfl⟩

theorem Alike.trans (first : Alike r s) (second : Alike s t) : Alike r t where
  live := second.live.trans first.live
  client := second.client.trans first.client
  fullscan := second.fullscan.trans first.fullscan
  type k := (second.type k).trans (first.type k)
  parent k := (second.parent k).trans (first.parent k)

theorem Alike.fsid (alike : Alike s t) : t.fsid = s.fsid := by
  funext k
  rw [State.fsid, State.fsid, alike.client]

theorem Alike.bytes (alike : Alike s t) (localbytes : Int) :
    Alike s { t with localbytes := localbytes } :=
  ⟨alike.live, alike.client, alike.fullscan, alike.type, alike.parent⟩

theorem alike_modify (s : State) (l : LocalRef) {f : LocalItem → LocalItem}
    (same : ∀ item, (f item).type = item.type ∧ (f item).parent = item.parent) :
    Alike s (s.modify l f) := by
  have cases : ∀ k, ((s.modify l f).locals k).type = (s.locals k).type ∧
      ((s.modify l f).locals k).parent = (s.locals k).parent := fun k => by
    rw [State.modify]
    by_cases here : k = l
    · subst here
      dsimp only
      rw [Function.update_self]
      exact same _
    · dsimp only
      rw [Function.update_of_ne here]
      exact ⟨rfl, rfl⟩
  exact ⟨rfl, rfl, rfl, fun k => (cases k).1, fun k => (cases k).2⟩

theorem alike_count (s : State) (l : LocalRef) : Alike s (s.count l) :=
  alike_modify s l fun _ => by exact ⟨rfl, rfl⟩

theorem alike_regenerate (s : State) (l : LocalRef) (source : FileFingerprint.Source) :
    Alike s (s.regenerate l source) :=
  alike_modify s l fun _ => by exact ⟨rfl, rfl⟩

theorem alike_noteOverwrite (s : State) (l : LocalRef) (fa : FileAccess) :
    Alike s (s.noteOverwrite l fa) := by
  rw [State.noteOverwrite]
  split
  · exact alike_modify s l fun _ => by exact ⟨rfl, rfl⟩
  · exact .refl s

theorem alike_addUnchanged (s : State) (l : LocalRef) : Alike s (s.addUnchanged l) := by
  rw [State.addUnchanged]
  split
  · exact (alike_count s l).bytes _
  · exact .refl s

theorem alike_change (s : State) (l : LocalRef) (source : FileFingerprint.Source) :
    Alike s (s.change l source) :=
  ((alike_regenerate s l source).trans (alike_count _ l)).bytes _

theorem alike_refresh (s : State) (l : LocalRef) (source : FileFingerprint.Source) :
    Alike s (s.refresh l source) := by
  rw [State.refresh]
  split
  · exact ((alike_regenerate s l source).trans (alike_count _ l)).bytes _
  · exact .refl s

theorem alike_syncupFile (s : State) (ll : LocalRef) (fa : Option FileFingerprint.Source) :
    Alike s (s.syncupFile ll fa) := by
  cases fa with
  | none => exact .refl s
  | some source =>
    rw [State.syncupFile]
    dsimp only
    split
    · exact (alike_regenerate s ll source).bytes _
    · exact .refl s

/-- Another parent. -/
theorem alike_setparent (s : State) (l : LocalRef) (parent : Option LocalRef) :
    (s.setparent l parent).client = s.client ∧
      ∀ k, ((s.setparent l parent).locals k).type = (s.locals k).type := by
  refine ⟨rfl, fun k => ?_⟩
  rw [State.setparent, State.modify]
  dsimp only
  by_cases here : k = l
  · rw [here, Function.update_self]
  · rw [Function.update_of_ne here]

end Alike

end LocalBytes

namespace FullScan

open States (Forest)
open States.Forest (SameShape nowhere)

/-- The same `LocalNode`s exist, with the same parents, and all but the root have an entry in
`fsidnode`. -/
structure Tied (b : LocalBytes.State) (f : Forest) : Prop where
  links : f.Links nowhere
  root : f.parent localroot = none
  known : localroot < f.next
  live : ∀ k, k ∈ b.live ↔ k = localroot ∨ (f.parent k).isSome
  inside : ∀ {k p}, f.parent k = some p → p ∈ b.live
  parent : ∀ k ∈ b.live, (b.locals k).parent = f.parent k
  good : b.client.Good
  used : ∀ k, (b.client.locals k).isSome ↔ k ∈ b.live
  held : ∀ k ∈ b.live, k ≠ localroot → (b.client.held k).isSome
  rootless : b.client.held localroot = none

section Tied
variable {b b' : LocalBytes.State} {f f' : Forest} {l k p : LocalRef} {name : Bytes}

theorem Tied.alike (tied : Tied b f) (alike : LocalBytes.Alike b b') : Tied b' f where
  links := tied.links
  root := tied.root
  known := tied.known
  live k := by rw [alike.live, tied.live]
  inside above := by
    rw [alike.live]
    exact tied.inside above
  parent k mem := by
    rw [alike.parent]
    exact tied.parent k (alike.live ▸ mem)
  good := alike.client ▸ tied.good
  used k := by rw [alike.client, alike.live, tied.used]
  held k mem inner := by
    rw [alike.client]
    exact tied.held k (alike.live ▸ mem) inner
  rootless := by rw [alike.client, tied.rootless]

theorem Tied.shape (tied : Tied b f) (shape : SameShape f f') : Tied b f' where
  links := tied.links.of_shape shape
  root := by rw [shape.parent, tied.root]
  known := by
    rw [shape.next]
    exact tied.known
  live k := by rw [shape.parent, tied.live]
  inside above := by
    rw [shape.parent] at above
    exact tied.inside above
  parent k mem := by rw [shape.parent, tied.parent k mem]
  good := tied.good
  used := tied.used
  held := tied.held
  rootless := tied.rootless

theorem Tied.bound (tied : Tied b f) (mem : k ∈ b.live) : k < f.next := by
  rcases (tied.live k).mp mem with rfl | placed
  · exact tied.known
  · obtain ⟨p, above⟩ := Option.isSome_iff_exists.mp placed
    exact (tied.links.bound above).1

theorem Tied.inner (tied : Tied b f) (above : f.parent k = some p) : k ≠ localroot := by
  rintro rfl
  rw [tied.root] at above
  cases above

theorem Tied.live_of_parent (tied : Tied b f) (above : f.parent k = some p) : k ∈ b.live :=
  (tied.live k).mpr (.inr (by rw [above]; rfl))

/-- What is below a `LocalNode` in the one tree is below it in the other one. -/
theorem Tied.isBelow_iff (tied : Tied b f) (mem : k ∈ b.live) :
    b.isBelow l b.live.card k = true ↔ AtOrAbove f.parent l k := by
  have sound : ∀ fuel k, k ∈ b.live → b.isBelow l fuel k = true → AtOrAbove f.parent l k := by
    intro fuel
    induction fuel with
    | zero =>
      intro k _ below
      rw [LocalBytes.State.isBelow, decide_eq_true_eq] at below
      exact below ▸ atOrAbove_refl _ _
    | succ fuel ih =>
      intro k mem below
      rw [LocalBytes.State.isBelow, Bool.or_eq_true, decide_eq_true_eq, tied.parent k mem] at below
      rcases below with rfl | higher
      · exact atOrAbove_refl _ _
      · cases above : f.parent k with
        | none =>
          rw [above] at higher
          cases higher
        | some p =>
          rw [above] at higher
          exact atOrAbove_of_parent above (ih p (tied.inside above) higher)
  obtain ⟨rank, drops, bounded⟩ := tied.links.acyclic.bounded fun _ _ above => tied.inside above
  have complete : ∀ fuel k, k ∈ b.live → rank k ≤ fuel → AtOrAbove f.parent l k →
      b.isBelow l fuel k = true := by
    intro fuel
    induction fuel with
    | zero =>
      intro k _ enough higher
      cases above : f.parent k with
      | none =>
        rw [LocalBytes.State.isBelow, decide_eq_true_eq]
        exact (atOrAbove_root above higher).symm
      | some p =>
        have := drops k p above
        omega
    | succ fuel ih =>
      intro k mem enough higher
      rw [LocalBytes.State.isBelow, Bool.or_eq_true, decide_eq_true_eq, tied.parent k mem]
      cases above : f.parent k with
      | none => exact .inl (atOrAbove_root above higher).symm
      | some p =>
        have := drops k p above
        rcases atOrAbove_parent above higher with same | higher
        · exact .inl same.symm
        · exact .inr (ih p (tied.inside above) (by omega) higher)
  exact ⟨sound _ k mem, complete _ k mem (bounded k)⟩

theorem Tied.mem_destroyed (tied : Tied b f) :
    k ∈ b.destroyed l ↔ k ∈ b.live ∧ AtOrAbove f.parent l k := by
  rw [LocalBytes.State.destroyed, Finset.mem_filter]
  exact and_congr_right fun mem => tied.isBelow_iff mem

theorem locals_delete (b : LocalBytes.State) (l k : LocalRef) :
    (b.delete l).client.locals k = if k ∈ b.destroyed l then none else b.client.locals k := by
  change (((b.destroyed l).sort (· ≤ ·)).foldl Client.destroy b.client).locals k = _
  rw [Client.locals_destroyAll]
  exact if_congr (Finset.mem_sort _) rfl rfl

theorem Tied.delete (tied : Tied b f) (inner : l ≠ localroot) : Tied (b.delete l) (f.delete l) := by
  have gone : ∀ {k}, AtOrAbove f.parent l k → (f.delete l).parent k = none := fun higher =>
    if_pos (tied.links.below_iff.mpr higher)
  have kept : ∀ {k}, ¬AtOrAbove f.parent l k → (f.delete l).parent k = f.parent k := fun apart =>
    (if_neg fun below => apart (tied.links.below_iff.mp below)).trans
      (congrFun (Forest.unlinked_unlink tied.links l).parent _)
  have root : ¬AtOrAbove f.parent l localroot := fun higher =>
    inner (ParentForest.atOrAbove_root tied.root higher)
  have mem_live : ∀ {k}, k ∈ (b.delete l).live ↔ k ∈ b.live ∧ ¬AtOrAbove f.parent l k := by
    intro k
    rw [LocalBytes.State.delete, Finset.mem_sdiff, tied.mem_destroyed]
    exact ⟨fun both => ⟨both.1, fun higher => both.2 ⟨both.1, higher⟩⟩,
      fun both => ⟨both.1, fun inside => both.2 inside.2⟩⟩
  have locals : ∀ {k}, ¬AtOrAbove f.parent l k →
      (b.delete l).client.locals k = b.client.locals k := fun apart => by
    rw [locals_delete, if_neg fun inside => apart (tied.mem_destroyed.mp inside).2]
  refine ⟨tied.links.delete l, (kept root).trans tied.root,
    (Forest.unlinked_unlink tied.links l).next ▸ tied.known, fun k => ?_, fun {k p} above => ?_,
    fun k mem => ?_, Client.good_destroyAll tied.good _, fun k => ?_, fun k mem other => ?_, ?_⟩
  · rw [mem_live, tied.live]
    by_cases inside : AtOrAbove f.parent l k
    · rw [gone inside]
      refine iff_of_false (fun both => both.2 inside) ?_
      rintro (rfl | none)
      · exact root inside
      · cases none
    · rw [kept inside]
      exact and_iff_left inside
  · by_cases inside : AtOrAbove f.parent l k
    · rw [gone inside] at above
      cases above
    · rw [kept inside] at above
      exact mem_live.mpr
        ⟨tied.inside above, fun higher => inside (atOrAbove_of_parent above higher)⟩
  · obtain ⟨mem, apart⟩ := mem_live.mp mem
    exact (tied.parent k mem).trans (kept apart).symm
  · rw [mem_live, locals_delete]
    by_cases inside : k ∈ b.destroyed l
    · rw [if_pos inside]
      exact iff_of_false Bool.false_ne_true fun both => both.2 (tied.mem_destroyed.mp inside).2
    · rw [if_neg inside, tied.used]
      exact ⟨fun mem => ⟨mem, fun higher => inside (tied.mem_destroyed.mpr ⟨mem, higher⟩)⟩,
        fun both => both.1⟩
  · obtain ⟨mem, apart⟩ := mem_live.mp mem
    rw [Client.held_congr (locals apart)]
    exact tied.held k mem other
  · rw [Client.held_congr (locals root), tied.rootless]

/-- The nodes are in both trees alike when one of them gets another parent. -/
theorem Tied.hang (tied : Tied b f) (links : f'.Links nowhere) (next : f'.next = f.next)
    (place : f'.place = Function.update f.place k (some (p, name))) (mem : k ∈ b.live)
    (inner : k ≠ localroot) (folder : p ∈ b.live) : Tied (b.setparent k (some p)) f' := by
  have parents := Forest.parent_of_place place
  have other : ∀ {m}, m ≠ k → f'.parent m = f.parent m := fun differs => by
    rw [parents, Function.update_of_ne differs]
  have here : f'.parent k = some p := by rw [parents, Function.update_self]
  refine ⟨links, (other inner.symm).trans tied.root, next ▸ tied.known, fun m => ?_,
    fun {m q} above => ?_, fun m mem' => ?_, tied.good, tied.used, tied.held, tied.rootless⟩
  · change m ∈ b.live ↔ _
    by_cases same : m = k
    · subst same
      rw [here]
      exact iff_of_true mem (.inr rfl)
    · rw [other same, tied.live]
  · by_cases same : m = k
    · subst same
      obtain rfl := Option.some.inj (here.symm.trans above)
      exact folder
    · rw [other same] at above
      exact tied.inside above
  · by_cases same : m = k
    · subst same
      rw [here, LocalBytes.State.setparent, LocalBytes.State.modify]
      dsimp only
      rw [Function.update_self]
      rfl
    · rw [other same, LocalBytes.State.setparent, LocalBytes.State.modify]
      dsimp only
      rw [Function.update_of_ne same]
      exact tied.parent m mem'

/-- An id that is free. -/
theorem Tied.setfsid (tied : Tied b f) (mem : l ∈ b.live) (inner : l ≠ localroot) {fsid : UInt64}
    (free : b.client.fsidnode fsid = none) : Tied (b.setfsid l fsid) f ∧
      (b.setfsid l fsid).fsid = Function.update b.fsid l (some fsid) := by
  obtain ⟨n, here⟩ := Option.isSome_iff_exists.mp ((tied.used l).mpr mem)
  obtain ⟨it, changed⟩ := Client.locals_setfsid here free
  have locals : (b.client.setfsid l fsid).locals =
      Function.update b.client.locals l (some ⟨fsid, some it⟩) := by
    rcases changed with new | ⟨rfl, same⟩
    · exact new
    · rw [same, ← here, Function.update_eq_self]
  have other : ∀ {m}, m ≠ l → (b.client.setfsid l fsid).locals m = b.client.locals m :=
    fun differs => by rw [locals, Function.update_of_ne differs]
  have own : (b.client.setfsid l fsid).locals l = some ⟨fsid, some it⟩ := by
    rw [locals, Function.update_self]
  constructor
  · refine ⟨tied.links, tied.root, tied.known, tied.live, tied.inside, tied.parent,
      tied.good.setfsid l fsid, fun m => ?_, fun m mem' inner' => ?_, ?_⟩
    · change ((b.client.setfsid l fsid).locals m).isSome ↔ m ∈ b.live
      by_cases same : m = l
      · subst same
        rw [own]
        exact iff_of_true rfl mem
      · rw [other same, tied.used]
    · change ((b.client.setfsid l fsid).held m).isSome
      by_cases same : m = l
      · subst same
        rw [Client.held, own]
        rfl
      · rw [Client.held_congr (other same)]
        exact tied.held m mem' inner'
    · exact (Client.held_congr (other inner.symm)).trans tied.rootless
  · funext m
    change ((b.client.setfsid l fsid).locals m).map FsNode.fsid = _
    by_cases same : m = l
    · subst same
      rw [own, Function.update_self]
      rfl
    · rw [other same, Function.update_of_ne same]
      rfl

/-- A `LocalNode` that is found by its id. -/
theorem Tied.lookup_iff (tied : Tied b f) {fsid : UInt64} :
    (b.client.fsidnode fsid).map Prod.snd = some k ↔
      k ∈ b.live ∧ k ≠ localroot ∧ b.fsid k = some fsid := by
  constructor
  · intro found
    obtain ⟨⟨it, l⟩, entry, rfl⟩ := Option.map_eq_some_iff.mp found
    have holds := (tied.good.paired _ _).mpr (Client.ownerOf_eq_some.mpr entry)
    obtain ⟨n, here, -, same⟩ := Client.held_eq_some.mp holds
    refine ⟨(tied.used _).mp (by rw [here]; rfl), ?_, ?_⟩
    · rintro rfl
      rw [tied.rootless] at holds
      cases holds
    · rw [LocalBytes.State.fsid, here, Option.map_some, same]
  · rintro ⟨mem, inner, same⟩
    obtain ⟨⟨own, it⟩, holds⟩ := Option.isSome_iff_exists.mp (tied.held k mem inner)
    obtain ⟨n, here, -, key⟩ := Client.held_eq_some.mp holds
    rw [LocalBytes.State.fsid, here, Option.map_some, key] at same
    obtain rfl := Option.some.inj same
    rw [Client.ownerOf_eq_some.mp ((tied.good.paired _ _).mp holds)]
    rfl

theorem Tied.lookup_none (tied : Tied b f) {fsid : UInt64} :
    b.client.fsidnode fsid = none ↔
      ∀ k ∈ b.live, k ≠ localroot → b.fsid k ≠ some fsid := by
  constructor
  · intro free k mem inner same
    have found := tied.lookup_iff.mpr ⟨mem, inner, same⟩
    rw [free] at found
    cases found
  · intro unknown
    cases entry : b.client.fsidnode fsid with
    | none => rfl
    | some e =>
      obtain ⟨mem, inner, same⟩ := tied.lookup_iff.mp (congrArg (Option.map Prod.snd) entry)
      exact absurd same (unknown _ mem inner)

/-- A new node with an id that is free. -/
theorem Tied.init (tied : Tied b f) (folder : p ∈ b.live) (vacant : ∀ k, f.place k ≠ some (p, name))
    (item : LocalBytes.LocalItem) (above : item.parent = some p) (unset : UInt64) {fsid : UInt64}
    (free : b.client.fsidnode fsid = none) :
    Tied ((b.init f.next item unset).setfsid f.next fsid) (f.init (some p) name) ∧
      ((b.init f.next item unset).setfsid f.next fsid).fsid =
        Function.update b.fsid f.next (some fsid) ∧
      ((b.init f.next item unset).setfsid f.next fsid).locals =
        Function.update b.locals f.next item := by
  have fresh : f.next ∉ b.live := fun mem => Nat.lt_irrefl _ (tied.bound mem)
  have unused : b.client.locals f.next = none := by
    rw [← Option.not_isSome_iff_eq_none, tied.used]
    exact fresh
  have new : b.init f.next item unset = { b with
      live := insert f.next b.live
      locals := Function.update b.locals f.next item
      client := b.client.init f.next unset } := if_neg fresh
  obtain ⟨it, locals⟩ := Client.locals_init_setfsid unused unset free
  have other : ∀ {m}, m ≠ f.next →
      ((b.client.init f.next unset).setfsid f.next fsid).locals m = b.client.locals m :=
    fun differs => by rw [locals, Function.update_of_ne differs]
  have own : ((b.client.init f.next unset).setfsid f.next fsid).locals f.next =
      some ⟨fsid, some it⟩ := by
    rw [locals, Function.update_self]
  obtain ⟨links, place, next⟩ := tied.links.init (tied.bound folder) vacant
  have parents := Forest.parent_of_place place
  have hung : ∀ {m}, m ≠ f.next → (f.init (some p) name).parent m = f.parent m :=
    fun differs => by rw [parents, Function.update_of_ne differs]
  have root : localroot ≠ f.next := Nat.ne_of_lt tied.known
  rw [new]
  refine ⟨⟨links, (hung root).trans tied.root, ?known, fun m => ?live, fun {m q} edge => ?inside,
    fun m mem => ?parent, (tied.good.init f.next unset).setfsid f.next fsid, fun m => ?used,
    fun m mem inner => ?held, ?rootless⟩, ?ids, rfl⟩
  case known =>
    rw [next]
    exact Nat.lt_succ_of_lt tied.known
  case live =>
    change m ∈ insert f.next b.live ↔ _
    rw [Finset.mem_insert]
    by_cases here : m = f.next
    · rw [here, parents, Function.update_self]
      exact iff_of_true (.inl rfl) (.inr rfl)
    · rw [hung here, ← tied.live]
      exact or_iff_right here
  case inside =>
    change q ∈ insert f.next b.live
    by_cases here : m = f.next
    · rw [here, parents, Function.update_self] at edge
      obtain rfl := Option.some.inj edge
      exact Finset.mem_insert_of_mem folder
    · rw [hung here] at edge
      exact Finset.mem_insert_of_mem (tied.inside edge)
  case parent =>
    change (Function.update b.locals f.next item m).parent = _
    by_cases here : m = f.next
    · rw [here, Function.update_self, parents, Function.update_self, above]
    · rw [Function.update_of_ne here, hung here]
      exact tied.parent m (Finset.mem_of_mem_insert_of_ne mem here)
  case used =>
    change (((b.client.init f.next unset).setfsid f.next fsid).locals m).isSome ↔
      m ∈ insert f.next b.live
    rw [Finset.mem_insert]
    by_cases here : m = f.next
    · rw [here, own]
      exact iff_of_true rfl (.inl rfl)
    · rw [other here, tied.used]
      exact (or_iff_right here).symm
  case held =>
    change (((b.client.init f.next unset).setfsid f.next fsid).held m).isSome
    by_cases here : m = f.next
    · rw [here, Client.held, own]
      rfl
    · rw [Client.held_congr (other here)]
      exact tied.held m (Finset.mem_of_mem_insert_of_ne mem here) inner
  case rootless => exact (Client.held_congr (other root)).trans tied.rootless
  case ids =>
    funext m
    change (((b.client.init f.next unset).setfsid f.next fsid).locals m).map FsNode.fsid = _
    by_cases here : m = f.next
    · rw [here, own, Function.update_self]
      rfl
    · rw [other here, Function.update_of_ne here]
      rfl

end Tied

end FullScan

end MegaSdk.Sync
