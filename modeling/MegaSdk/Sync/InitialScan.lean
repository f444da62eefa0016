import MegaSdk.Sync.Mirror

/-!
# The initial scan mirrors the disk

When the queue is empty the sync becomes active and deletes what it has not seen. After that the
`LocalNode`s have the names, types and file system ids of the items on the disk, and those of
folders that were moved are still the same.
-/

namespace MegaSdk.Sync.FullScan

open NamedForest
open Runs
open States (Forest)

/-- The condition of `deletemissing`. -/
def Missing (s : State) (k : LocalRef) : Prop := s.scanseqno - s.seqnos k > 1

/-- `t` is `s` without some `LocalNode`s that are missing or below such ones. -/
structure Less (s t : State) : Prop where
  tied : Tied t.bytes t.forest
  fewer : ∀ k q, t.forest.place k = some q → s.forest.place k = some q
  kept : ∀ k, (∀ m, ParentForest.AtOrAbove s.forest.parent m k → m ≠ localroot → ¬Missing s m) →
    t.forest.place k = s.forest.place k ∧ t.bytes.fsid k = s.bytes.fsid k
  locals : t.bytes.locals = s.bytes.locals
  seqnos : t.seqnos = s.seqnos
  scanseqno : t.scanseqno = s.scanseqno

/-- Nothing below the `LocalNode` is missing. -/
def Clean (s : State) (l : LocalRef) : Prop :=
  ∀ k, ParentForest.AtOrAbove s.forest.parent l k → k ≠ l → ¬Missing s k

/-- It was deleted, or nothing at or below it is missing. -/
def Cleared (s : State) (l : LocalRef) : Prop :=
  s.forest.place l = none ∨ ¬Missing s l ∧ Clean s l

section Sweep
variable {r s t : State} {l k p : LocalRef}

theorem parent_of_fewer (fewer : ∀ k q, t.forest.place k = some q → s.forest.place k = some q)
    (edge : t.forest.parent k = some p) : s.forest.parent k = some p :=
  (Forest.place_eq_some.mp (fewer k _ (Forest.place_eq_some.mpr ⟨edge, rfl⟩))).1

theorem Less.refl (tied : Tied s.bytes s.forest) : Less s s :=
  ⟨tied, fun _ _ => id, fun _ _ => ⟨rfl, rfl⟩, rfl, rfl, rfl⟩

theorem Less.missing_iff (less : Less s t) : Missing t k ↔ Missing s k := by
  rw [Missing, Missing, less.seqnos, less.scanseqno]

theorem Less.above (less : Less s t) (higher : ParentForest.AtOrAbove t.forest.parent l k) :
    ParentForest.AtOrAbove s.forest.parent l k :=
  atOrAbove_mono higher fun _ _ => parent_of_fewer less.fewer

theorem Less.trans (first : Less r s) (second : Less s t) : Less r t where
  tied := second.tied
  fewer k q here := first.fewer k q (second.fewer k q here)
  kept k present := by
    obtain ⟨place, fsid⟩ := first.kept k present
    obtain ⟨place', fsid'⟩ := second.kept k fun m higher inner =>
      mt first.missing_iff.mp (present m (first.above higher) inner)
    exact ⟨place'.trans place, fsid'.trans fsid⟩
  locals := second.locals.trans first.locals
  seqnos := second.seqnos.trans first.seqnos
  scanseqno := second.scanseqno.trans first.scanseqno

theorem Less.clean (less : Less s t) (clean : Clean s l) : Clean t l := fun k higher other =>
  mt less.missing_iff.mp (clean k (less.above higher) other)

theorem Less.cleared (less : Less s t) (cleared : Cleared s l) : Cleared t l := by
  rcases cleared with gone | ⟨present, clean⟩
  · left
    by_contra placed
    obtain ⟨q, here⟩ := Option.ne_none_iff_exists'.mp placed
    rw [less.fewer l q here] at gone
    cases gone
  · exact .inr ⟨mt less.missing_iff.mp present, less.clean clean⟩

/-- A missing `LocalNode` is deleted with everything below it. -/
theorem Less.delete (tied : Tied s.bytes s.forest) (inner : l ≠ localroot) (missing : Missing s l) :
    Less s (s.delete l) ∧ Cleared (s.delete l) l := by
  have places := Forest.delete_place tied.links l
  refine ⟨⟨tied.delete inner, fun k q here => ?_, fun k present => ?_, rfl, rfl, rfl⟩, .inl ?_⟩
  · by_cases below : ParentForest.AtOrAbove s.forest.parent l k
    · rw [State.delete, (places k).1 below] at here
      cases here
    · exact ((places k).2 below).symm.trans here
  · have apart : ¬ParentForest.AtOrAbove s.forest.parent l k := fun below =>
      present l below inner missing
    refine ⟨(places k).2 apart, ?_⟩
    have ids : (s.bytes.delete l).client.locals k = s.bytes.client.locals k := by
      rw [locals_delete, if_neg fun gone => apart (tied.mem_destroyed.mp gone).2]
    exact congrArg (Option.map _) ids
  · exact (places l).1 (ParentForest.atOrAbove_refl _ _)

/-- The loop through the children. -/
theorem foldl_cleared {visit : State → Bytes × LocalRef → State}
    {entries : List (Bytes × LocalRef)}
    (each : ∀ s, Less r s → ∀ entry ∈ entries,
      Less s (visit s entry) ∧ Cleared (visit s entry) entry.2) (less : Less r s) :
    Less s (entries.foldl visit s) ∧
      ∀ entry ∈ entries, Cleared (entries.foldl visit s) entry.2 := by
  induction entries generalizing s with
  | nil => exact ⟨.refl less.tied, nofun⟩
  | cons first rest ih =>
    obtain ⟨once, cleared⟩ := each s less first List.mem_cons_self
    obtain ⟨more, others⟩ := ih (fun s less entry mem =>
      each s less entry (List.mem_cons_of_mem _ mem)) (less.trans once)
    refine ⟨once.trans more, fun entry mem => ?_⟩
    rcases List.mem_cons.mp mem with rfl | mem
    · exact more.cleared cleared
    · exact others entry mem

/-- Nothing that is missing is left below a folder, and nothing else is deleted. -/
theorem deletemissing_less {rank : LocalRef → Nat} (fuel : Nat) (tied : Tied s.bytes s.forest)
    (drops : ∀ k p, s.forest.parent k = some p → rank p < rank k)
    (enough : ∀ k, rank k < fuel + rank l) :
    Less s (State.deletemissing fuel s l) ∧ Clean (State.deletemissing fuel s l) l := by
  induction fuel generalizing s l with
  | zero => exact absurd (enough l) (by omega)
  | succ fuel ih =>
    rw [State.deletemissing]
    have each : ∀ t, Less s t → ∀ entry ∈ s.forest.children l,
        Less t (if t.scanseqno - t.seqnos entry.2 > 1 then t.delete entry.2
          else State.deletemissing fuel t entry.2) ∧
        Cleared (if t.scanseqno - t.seqnos entry.2 > 1 then t.delete entry.2
          else State.deletemissing fuel t entry.2) entry.2 := by
      intro t less entry mem
      have above := (tied.links.listed mem).2
      split
      · next missing => exact Less.delete less.tied (tied.inner above) missing
      · next present =>
        have lower := drops entry.2 l above
        obtain ⟨more, clean⟩ := ih (s := t) (l := entry.2) less.tied
          (fun k p edge => drops k p (parent_of_fewer less.fewer edge))
          (fun k => by
            have bound := enough k
            omega)
        exact ⟨more, .inr ⟨mt more.missing_iff.mp present, clean⟩⟩
    obtain ⟨less, cleared⟩ := foldl_cleared each (.refl tied)
    refine ⟨less, fun k higher other => ?_⟩
    rcases Relation.ReflTransGen.cases_tail higher with same | ⟨c, below, edge⟩
    · exact absurd same.symm other
    · have listed := tied.links.linked id (parent_of_fewer less.fewer edge)
      rcases cleared _ listed with gone | ⟨present, clean⟩
      · rw [Forest.place_eq_some.mpr ⟨edge, rfl⟩] at gone
        cases gone
      · by_cases here : k = c
        · exact here ▸ present
        · exact clean k below here

/-- What the scan has not come across is deleted, and nothing else. -/
theorem Inv.dropped {env : Environment} {disk : Disk} {start : State}
    (inv : Inv env disk start s) :
    Mirroring.Dropped localroot (Seen s) (nodes s) (nodes s.activate) := by
  have tied : Tied (State.bytes { s with scanseqno := s.scanseqno + 1 }) s.forest := inv.tied
  obtain ⟨rank, drops, bounded⟩ := inv.tied.links.ranked
  obtain ⟨less, clean⟩ := deletemissing_less (s := { s with scanseqno := s.scanseqno + 1 })
    (l := localroot) (s.forest.next + 1) tied drops fun k =>
      Nat.lt_of_lt_of_le (bounded k) (Nat.le_add_right _ _)
  have missing_iff : ∀ {k}, k ∈ s.bytes.live → k ≠ localroot →
      (Missing { s with scanseqno := s.scanseqno + 1 } k ↔ ¬Seen s k) := by
    intro k mem inner
    have earlier := inv.earlier k mem
    have seen : Seen s k ↔ s.seqnos k = s.scanseqno :=
      (or_iff_right inner).trans (and_iff_right mem)
    rw [seen, Missing]
    dsimp only
    omega
  have present : ∀ {k}, Seen s k → ∀ m, ParentForest.AtOrAbove s.forest.parent m k →
      m ≠ localroot → ¬Missing { s with scanseqno := s.scanseqno + 1 } m := by
    intro k seen m higher inner missing
    rw [← Forest.parentOf_place] at higher
    have reached := inv.mirror.above_seen seen higher
    exact (missing_iff (inv.live_of_seen reached) inner).mp missing reached
  refine ⟨less.fewer, fun {k} higher => ?_, fun seen => (less.kept _ (present seen)).1,
    fun {k} seen => ?_⟩
  · by_cases inner : k = localroot
    · exact .inl inner
    · have higher : ParentForest.AtOrAbove s.activate.forest.parent localroot k := by
        rw [← Forest.parentOf_place]
        exact higher
      have mem : k ∈ s.bytes.live := by
        cases above : s.activate.forest.parent k with
        | none => exact absurd (ParentForest.atOrAbove_root above higher).symm inner
        | some p => exact inv.tied.live_of_parent (parent_of_fewer less.fewer above)
      by_contra unseen
      exact clean k higher inner (less.missing_iff.mpr ((missing_iff mem inner).mpr unseen))
  · have ids : s.activate.bytes.fsid k = s.bytes.fsid k := (less.kept _ (present seen)).2
    have locals : s.activate.bytes.locals = s.bytes.locals := less.locals
    simp only [nodes, ids, locals]

end Sweep

/-- A state cache was read and the root is scanned. The `LocalNode`s are those of an earlier scan,
and no folder was replaced by another one since. -/
structure Ready (env : Environment) (disk : Disk) (s : State) : Prop where
  tied : Tied s.bytes s.forest
  folders : ∀ k p, s.forest.parent k = some p → p = localroot ∨ (s.bytes.locals p).type = .folder
  fits : Mirroring.Fits disk localroot (nodes s)
  fullscan : s.bytes.fullscan = true
  stale : ∀ k ∈ s.bytes.live, k ≠ localroot → s.seqnos k < s.scanseqno
  root : s.seqnos localroot ≤ s.scanseqno
  queued : s.notifyq = listing env []

section Scans
variable {env : Environment} {disk : Disk} {s : State} {k m : LocalRef}

/-- The id of a `LocalNode` is its own. -/
theorem Tied.fsid_unique (tied : Tied s.bytes s.forest) (placed : (s.forest.place k).isSome)
    (other : (s.forest.place m).isSome) (same : s.bytes.fsid k = s.bytes.fsid m) : k = m := by
  obtain ⟨mem, inner⟩ := tied.live_of_place placed
  obtain ⟨mem', inner'⟩ := tied.live_of_place other
  obtain ⟨⟨fsid, it⟩, holds⟩ := Option.isSome_iff_exists.mp (tied.held k mem inner)
  obtain ⟨n, here, -, id⟩ := FsIds.Client.held_eq_some.mp holds
  have own : s.bytes.fsid k = some fsid := by rw [LocalBytes.State.fsid, here, Option.map_some, id]
  have found := tied.lookup_iff.mpr ⟨mem, inner, own⟩
  have found' := tied.lookup_iff.mpr ⟨mem', inner', same.symm.trans own⟩
  exact Option.some.inj (found.symm.trans found')

theorem Ready.tree (ready : Ready env disk s) : Mirroring.Tree localroot (nodes s) where
  top := by
    change s.forest.place localroot = none
    rw [Forest.place, ready.tied.root, Option.map_none]
  acyclic := (Forest.parentOf_place s.forest).symm ▸ ready.tied.links.acyclic
  injective := ready.tied.links.injective
  inside {n p name} here := by
    have above := (Forest.place_eq_some.mp here).1
    by_cases inner : p = localroot
    · exact .inl inner
    · have placed := ((live_iff ready.tied).mp (ready.tied.inside above)).resolve_left inner
      exact .inr ⟨placed, decide_eq_true ((ready.folders n p above).resolve_left inner)⟩
  unique placed other same := ready.tied.fsid_unique placed other same

theorem Ready.seen_iff (ready : Ready env disk s) : Seen s = fun k => k = localroot := by
  funext k
  refine propext (or_iff_left_of_imp fun found => ?_)
  by_contra inner
  exact Int.ne_of_lt (ready.stale k found.1 inner) found.2

/-- At first the scan has come across the root only, and its entries are in the queue. -/
theorem Ready.inv (ready : Ready env disk s) (shows : Shows env disk) : Inv env disk s s := by
  have tree := ready.tree
  have seen := ready.seen_iff
  have top : ∀ {own}, Leads s.forest.place localroot own localroot → own = [] := fun leads =>
    Leads.path_unique tree.top leads rfl
  refine ⟨ready.tied, ?mirror, ready.fullscan, fun k mem => ?earlier, fun entry mem => ?due, ?nodup,
    fun p path name i reached leads item => ?closed⟩
  case mirror =>
    rw [seen]
    exact .initial tree ready.fits
  case earlier =>
    by_cases inner : k = localroot
    · exact inner ▸ ready.root
    · exact Int.le_of_lt (ready.stale k mem inner)
  case due =>
    rw [ready.queued] at mem
    obtain ⟨name, rfl, item⟩ := (shows.listed [] entry (.inl rfl)).mp mem
    obtain ⟨i, item⟩ := Option.isSome_iff_exists.mp item
    refine ⟨localroot, [], name, i, rfl, .inl rfl, rfl, item, fun m reached leads => ?_⟩
    rw [seen] at reached
    obtain rfl := reached
    cases top leads
  case nodup =>
    rw [ready.queued]
    exact shows.nodup []
  case closed =>
    rw [seen] at reached
    obtain rfl := reached
    obtain rfl := top leads
    rw [ready.queued]
    exact .inr ((shows.listed [] _ (.inl rfl)).mpr ⟨name, rfl, by rw [item]; rfl⟩)

end Scans

end MegaSdk.Sync.FullScan
