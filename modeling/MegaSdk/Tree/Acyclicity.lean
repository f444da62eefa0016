import MegaSdk.Tree.Outline
import MegaSdk.Lib.Runs

/-!
# Records that keep the tree a tree

`readnodes` links what the records say. `setparent` walks up from the new parent and, if no
part of the way is synced, down through the node, so it returns as long as the links form a
forest. They do exactly as long as no link has its new parent at or below the node.
-/

namespace MegaSdk.Tree

open ParentForest Runs

namespace Heap
variable {h : Heap}

/-- A loop all of whose rounds return. -/
theorem foldlM_returns {σ α : Type} {step : σ → α → Option σ} {P : σ → Prop} {xs : List α}
    (returns : ∀ s, ∀ x ∈ xs, P s → ∃ s', step s x = some s' ∧ P s') {s : σ} (start : P s) :
    ∃ s', xs.foldlM step s = some s' ∧ P s' := by
  induction xs generalizing s with
  | nil => exact ⟨s, rfl, start⟩
  | cons x xs ih =>
    obtain ⟨mid, first, good⟩ := returns s x List.mem_cons_self start
    obtain ⟨s', rest, final⟩ := ih (fun s y mem => returns s y (List.mem_cons_of_mem x mem)) good
    refine ⟨s', ?_, final⟩
    rw [List.foldlM_cons, first]
    exact rest

theorem foldlM_part {σ α : Type} {step : σ → α → Option σ} {done rest : List α} {s s' : σ}
    (whole : (done ++ rest).foldlM step s = some s') : ∃ mid, done.foldlM step s = some mid := by
  rw [List.foldlM_append] at whole
  obtain ⟨mid, first, -⟩ := Option.bind_eq_some_iff.mp whole
  exact ⟨mid, first⟩

/-- The parents are the nodes below `next`. -/
theorem Wired.bounded (wired : h.Wired) (acyclic : Acyclic h.parent) :
    ∃ rank : Ref → Nat, (∀ n p, h.parent n = some p → rank p < rank n) ∧
      ∀ n, rank n ≤ h.next := by
  have finite : ∀ n p, h.parent n = some p → p ∈ Finset.range h.next := by
    intro n p owner
    exact Finset.mem_range.mpr (wired.allocated _ p (wired.ends n p owner).2)
  have ranked := acyclic.bounded finite
  rwa [Finset.card_range] at ranked

section Ranked
variable {rank : Ref → Nat} (drops : ∀ n p, h.parent n = some p → rank p < rank n)
include drops

theorem walk_returns {fuel : Nat} {p : Ref} (enough : rank p + 1 < fuel) :
    ∃ stop, h.walk fuel (some p) = some stop := by
  induction fuel generalizing p with
  | zero => omega
  | succ fuel ih =>
    rw [walk]
    split
    · exact ⟨some p, rfl⟩
    · cases above : h.parent p with
      | none =>
        obtain ⟨fuel, rfl⟩ : ∃ f, fuel = f + 1 := ⟨fuel - 1, by omega⟩
        exact ⟨none, rfl⟩
      | some q =>
        have lower := drops p q above
        exact ih (by omega)

/-- Below a node the ranks rise to the bound. -/
theorem proctree_returns (wired : h.Wired) {bound : Nat} (bounded : ∀ n, rank n ≤ bound)
    {proc : Ref → Heap → Heap} (framed : ∀ n h, Framed h (proc n h)) {fuel : Nat} {n : Ref}
    (enough : bound < rank n + fuel) {h' : Heap} (same : Framed h h') :
    ∃ h'', proctree proc fuel n h' = some h'' ∧ Framed h h'' := by
  induction fuel generalizing n h' with
  | zero =>
    have := bounded n
    omega
  | succ fuel ih =>
    have inner : ∃ mid, (if (h'.data n).type = fileNode then mid = h'
        else (h'.children n).foldlM (fun h c => proctree proc fuel c h) h' = some mid) ∧
          Framed h mid := by
      split
      · exact ⟨h', rfl, same⟩
      · refine foldlM_returns (P := Framed h) ?_ same
        intro x c mem frame
        rw [same.children] at mem
        have owner : h.parent c = some n := (wired.linked.mem_iff c n).mpr mem
        have lower := drops c n owner
        exact ih (by omega) frame
    obtain ⟨mid, visited, frame⟩ := inner
    exact ⟨proc n mid, proctree_eq_some_iff.mpr ⟨mid, rfl, visited⟩, frame.trans (framed n mid)⟩

end Ranked

theorem Wired.cancelGets_returns (wired : h.Wired) (acyclic : Acyclic h.parent) {fuel : Nat}
    (enough : h.next + 1 < fuel) (n p : Ref) : ∃ h', h.cancelGets fuel n p = some h' := by
  obtain ⟨rank, drops, bounded⟩ := wired.bounded acyclic
  have walks : rank p + 1 < fuel := Nat.lt_of_le_of_lt (Nat.succ_le_succ (bounded p)) enough
  have descends : h.next < rank n + fuel :=
    Nat.lt_of_lt_of_le (Nat.lt_of_succ_lt enough) (Nat.le_add_left _ _)
  obtain ⟨stop, walked⟩ := walk_returns drops walks
  rw [cancelGets]
  split
  · rw [walked]
    cases stop with
    | some q => exact ⟨h, rfl⟩
    | none =>
      obtain ⟨h', visited, -⟩ := proctree_returns drops wired bounded
        (fun n h => (quiet_treeProcDelSyncGet n h).toFramed) descends (.refl h)
      exact ⟨h', visited⟩
  · exact ⟨h, rfl⟩

/-- `setparent` returns if it leaves a forest. -/
theorem Wired.setparent_returns (wired : h.Wired) {n p : Ref} (live : h.InNodes n)
    (above : h.InNodes p)
    (acyclic : Acyclic
      (Function.update h.up (h.data n).nodehandle (some (h.data p).nodehandle))) {fuel : Nat}
    (enough : h.next + 1 < fuel) : ∃ moved h', h.setparent fuel n p = some (moved, h') := by
  rw [setparent]
  split
  · exact ⟨false, h, rfl⟩
  · have relinked := wired.relink live above
    have forest : Acyclic (h.relink n p).parent := by
      rw [relinked.parent_acyclic_iff, wired.up_relink live]
      exact acyclic
    obtain ⟨h', cancelled⟩ := relinked.cancelGets_returns forest enough n p
    exact ⟨true, h', by rw [cancelled]; rfl⟩

end Heap

namespace Outline
variable (o : Outline)

/-- The new parent is not at or below the node; nothing is linked below an unknown parent. -/
def Upward (n p : Handle) : Prop := o.known p = true → ¬AtOrAbove o.parent n p

def RecordUpward (r : Record) : Prop := o.places r = true → (o.prepare r).Upward r.h r.ph

def DeferredUpward (e : Handle × Handle) : Prop := o.Upward e.1 e.2

/-- Every link that the records make, in the order in which they are made, has its new parent
neither at nor below the node. -/
structure Harmless (rs : List Record) : Prop where
  records : Meets record RecordUpward o rs
  deferred : Meets deferred DeferredUpward (rs.foldl record o) (rs.foldl record o).dp.reverse

variable {o}

theorem acyclic_place_iff (acyclic : Acyclic o.parent) (n ph : Handle) :
    Acyclic (o.place n ph).parent ↔ o.Upward n ph := by
  rw [place, Upward]
  split
  · rename_i known
    simp only [known, forall_const]
    exact acyclic_update_iff acyclic n ph
  · rename_i unknown
    exact ⟨fun _ known => absurd known unknown, fun _ => acyclic⟩

theorem acyclic_record_iff (acyclic : Acyclic o.parent) (r : Record) :
    Acyclic (o.record r).parent ↔ o.RecordUpward r := by
  rw [record, RecordUpward]
  split
  · rename_i placed
    simp only [placed, forall_const]
    exact acyclic_place_iff (o := o.prepare r) acyclic r.h r.ph
  · rename_i unplaced
    refine ⟨fun _ placed => absurd placed unplaced, fun _ => ?_⟩
    split <;> exact acyclic

theorem acyclic_deferred_iff (acyclic : Acyclic o.parent) (e : Handle × Handle) :
    Acyclic (o.deferred e).parent ↔ o.DeferredUpward e := by
  rw [deferred, DeferredUpward, Upward]
  split
  · rename_i known
    simp only [known, forall_const]
    exact acyclic_update_iff acyclic e.1 e.2
  · rename_i unknown
    exact ⟨fun _ known => absurd known unknown, fun _ => acyclic⟩

/-- The outline is a forest all the time exactly if every link is harmless. -/
theorem always_iff_harmless (acyclic : Acyclic o.parent) (rs : List Record) :
    Always record (fun o => Acyclic o.parent) o rs ∧
      Always deferred (fun o => Acyclic o.parent) (rs.foldl record o)
        (rs.foldl record o).dp.reverse ↔ o.Harmless rs := by
  have records := always_iff_meets (fun o r good => acyclic_record_iff (o := o) good r) acyclic rs
  have pass : Acyclic (rs.foldl record o).parent → ∀ dp, _ ↔ _ := fun good dp =>
    always_iff_meets (fun o e good => acyclic_deferred_iff (o := o) good e) good dp
  constructor
  · rintro ⟨first, second⟩
    exact ⟨records.mp first, (pass first.at_end _).mp second⟩
  · rintro ⟨first, second⟩
    have always := records.mpr first
    exact ⟨always, (pass always.at_end _).mpr second⟩

end Outline

namespace Reading
variable {s s' : Reading}

theorem Sound.place_returns (sound : s.Sound) {fuel : Nat} {n : Ref} {ph : Handle}
    (live : s.heap.InNodes n)
    (acyclic : Acyclic (s.outline.place (s.heap.data n).nodehandle ph).parent)
    (enough : s.heap.next + 1 < fuel) : ∃ s', s.place fuel n ph = some s' := by
  rw [Reading.place]
  split
  · rename_i p found
    have wired := sound.consistent.toWired
    have above := wired.inNodes found
    have known : s.outline.known ph = true := Option.isSome_iff_exists.mpr ⟨p, found⟩
    have handle : (s.heap.data p).nodehandle = ph := wired.handles ph p found
    rw [Outline.place, if_pos known, Outline.link, ← handle] at acyclic
    obtain ⟨moved, h', linked⟩ := wired.setparent_returns live above acyclic enough
    exact ⟨{ s with heap := h' }, by rw [linked]; rfl⟩
  · exact ⟨_, rfl⟩

theorem Settled.resurrect_returns (settled : s.Settled) {fuel : Nat} {n : Ref} {r : Record}
    (found : s.heap.nodes r.h = some n) (marked : (s.heap.data n).removed = true)
    (accepted : r.accepted = true) (acyclic : Acyclic (s.outline.record r).parent)
    (enough : s.heap.next + 1 < fuel) : ∃ s', s.resurrect fuel n r.ph = some s' := by
  have wired := settled.consistent.toWired
  have live := wired.inNodes found
  have handle : (s.heap.data n).nodehandle = r.h := wired.handles r.h n found
  have quiet := Heap.quiet_unremove s.heap n
  rw [Reading.resurrect]
  split
  · exact ⟨_, rfl⟩
  · rename_i given
    have removed : s.outline.removed r.h = true := by
      change (s.heap.nodes r.h).any _ = true
      rw [found, Option.any_some, marked]
    have places : s.outline.places r = true := by
      simp [Outline.places, accepted, removed, given]
    rw [Outline.record, if_pos places] at acyclic
    have present := (quiet.inNodes_iff n).mpr live
    refine (settled.toSound.withQuiet quiet).place_returns present ?_ enough
    rw [settled.outline_revived found, quiet.nodehandle, handle]
    exact acyclic

theorem Settled.construct_returns (settled : s.Settled) {fuel : Nat} {r : Record}
    (unknown : s.heap.nodes r.h = none) (accepted : r.accepted = true)
    (acyclic : Acyclic (s.outline.record r).parent) (enough : s.heap.next + 2 < fuel) :
    ∃ s', s.construct fuel r = some s' := by
  have missing : s.outline.known r.h = false := by
    change (s.heap.nodes r.h).isSome = false
    rw [unknown, Option.isSome_none]
  have places : s.outline.places r = true := by
    simp [Outline.places, accepted, missing]
  rw [Outline.record, if_pos places] at acyclic
  refine (settled.toSound.created unknown).place_returns
    (Heap.inNodes_new s.heap r.h r.ph r.t) ?_ enough
  rw [settled.outline_created unknown, Heap.nodehandle_new]
  exact acyclic

/-- A record that leaves a forest returns. -/
theorem Settled.record_returns (settled : s.Settled) {fuel : Nat} (notify : Bool)
    (put : Option Put) {r : Record} (acyclic : Acyclic (s.outline.record r).parent)
    (enough : s.heap.next + 2 < fuel) :
    ∃ s', Reading.record fuel notify put s r = some s' := by
  rw [Reading.record]
  split
  · rename_i accepted
    split
    · rename_i n found
      split
      · rename_i marked
        obtain ⟨mid, revived⟩ := settled.resurrect_returns found marked accepted acyclic
          (Nat.lt_of_succ_lt enough)
        exact ⟨_, by rw [revived]; rfl⟩
      · exact ⟨_, rfl⟩
    · rename_i missing
      obtain ⟨mid, constructed⟩ := settled.construct_returns missing accepted acyclic enough
      exact ⟨_, by rw [constructed]; rfl⟩
  · exact ⟨s, rfl⟩

theorem next_place {fuel : Nat} {n : Ref} {ph : Handle} (done : s.place fuel n ph = some s') :
    s'.heap.next = s.heap.next := by
  rw [place] at done
  split at done
  · obtain ⟨⟨moved, h'⟩, linked, rfl⟩ := Option.map_eq_some_iff.mp done
    obtain ⟨links, alike⟩ := Heap.setparent_alike linked
    exact alike.next
  · obtain rfl := Option.some.inj done
    rfl

/-- A record makes at most one node. -/
theorem next_record {fuel : Nat} {notify : Bool} {put : Option Put} {r : Record}
    (done : Reading.record fuel notify put s r = some s') : s'.heap.next ≤ s.heap.next + 1 := by
  have notified : ∀ (x : Reading) n, (x.notify notify n).heap.next = x.heap.next := by
    intro x n
    rw [Reading.notify]
    split
    · exact (Heap.framed_notifynode x.heap n).next
    · rfl
  rw [Reading.record] at done
  split at done
  · split at done
    · obtain ⟨mid, revived, rfl⟩ := Option.map_eq_some_iff.mp done
      rw [notified]
      split at revived
      · rw [resurrect] at revived
        split at revived
        · obtain rfl := Option.some.inj revived
          exact Nat.le_succ _
        · rw [next_place revived]
          exact Nat.le_succ _
      · obtain rfl := Option.some.inj revived
        exact Nat.le_succ _
    · obtain ⟨mid, constructed, rfl⟩ := Option.map_eq_some_iff.mp done
      rw [notified, (quiet_associate mid put s.heap.next r.h).1.next, next_place constructed]
      exact le_rfl
  · obtain rfl := Option.some.inj done
    exact Nat.le_succ _

/-- The loop over the records returns if every part of it leaves a forest. -/
theorem Settled.records_return (settled : s.Settled) {fuel : Nat} (notify : Bool)
    (put : Option Put) {rs : List Record}
    (always : Always Outline.record (fun o => Acyclic o.parent) s.outline rs)
    (enough : s.heap.next + rs.length + 2 < fuel) :
    ∃ s', rs.foldlM (Reading.record fuel notify put) s = some s' ∧
      s'.heap.next ≤ s.heap.next + rs.length := by
  induction rs generalizing s with
  | nil => exact ⟨s, rfl, le_rfl⟩
  | cons r rs ih =>
    rw [List.length_cons] at enough
    have here : s.heap.next + 2 < fuel := by omega
    obtain ⟨mid, first⟩ := settled.record_returns notify put always.next here
    obtain ⟨good, same⟩ := settled.record first
    have grown := next_record first
    obtain ⟨s', rest, bound⟩ := ih good (by rw [same]; exact always.2) (by omega)
    refine ⟨s', ?_, ?_⟩
    · rw [List.foldlM_cons, first]
      exact rest
    · rw [List.length_cons]
      omega

/-- A child that leaves a forest returns. -/
theorem deferred_returns {h : Heap} (wired : h.Wired) {n : Ref} (live : h.InNodes n)
    {dp : List Ref} (acyclic : Acyclic ((h.outline dp).deferred (h.waits n)).parent) {fuel : Nat}
    (enough : h.next + 1 < fuel) : ∃ h', deferred fuel h n = some h' := by
  rw [deferred]
  split
  · rename_i p found
    have above := wired.inNodes found
    have known : (h.outline dp).known (h.waits n).2 = true :=
      Option.isSome_iff_exists.mpr ⟨p, found⟩
    have handle : (h.data p).nodehandle = (h.waits n).2 := wired.handles _ p found
    rw [Outline.deferred, if_pos known, Outline.link, ← handle] at acyclic
    obtain ⟨moved, h', linked⟩ := wired.setparent_returns live above acyclic enough
    exact ⟨h', by rw [linked]; rfl⟩
  · exact ⟨h, rfl⟩

/-- The pass over the children returns if every part of it leaves a forest. -/
theorem deferrals_return {h : Heap} (consistent : h.Consistent) {ns : List Ref}
    (live : ∀ n ∈ ns, h.InNodes n) {dp : List Ref}
    (always : Always Outline.deferred (fun o => Acyclic o.parent) (h.outline dp) (ns.map h.waits))
    {fuel : Nat} (enough : h.next + 1 < fuel) : ∃ h', ns.foldlM (deferred fuel) h = some h' := by
  induction ns generalizing h with
  | nil => exact ⟨h, rfl⟩
  | cons n ns ih =>
    have here := live n List.mem_cons_self
    obtain ⟨mid, first⟩ := deferred_returns consistent.toWired here always.next enough
    obtain ⟨good, same⟩ := deferred_consistent consistent here first
    obtain ⟨waits, next⟩ := waits_deferred first
    have step := outline_deferred consistent.toWired here first dp
    obtain ⟨h', rest⟩ := ih good
      (fun m mem => (same m).mpr (live m (List.mem_cons_of_mem n mem)))
      (by rw [step, waits]; exact always.2) (by rw [next]; exact enough)
    refine ⟨h', ?_⟩
    rw [List.foldlM_cons, first]
    exact rest

end Reading

/-- `readnodes` returns and leaves a forest, and the links are a forest all the time: after
every record and after every child that was waiting. -/
structure StaysForest (fuel : Nat) (notify : Bool) (put : Option Put) (rs : List Record) (h : Heap)
    (uploads : Uploads) : Prop where
  returns : ∃ s, readnodes fuel notify put rs h uploads = some s ∧ Acyclic s.heap.parent
  records : ∀ done rest, rs = done ++ rest → ∀ s,
    readrecords fuel notify put done h uploads = some s → Acyclic s.heap.parent
  deferred : ∀ s, readrecords fuel notify put rs h uploads = some s →
    ∀ done rest, s.dp.reverse = done ++ rest → ∀ h',
      done.foldlM (Reading.deferred fuel) s.heap = some h' → Acyclic h'.parent

section Forest
variable {h : Heap} (consistent : h.Consistent) {fuel : Nat} {notify : Bool} {put : Option Put}
    {rs : List Record} {uploads : Uploads}
include consistent

/-- The links after the records are those of the outline. -/
theorem acyclic_readrecords_iff {s : Reading}
    (done : readrecords fuel notify put rs h uploads = some s) :
    Acyclic s.heap.parent ↔ Acyclic (run Outline.record (h.outline []) rs).parent := by
  obtain ⟨settled, same⟩ := (Reading.settled_start consistent uploads).records done
  rw [settled.consistent.toWired.parent_acyclic_iff]
  have up : s.heap.up = (run Outline.record (h.outline []) rs).parent :=
    congrArg Outline.parent same
  rw [up]

omit consistent in
theorem acyclic_deferrals_iff {s : Reading} (settled : s.Settled) {ns rest : List Ref}
    (split : s.dp.reverse = ns ++ rest) {h' : Heap}
    (pass : ns.foldlM (Reading.deferred fuel) s.heap = some h') :
    Acyclic h'.parent ↔ Acyclic (run Outline.deferred s.outline (ns.map s.heap.waits)).parent := by
  have live : ∀ n ∈ ns, s.heap.InNodes n := by
    intro n mem
    refine settled.waiting n (List.mem_reverse.mp ?_)
    rw [split]
    exact List.mem_append_left rest mem
  have good := Reading.deferrals_consistent settled.consistent live pass
  have up : h'.up = (run Outline.deferred s.outline (ns.map s.heap.waits)).parent :=
    congrArg Outline.parent (Reading.outline_deferrals settled.consistent live pass s.dp)
  rw [good.toWired.parent_acyclic_iff, up]

omit consistent in
/-- The pass over the children is that of the outline. -/
theorem always_deferred_iff {s : Reading} :
    Always Outline.deferred (fun o => Acyclic o.parent) s.outline s.outline.dp.reverse ↔
      ∀ ns rest, s.dp.reverse = ns ++ rest →
        Acyclic (run Outline.deferred s.outline (ns.map s.heap.waits)).parent := by
  have pending : s.outline.dp.reverse = s.dp.reverse.map s.heap.waits := List.map_reverse.symm
  rw [pending, always_iff_parts]
  constructor
  · intro each ns rest split
    refine each _ (rest.map s.heap.waits) ?_
    rw [split, List.map_append]
  · intro each part rest split
    obtain ⟨ns, others, whole, rfl, rfl⟩ := List.map_eq_append_iff.mp split
    exact each ns others whole

/-- `readnodes` on a forest returns and keeps it a forest all the time, exactly if every link it
makes is harmless. -/
theorem staysForest_iff_harmless (acyclic : Acyclic h.parent) :
    (∃ fuel, StaysForest fuel notify put rs h uploads) ↔ (h.outline []).Harmless rs := by
  have start := Reading.settled_start consistent uploads
  have forest : Acyclic (h.outline []).parent := consistent.toWired.parent_acyclic_iff.mp acyclic
  rw [← Outline.always_iff_harmless forest]
  constructor
  · rintro ⟨fuel, ⟨s, done, -⟩, records, deferred⟩
    rw [readnodes] at done
    split at done
    · cases done
    · rename_i mid loop
      obtain ⟨settled, same⟩ := start.records loop
      obtain ⟨h', pass, -⟩ := Option.map_eq_some_iff.mp done
      have read : rs.foldl Outline.record (h.outline []) = mid.outline := same.symm
      rw [read]
      refine ⟨always_iff_parts.mpr ?_, always_deferred_iff.mpr ?_⟩
      · intro part rest split
        obtain ⟨x, reads⟩ := Heap.foldlM_part (split ▸ loop)
        exact (acyclic_readrecords_iff consistent reads).mp (records part rest split x reads)
      · intro ns rest split
        obtain ⟨x, part⟩ := Heap.foldlM_part (split ▸ pass)
        exact (acyclic_deferrals_iff settled split part).mp (deferred mid loop ns rest split x part)
  · rintro ⟨first, second⟩
    refine ⟨h.next + rs.length + 3, ?_⟩
    obtain ⟨mid, loop, grown⟩ := start.records_return notify put first (Nat.lt_succ_self _)
    obtain ⟨settled, same⟩ := start.records loop
    have read : rs.foldl Outline.record (h.outline []) = mid.outline := same.symm
    rw [read] at second
    have live : ∀ n ∈ mid.dp.reverse, mid.heap.InNodes n :=
      fun n mem => settled.waiting n (List.mem_reverse.mp mem)
    have size : mid.heap.next + 1 < h.next + rs.length + 3 := by
      change mid.heap.next ≤ h.next + rs.length at grown
      omega
    have each := always_deferred_iff.mp second
    have waiting : Always Outline.deferred (fun o => Acyclic o.parent) (mid.heap.outline mid.dp)
        (mid.dp.reverse.map mid.heap.waits) := by
      rw [List.map_reverse]
      exact second
    obtain ⟨h', pass⟩ := Reading.deferrals_return settled.consistent live waiting size
    have reads : readrecords (h.next + rs.length + 3) notify put rs h uploads = some mid := loop
    refine ⟨⟨{ mid with heap := h' }, ?_, ?_⟩, ?_, ?_⟩
    · rw [readnodes, reads]
      simp only [pass, Option.map_some]
    · exact (acyclic_deferrals_iff settled (List.append_nil _).symm pass).mpr
        (each _ [] (List.append_nil _).symm)
    · intro part rest split x part_reads
      exact (acyclic_readrecords_iff consistent part_reads).mpr
        (always_iff_parts.mp first part rest split)
    · intro x again ns rest split h'' part
      obtain rfl : x = mid := Option.some.inj (again.symm.trans reads)
      exact (acyclic_deferrals_iff settled split part).mpr (each ns rest split)

end Forest

namespace Heap
variable {h h' : Heap}

/-- No node has a `LocalNode`. -/
def Unsynced (h : Heap) : Prop := ∀ n, (h.data n).localnode = none

/-- A walk in a part of the tree that has no root does not end. -/
theorem walk_endless (unsynced : h.Unsynced) {S : Ref → Prop}
    (closed : ∀ b, S b → ∃ q, h.parent b = some q ∧ S q) (fuel : Nat) {p : Ref} (inside : S p) :
    h.walk fuel (some p) = none := by
  induction fuel generalizing p with
  | zero => rfl
  | succ fuel ih =>
    obtain ⟨q, above, still⟩ := closed p inside
    rw [walk, unsynced p, Option.isSome_none, if_neg Bool.false_ne_true, above]
    exact ih still

/-- `setparent` below the node itself does not return. -/
theorem setparent_endless (unsynced : h.Unsynced) (acyclic : Acyclic h.parent) {n p : Ref}
    (below : AtOrAbove h.parent n p) (fuel : Nat) : h.setparent fuel n p = none := by
  have elsewhere : h.parent n ≠ some p := by
    intro there
    obtain ⟨rank, drops⟩ := acyclic
    have lower := drops n p there
    have upper := rank_le_of_atOrAbove drops below
    omega
  have closed : ∀ b, AtOrAbove h.parent n b →
      ∃ q, (h.relink n p).parent b = some q ∧ AtOrAbove h.parent n q := by
    intro b under
    rw [parent_relink]
    exact exists_parent_update below under
  have stuck : (h.relink n p).cancelGets fuel n p = none := by
    have alone : (h.relink n p).Unsynced := unsynced
    rw [cancelGets, alone n, Option.isNone_none, Bool.true_or, if_pos rfl,
      walk_endless alone closed fuel below]
  rw [setparent, if_neg elsewhere, stuck]
  rfl

theorem unsynced_modify (unsynced : h.Unsynced) (n : Ref) {f : NodeData → NodeData}
    (localnode : ∀ d, (f d).localnode = d.localnode) : (h.modify n f).Unsynced := by
  intro m
  rw [data_modify]
  split
  · exact (localnode _).trans (unsynced m)
  · exact unsynced m

theorem unsynced_notifynode (unsynced : h.Unsynced) (n : Ref) : (h.notifynode n).Unsynced := by
  have still : h.unsync n = h := by
    rw [unsync, unsynced n]
  rw [notifynode, still, enqueue]
  split
  · exact unsynced
  · have marked : (h.modify n fun d => { d with notified := true }).Unsynced :=
      unsynced_modify unsynced n fun _ => rfl
    exact marked

theorem unsynced_treeProcDelSyncGet (n : Ref) (h : Heap) (unsynced : h.Unsynced) :
    (treeProcDelSyncGet n h).Unsynced :=
  unsynced_modify unsynced n fun _ => rfl

theorem unsynced_setparent (unsynced : h.Unsynced) {fuel : Nat} {n p : Ref} {moved : Bool}
    (done : h.setparent fuel n p = some (moved, h')) : h'.Unsynced := by
  rw [setparent] at done
  split at done
  · obtain ⟨rfl, rfl⟩ := Prod.mk.inj (Option.some.inj done)
    exact unsynced
  · obtain ⟨mid, cancelled, same⟩ := Option.map_eq_some_iff.mp done
    obtain ⟨rfl, rfl⟩ := Prod.mk.inj same
    have relinked : (h.relink n p).Unsynced := unsynced
    rw [cancelGets] at cancelled
    split at cancelled
    · split at cancelled
      · cases cancelled
      · exact Option.some.inj cancelled ▸ relinked
      · exact proctree_rel (R := fun x y => x.Unsynced → y.Unsynced) (fun _ => id)
          (fun _ _ _ first second => second ∘ first) unsynced_treeProcDelSyncGet cancelled relinked
    · exact Option.some.inj cancelled ▸ relinked

/-- What lies above by handles lies above by pointers. -/
theorem Wired.atOrAbove_of_up (wired : h.Wired) {n p : Ref} (live : h.InNodes n)
    (present : h.InNodes p)
    (above : AtOrAbove h.up (h.data n).nodehandle (h.data p).nodehandle) :
    AtOrAbove h.parent n p := by
  generalize start : (h.data p).nodehandle = k at above
  induction above using Relation.ReflTransGen.head_induction_on generalizing p with
  | refl =>
    obtain rfl := live.eq present start.symm
    exact atOrAbove_refl _ _
  | head step _ ih =>
    change h.up _ = some _ at step
    rw [← start, present.up_eq] at step
    obtain ⟨q, owner, handle⟩ := Option.map_eq_some_iff.mp step
    exact atOrAbove_of_parent owner (ih (wired.ends p q owner).2 handle)

end Heap

/-- No new node has a `LocalNode`. -/
def Put.Unsynced (put : Option Put) : Prop := ∀ p, put = some p → ∀ j, (p.nn j).localnode = none

namespace Reading
variable {s s' : Reading}

theorem unsynced_place (unsynced : s.heap.Unsynced) {fuel : Nat} {n : Ref} {ph : Handle}
    (done : s.place fuel n ph = some s') : s'.heap.Unsynced := by
  rw [place] at done
  split at done
  · obtain ⟨⟨moved, h'⟩, linked, rfl⟩ := Option.map_eq_some_iff.mp done
    exact Heap.unsynced_setparent unsynced linked
  · obtain rfl := Option.some.inj done
    have waiting : (s.heap.modify n fun d => { d with parenthandle := ph }).Unsynced :=
      Heap.unsynced_modify unsynced n fun _ => rfl
    exact waiting

theorem unsynced_create (unsynced : s.heap.Unsynced) (r : Record) :
    (s.heap.create r.h r.ph r.t).Unsynced := by
  intro m
  by_cases new : m = s.heap.next
  · subst new
    simp [Heap.create]
  · simpa [Heap.create, new] using unsynced m

theorem unsynced_record {fuel : Nat} {notify : Bool} {put : Option Put} (alone : Put.Unsynced put)
    {r : Record} (unsynced : s.heap.Unsynced)
    (done : Reading.record fuel notify put s r = some s') : s'.heap.Unsynced := by
  have notified : ∀ (x : Reading) n, x.heap.Unsynced → (x.notify notify n).heap.Unsynced := by
    intro x n still
    rw [Reading.notify]
    split
    · exact Heap.unsynced_notifynode still n
    · exact still
  rw [Reading.record] at done
  split at done
  · split at done
    · rename_i n found
      obtain ⟨mid, revived, rfl⟩ := Option.map_eq_some_iff.mp done
      refine notified _ _ ?_
      split at revived
      · have clear : (s.heap.modify n fun d => { d with removed := false }).Unsynced :=
          Heap.unsynced_modify unsynced n fun _ => rfl
        rw [resurrect] at revived
        split at revived
        · exact Option.some.inj revived ▸ clear
        · exact unsynced_place clear revived
      · exact Option.some.inj revived ▸ unsynced
    · obtain ⟨mid, constructed, rfl⟩ := Option.map_eq_some_iff.mp done
      refine notified _ _ ?_
      have made := unsynced_place (unsynced_create unsynced r) constructed
      cases put with
      | none => exact made
      | some put =>
        simp only [associate, alone put rfl]
        split <;> exact made
  · exact Option.some.inj done ▸ unsynced

/-- Without syncs, a link that returns is harmless. -/
theorem Sound.upward_of_place (sound : s.Sound) (unsynced : s.heap.Unsynced)
    (acyclic : Acyclic s.heap.parent) {fuel : Nat} {n : Ref} {ph : Handle}
    (live : s.heap.InNodes n) (done : s.place fuel n ph = some s') :
    s.outline.Upward (s.heap.data n).nodehandle ph := by
  intro known below
  obtain ⟨p, found⟩ := Option.isSome_iff_exists.mp known
  have wired := sound.consistent.toWired
  have handle : (s.heap.data p).nodehandle = ph := wired.handles ph p found
  have under : AtOrAbove s.heap.parent n p :=
    wired.atOrAbove_of_up live (wired.inNodes found) (by rw [handle]; exact below)
  have lookup : s.heap.nodebyhandle ph = some p := found
  rw [Reading.place, lookup] at done
  simp only [Heap.setparent_endless unsynced acyclic under fuel] at done
  cases done

theorem Settled.upward_of_record (settled : s.Settled) (unsynced : s.heap.Unsynced)
    (acyclic : Acyclic s.heap.parent) {fuel : Nat} {notify : Bool} {put : Option Put} {r : Record}
    (done : Reading.record fuel notify put s r = some s') : s.outline.RecordUpward r := by
  intro places
  have wired := settled.consistent.toWired
  have accepted : r.accepted = true := by
    rw [Outline.places, Bool.and_eq_true] at places
    exact places.1
  rw [Reading.record, if_pos accepted] at done
  split at done
  · rename_i n found
    have live := wired.inNodes found
    have handle : (s.heap.data n).nodehandle = r.h := wired.handles r.h n found
    have known : s.outline.known r.h = true := Option.isSome_iff_exists.mpr ⟨n, found⟩
    have back : s.outline.removed r.h = true ∧ r.ph ≠ undef := by
      simpa [Outline.places, accepted, known] using places
    have marked : (s.heap.data n).removed = true := by
      have mark : (s.heap.nodes r.h).any (fun n => (s.heap.data n).removed) = true := back.1
      rwa [show s.heap.nodes r.h = some n from found, Option.any_some] at mark
    obtain ⟨mid, revived, -⟩ := Option.map_eq_some_iff.mp done
    rw [if_pos marked, Reading.resurrect, if_neg back.2] at revived
    have quiet := Heap.quiet_unremove s.heap n
    have clear : (s.heap.modify n fun d => { d with removed := false }).Unsynced :=
      Heap.unsynced_modify unsynced n fun _ => rfl
    have upward := (settled.toSound.withQuiet quiet).upward_of_place clear
      (by rw [quiet.parent]; exact acyclic) ((quiet.inNodes_iff n).mpr live) revived
    rwa [settled.outline_revived found, quiet.nodehandle, handle] at upward
  · rename_i missing
    obtain ⟨mid, constructed, -⟩ := Option.map_eq_some_iff.mp done
    have created := settled.toSound.created missing
    have forest : Acyclic (s.heap.create r.h r.ph r.t).parent := by
      rwa [created.consistent.toWired.parent_acyclic_iff, wired.up_create missing,
        ← wired.parent_acyclic_iff]
    have upward := created.upward_of_place (unsynced_create unsynced r) forest
      (Heap.inNodes_new s.heap r.h r.ph r.t) constructed
    rwa [settled.outline_created missing, Heap.nodehandle_new] at upward

theorem upward_of_deferred {h h' : Heap} (wired : h.Wired) (unsynced : h.Unsynced)
    (acyclic : Acyclic h.parent) {fuel : Nat} {n : Ref} (live : h.InNodes n)
    (done : deferred fuel h n = some h') (dp : List Ref) :
    (h.outline dp).DeferredUpward (h.waits n) := by
  intro known below
  obtain ⟨p, found⟩ := Option.isSome_iff_exists.mp known
  have handle : (h.data p).nodehandle = (h.waits n).2 := wired.handles _ p found
  have under : AtOrAbove h.parent n p :=
    wired.atOrAbove_of_up live (wired.inNodes found) (by rw [handle]; exact below)
  have lookup : h.nodebyhandle (h.data n).parenthandle = some p := found
  rw [deferred, lookup] at done
  simp only [Heap.setparent_endless unsynced acyclic under fuel] at done
  cases done

theorem Settled.records_harmless (settled : s.Settled) {fuel : Nat} {notify : Bool}
    {put : Option Put} (alone : Put.Unsynced put) (unsynced : s.heap.Unsynced)
    (acyclic : Acyclic s.heap.parent) {rs : List Record}
    (done : rs.foldlM (Reading.record fuel notify put) s = some s') :
    Meets Outline.record Outline.RecordUpward s.outline rs ∧ s'.heap.Unsynced ∧
      Acyclic s'.heap.parent := by
  induction rs generalizing s with
  | nil =>
    obtain rfl := Option.some.inj done
    exact ⟨trivial, unsynced, acyclic⟩
  | cons r rs ih =>
    rw [List.foldlM_cons] at done
    obtain ⟨mid, first, rest⟩ := Option.bind_eq_some_iff.mp done
    obtain ⟨good, same⟩ := settled.record first
    have upward := settled.upward_of_record unsynced acyclic first
    have forest : Acyclic mid.heap.parent := by
      have before : Acyclic s.outline.parent :=
        settled.consistent.toWired.parent_acyclic_iff.mp acyclic
      have after := (Outline.acyclic_record_iff before r).mpr upward
      rw [← same] at after
      exact good.consistent.toWired.parent_acyclic_iff.mpr after
    obtain ⟨meets, final⟩ := ih good (unsynced_record alone unsynced first) forest rest
    rw [same] at meets
    exact ⟨⟨upward, meets⟩, final⟩

theorem deferrals_harmless {h h' : Heap} (consistent : h.Consistent) (unsynced : h.Unsynced)
    (acyclic : Acyclic h.parent) {ns : List Ref} (live : ∀ n ∈ ns, h.InNodes n) {fuel : Nat}
    (done : ns.foldlM (deferred fuel) h = some h') (dp : List Ref) :
    Meets Outline.deferred Outline.DeferredUpward (h.outline dp) (ns.map h.waits) := by
  induction ns generalizing h with
  | nil => trivial
  | cons n ns ih =>
    rw [List.foldlM_cons] at done
    obtain ⟨mid, first, rest⟩ := Option.bind_eq_some_iff.mp done
    have here := live n List.mem_cons_self
    have wired := consistent.toWired
    obtain ⟨good, same⟩ := deferred_consistent consistent here first
    have step := outline_deferred wired here first dp
    have upward := upward_of_deferred wired unsynced acyclic here first dp
    have forest : Acyclic mid.parent := by
      have before : Acyclic (h.outline dp).parent := wired.parent_acyclic_iff.mp acyclic
      have after := (Outline.acyclic_deferred_iff before _).mpr upward
      rw [← step] at after
      exact good.toWired.parent_acyclic_iff.mpr after
    have still : mid.Unsynced := by
      rw [deferred] at first
      split at first
      · obtain ⟨⟨moved, x⟩, linked, rfl⟩ := Option.map_eq_some_iff.mp first
        exact Heap.unsynced_setparent unsynced linked
      · exact Option.some.inj first ▸ unsynced
    have more := ih good still forest
      (fun m mem => (same m).mpr (live m (List.mem_cons_of_mem n mem))) rest
    rw [step, (waits_deferred first).1] at more
    exact ⟨upward, more⟩

end Reading

/-- Without syncs, `readnodes` only returns if every link it makes is harmless. -/
theorem harmless_of_returns {h : Heap} (consistent : h.Consistent) (acyclic : Acyclic h.parent)
    (unsynced : h.Unsynced) {put : Option Put} (alone : Put.Unsynced put) {fuel : Nat}
    {notify : Bool} {rs : List Record} {uploads : Uploads} {s : Reading}
    (done : readnodes fuel notify put rs h uploads = some s) : (h.outline []).Harmless rs := by
  rw [readnodes] at done
  split at done
  · cases done
  · rename_i mid loop
    have start := Reading.settled_start consistent uploads
    obtain ⟨settled, same⟩ := start.records loop
    obtain ⟨h', pass, -⟩ := Option.map_eq_some_iff.mp done
    obtain ⟨meets, still, forest⟩ := start.records_harmless alone unsynced acyclic loop
    refine ⟨meets, ?_⟩
    have read : rs.foldl Outline.record (h.outline []) = mid.outline := same.symm
    have pending : mid.outline.dp.reverse = mid.dp.reverse.map mid.heap.waits :=
      List.map_reverse.symm
    rw [read, pending]
    exact Reading.deferrals_harmless settled.consistent still forest
      (fun n mem => settled.waiting n (List.mem_reverse.mp mem)) pass mid.dp

/-- `readnodes` on a forest returns and keeps it a forest all the time, exactly if every link it
makes is harmless. In a client without syncs it does not even return otherwise. -/
theorem readnodes_forest_iff {h : Heap} (consistent : h.Consistent) (acyclic : Acyclic h.parent)
    (notify : Bool) (put : Option Put) (rs : List Record) (uploads : Uploads) :
    ((∃ fuel, StaysForest fuel notify put rs h uploads) ↔ (h.outline []).Harmless rs) ∧
      (h.Unsynced → Put.Unsynced put →
        ((∃ fuel s, readnodes fuel notify put rs h uploads = some s ∧ Acyclic s.heap.parent) ↔
          (h.outline []).Harmless rs)) := by
  have stays : (∃ fuel, StaysForest fuel notify put rs h uploads) ↔ (h.outline []).Harmless rs :=
    staysForest_iff_harmless consistent acyclic
  refine ⟨stays, fun unsynced alone => ⟨?_, ?_⟩⟩
  · rintro ⟨fuel, s, done, -⟩
    exact harmless_of_returns consistent acyclic unsynced alone done
  · intro harmless
    obtain ⟨fuel, forest⟩ := stays.mpr harmless
    exact ⟨fuel, forest.returns⟩

theorem Heap.acyclic_empty : Acyclic Heap.empty.parent := by
  refine ⟨fun _ => 0, fun n p linked => ?_⟩
  simp [Heap.parent, Heap.empty, Membership.Links.empty] at linked

theorem Heap.unsynced_empty : Heap.empty.Unsynced := fun _ => rfl

theorem Put.unsynced_none : Put.Unsynced none := by
  intro put given
  cases given

/-- A child before its parent, which is below the root. -/
theorem readnodes_forest_childFirst :
    ∃ fuel, StaysForest fuel true none [folderRecord 3 2, rootRecord, folderRecord 2 1] Heap.empty
      noUploads := by
  have returns : (readnodes 9 true none [folderRecord 3 2, rootRecord, folderRecord 2 1] Heap.empty
      noUploads).isSome = true := by decide +kernel
  obtain ⟨s, done⟩ := Option.isSome_iff_exists.mp returns
  have harmless := harmless_of_returns Heap.consistent_empty Heap.acyclic_empty Heap.unsynced_empty
    Put.unsynced_none done
  exact (readnodes_forest_iff Heap.consistent_empty Heap.acyclic_empty true none _ noUploads).1.mpr
    harmless

/-- A folder that is its own parent, in a client without nodes. -/
theorem readnodes_ownParent_endless :
    Heap.empty.Consistent ∧ Acyclic Heap.empty.parent ∧ (folderRecord 5 5).accepted = true ∧
      ∀ fuel notify, readnodes fuel notify none [folderRecord 5 5] Heap.empty noUploads = none := by
  refine ⟨Heap.consistent_empty, Heap.acyclic_empty, by decide, ?_⟩
  intro fuel notify
  rw [Option.eq_none_iff_forall_ne_some]
  intro s done
  have harmless := harmless_of_returns Heap.consistent_empty Heap.acyclic_empty Heap.unsynced_empty
    Put.unsynced_none done
  have upward := harmless.records.1 (by decide) (by decide)
  exact upward (atOrAbove_refl _ _)

end MegaSdk.Tree
