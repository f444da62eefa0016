import MegaSdk.Tree.ReadNodes

/-!
# The nodes of a `CommandPutNodes`

The response to a `CommandPutNodes` lists the records of its new nodes in order. `readnodes`
counts the nodes that it makes and gives the i-th of them the `LocalNode` and the upload handle
of `nn[i]`. Records that are rejected or that describe nodes already known are not counted.
-/

namespace MegaSdk.Tree

namespace Put
variable (put : Put)

/-- The element has a `LocalNode` or an upload handle to associate. -/
def Associates (j : Nat) : Prop :=
  (put.source = .sync ∧ (put.nn j).localnode.isSome) ∨ (put.nn j).source = .newUpload

instance (j : Nat) : Decidable (put.Associates j) := inferInstanceAs (Decidable (_ ∨ _))

/-- The elements that were looked at lie in the array, and what they have to associate went to
the node of the record at the same place. -/
def OnlyOwn (numnodes : Nat) (rs : List Record) (used : List (Nat × Handle)) : Prop :=
  ∀ e ∈ used, e.1 < numnodes ∧ (put.Associates e.1 → (rs[e.1]?).map Record.h = some e.2)

end Put

/-- The handles of the records that are accepted and not known, in order. -/
def created (known : Handle → Bool) : List Record → List Handle
  | [] => []
  | r :: rs =>
    if r.accepted && !known r.h then r.h :: created (Function.update known r.h true) rs
    else created known rs

/-- The j-th node that is made is that of the j-th record, unless `nn[j]` has nothing to
associate, and there are not more than elements of the array. -/
def Put.Matches (put : Put) (numnodes : Nat) (known : Handle → Bool) (rs done : List Record) :
    Prop :=
  ∀ j k, (created known done)[j]? = some k →
    j < numnodes ∧ (put.Associates j → (rs[j]?).map Record.h = some k)

def Heap.known (h : Heap) (k : Handle) : Bool := (h.nodes k).isSome

namespace Reading

/-- The nodes are the same, and `nn` was not looked at. -/
structure Untouched (s s' : Reading) : Prop where
  nodes : s'.heap.nodes = s.heap.nodes
  used : s'.used = s.used
  i : s'.i = s.i

theorem untouched_place {s s' : Reading} {fuel : Nat} {n : Ref} {ph : Handle}
    (done : s.place fuel n ph = some s') : Untouched s s' := by
  rw [place] at done
  split at done
  · obtain ⟨⟨moved, h'⟩, linked, rfl⟩ := Option.map_eq_some_iff.mp done
    rcases Heap.setparent_cases linked with ⟨-, -, rfl⟩ | ⟨-, -, quiet⟩
    · exact ⟨rfl, rfl, rfl⟩
    · exact ⟨quiet.nodes, rfl, rfl⟩
  · obtain rfl := Option.some.inj done
    exact ⟨rfl, rfl, rfl⟩

theorem untouched_resurrect {s s' : Reading} {fuel : Nat} {n : Ref} {ph : Handle}
    (done : s.resurrect fuel n ph = some s') : Untouched s s' := by
  rw [resurrect] at done
  split at done
  · obtain rfl := Option.some.inj done
    exact ⟨rfl, rfl, rfl⟩
  · obtain ⟨nodes, used, i⟩ := untouched_place done
    exact ⟨nodes, used, i⟩

theorem untouched_notify (s : Reading) (notify : Bool) (n : Ref) :
    Untouched s (s.notify notify n) := by
  rw [Reading.notify]
  split
  · exact ⟨(Heap.framed_notifynode s.heap n).nodes, rfl, rfl⟩
  · exact ⟨rfl, rfl, rfl⟩

section Record
variable {s s' : Reading} {fuel : Nat} {notify : Bool} {put : Put} {r : Record}
    (done : record fuel notify (some put) s r = some s')
include done

/-- A record that is rejected or known leaves `i` alone. -/
theorem record_known (skipped : (r.accepted && !s.heap.known r.h) = false) : Untouched s s' := by
  rw [record] at done
  split at done
  · rename_i accepted
    split at done
    · rename_i n found
      obtain ⟨mid, revived, rfl⟩ := Option.map_eq_some_iff.mp done
      have before : Untouched s mid := by
        split at revived
        · exact untouched_resurrect revived
        · obtain rfl := Option.some.inj revived
          exact ⟨rfl, rfl, rfl⟩
      have after := untouched_notify mid notify n
      exact ⟨after.nodes.trans before.nodes, after.used.trans before.used, after.i.trans before.i⟩
    · rename_i unknown
      simp only [Heap.nodebyhandle] at unknown
      simp [accepted, Heap.known, unknown] at skipped
  · obtain rfl := Option.some.inj done
    exact ⟨rfl, rfl, rfl⟩

/-- A record of a new node takes the next element. -/
theorem record_new (new : (r.accepted && !s.heap.known r.h) = true) :
    s'.heap.known = Function.update s.heap.known r.h true ∧ s'.used = s.used ++ [(s.i, r.h)] ∧
      s'.i = s.i + 1 := by
  rw [Bool.and_eq_true] at new
  rw [record, if_pos new.1] at done
  split at done
  · rename_i n found
    simp only [Heap.nodebyhandle] at found
    simp [Heap.known, found] at new
  · obtain ⟨mid, constructed, rfl⟩ := Option.map_eq_some_iff.mp done
    have placed := untouched_place constructed
    have quiet := (quiet_associate mid (some put) s.heap.next r.h).1
    obtain ⟨nodes, used, i⟩ :=
      untouched_notify (mid.associate (some put) s.heap.next r.h) notify s.heap.next
    refine ⟨?_, ?_, ?_⟩
    · funext k
      rw [Heap.known, nodes, quiet.nodes, placed.nodes]
      by_cases same : k = r.h
      · subst same
        simp [Heap.create]
      · simp [Heap.create, Heap.known, same]
    · rw [used]
      simp only [associate, placed.used, placed.i]
    · rw [i]
      simp only [associate, placed.i]

end Record

/-- The elements that were looked at are numbered like the nodes that were made. -/
theorem used_records {fuel : Nat} {notify : Bool} {put : Put} {rs : List Record} {s s' : Reading}
    (done : rs.foldlM (record fuel notify (some put)) s = some s') :
    s'.used = s.used ++ ((created s.heap.known rs).zipIdx s.i).map Prod.swap := by
  induction rs generalizing s with
  | nil =>
    obtain rfl := Option.some.inj done
    simp [created]
  | cons r rs ih =>
    rw [List.foldlM_cons] at done
    obtain ⟨mid, first, rest⟩ := Option.bind_eq_some_iff.mp done
    rw [ih rest, created]
    cases new : r.accepted && !s.heap.known r.h with
    | false =>
      obtain ⟨nodes, used, i⟩ := record_known first new
      have known : mid.heap.known = s.heap.known := by
        funext k
        rw [Heap.known, Heap.known, nodes]
      rw [known, used, i]
      rfl
    | true =>
      obtain ⟨known, used, i⟩ := record_new first new
      rw [known, used, i, if_pos rfl, List.zipIdx_cons, List.map_cons, List.append_assoc]
      rfl

end Reading

/-- At every point of the loop, with the records `done` of the array `rs` read: the elements of
`nn` are associated with the nodes of their own records, and none beyond the end is looked at,
exactly if the nodes made so far match. -/
theorem onlyOwn_iff_matches {rs done : List Record} {fuel : Nat} {notify : Bool} {put : Put}
    {h : Heap} {uploads : Uploads} {s : Reading}
    (reads : readrecords fuel notify (some put) done h uploads = some s) (numnodes : Nat) :
    put.OnlyOwn numnodes rs s.used ↔ put.Matches numnodes h.known rs done := by
  have used : s.used = ((created h.known done).zipIdx).map Prod.swap := Reading.used_records reads
  have mem : ∀ j k, (j, k) ∈ s.used ↔ (created h.known done)[j]? = some k := by
    intro j k
    have numbered : (k, j) ∈ (created h.known done).zipIdx ↔ (created h.known done)[j]? = some k :=
      List.mem_zipIdx_iff_getElem?
    rw [used, ← numbered, List.mem_map]
    constructor
    · rintro ⟨e, mem, swapped⟩
      rwa [← Prod.swap_swap e, swapped] at mem
    · exact fun mem => ⟨(k, j), mem, rfl⟩
  constructor
  · intro own j k at_j
    exact own (j, k) ((mem j k).mpr at_j)
  · rintro fits ⟨j, k⟩ present
    exact fits j k ((mem j k).mp present)

/-- Two new folders of a sync, with the local nodes 7 and 8, and the server's records for them. -/
def twoFolders : Put :=
  ⟨.sync, fun j => ⟨.newNode, undef, if j = 0 then some 7 else some 8⟩⟩

def twoRecords : List Record := [folderRecord 10 1, folderRecord 11 1]

theorem onlyOwn_twoFolders :
    ∃ s, readrecords 9 true (some twoFolders) twoRecords Heap.empty noUploads = some s ∧
      twoFolders.OnlyOwn 2 twoRecords s.used := by
  have returns : (readrecords 9 true (some twoFolders) twoRecords Heap.empty noUploads).isSome :=
    by decide +kernel
  obtain ⟨s, reads⟩ := Option.isSome_iff_exists.mp returns
  refine ⟨s, reads, (onlyOwn_iff_matches reads 2).mpr ?_⟩
  have made : created Heap.empty.known twoRecords = [10, 11] := by decide +kernel
  intro j k at_j
  rw [made] at at_j
  match j with
  | 0 => exact ⟨by decide, fun _ => at_j⟩
  | 1 => exact ⟨by decide, fun _ => at_j⟩
  | _ + 2 => cases at_j

/-- The root and the node 10, which an action packet delivered first. -/
def packetFirst : List Event :=
  [.readnodes true none [rootRecord] noUploads, .readnodes true none [folderRecord 10 1] noUploads]

/-- The first record describes a known node, so the second node gets the local node of the
first one. -/
theorem packetFirst_misplaced :
    ∃ h s, Heap.run 9 packetFirst Heap.empty = some h ∧
      readnodes 9 true (some twoFolders) twoRecords h noUploads = some s ∧
      (s.heap.locals 7).node = s.heap.nodes 11 ∧ (s.heap.locals 8).node = none ∧
      ¬twoFolders.OnlyOwn 2 twoRecords s.used := by
  have observed : ((Heap.run 9 packetFirst Heap.empty).bind fun h =>
      (readnodes 9 true (some twoFolders) twoRecords h noUploads).map fun s =>
        (s.used, (s.heap.locals 7).node, s.heap.nodes 11, (s.heap.locals 8).node)) =
      some ([(0, 11)], some 2, some 2, none) := by decide +kernel
  obtain ⟨h, before, after⟩ := Option.bind_eq_some_iff.mp observed
  obtain ⟨s, reads, seen⟩ := Option.map_eq_some_iff.mp after
  obtain ⟨used, seventh, eleventh, eighth⟩ : s.used = [(0, 11)] ∧ (s.heap.locals 7).node = some 2 ∧
      s.heap.nodes 11 = some 2 ∧ (s.heap.locals 8).node = none := by simpa using seen
  refine ⟨h, s, before, reads, seventh.trans eleventh.symm, eighth, ?_⟩
  intro own
  have first := (own (0, 11) (by rw [used]; exact List.mem_singleton_self _)).2 (by decide)
  exact absurd first (by decide)

end MegaSdk.Tree
