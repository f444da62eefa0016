import MegaSdk.Tree.Acyclicity

/-!
# The order of the records

A record of a new node links it at once or leaves it to the pass over the waiting nodes,
depending on the records before it. In the end every new node is below the parent of its
record, if that is known, and nothing else has moved, so the order does not matter.
-/

namespace MegaSdk.Tree

open ParentForest Runs

/-- The parent handles that a list of records gives. -/
def listed (rs : List Record) (k : Handle) : Option Handle :=
  (rs.find? fun r => r.h = k).map fun r => r.ph

theorem listed_eq_some_iff {rs : List Record} (distinct : (rs.map Record.h).Nodup)
    {k p : Handle} : listed rs k = some p ↔ ∃ r ∈ rs, r.h = k ∧ r.ph = p := by
  constructor
  · intro found
    obtain ⟨r, first, rfl⟩ := Option.map_eq_some_iff.mp found
    exact ⟨r, List.mem_of_find?_eq_some first, by simpa using List.find?_some first, rfl⟩
  · rintro ⟨r, mem, rfl, rfl⟩
    have first : rs.find? (fun q => q.h = r.h) = some r := by
      cases other : rs.find? fun q => q.h = r.h with
      | none =>
        have missing := List.find?_eq_none.mp other r mem
        simp at missing
      | some q =>
        have handle : q.h = r.h := by simpa using List.find?_some other
        rw [List.inj_on_of_nodup_map distinct (List.mem_of_find?_eq_some other) mem handle]
    rw [listed, first, Option.map_some]

theorem listed_eq_none {rs : List Record} {k : Handle} (absent : ∀ r ∈ rs, r.h ≠ k) :
    listed rs k = none := by
  rw [listed, Option.map_eq_none_iff, List.find?_eq_none]
  intro r mem
  simpa using absent r mem

theorem listed_append {done rest : List Record} {k p : Handle} (found : listed done k = some p) :
    listed (done ++ rest) k = some p := by
  obtain ⟨r, first, rfl⟩ := Option.map_eq_some_iff.mp found
  rw [listed, List.find?_append, first]
  rfl

theorem listed_perm {rs rs' : List Record} (perm : rs.Perm rs')
    (distinct : (rs.map Record.h).Nodup) : listed rs' = listed rs := by
  have permuted : (rs'.map Record.h).Nodup := (perm.map Record.h).nodup_iff.mp distinct
  funext k
  refine Option.ext fun p => ?_
  rw [listed_eq_some_iff distinct, listed_eq_some_iff permuted]
  simp only [perm.mem_iff]

namespace Outline
variable {o x : Outline} {rs done : List Record}

def Closed (o : Outline) : Prop := ∀ n p, o.parent n = some p → o.known n = true ∧ o.known p = true

/-- The records are of new nodes with different handles. -/
structure Fresh (o : Outline) (rs : List Record) : Prop where
  accepted : ∀ r ∈ rs, r.accepted = true
  distinct : (rs.map Record.h).Nodup
  unknown : ∀ r ∈ rs, o.known r.h = false

/-- Where the links stand: `done` are the records read, `waiting` the links to come, and
`final` the handles that are known in the end. -/
structure Linking (o : Outline) (final : Handle → Bool) (done : List Record)
    (waiting : List (Handle × Handle)) (x : Outline) : Prop where
  known : ∀ k, x.known k = true ↔ o.known k = true ∨ ∃ r ∈ done, r.h = k
  old : ∀ k, (∀ r ∈ done, r.h ≠ k) → x.parent k = o.parent k
  linked : ∀ r ∈ done, ∀ p, x.parent r.h = some p → p = r.ph ∧ x.known r.ph = true
  unlinked : ∀ r ∈ done, x.parent r.h = none → final r.ph = true → (r.h, r.ph) ∈ waiting
  pending : ∀ e ∈ waiting, ∃ r ∈ done, e = (r.h, r.ph)

theorem Fresh.part {rest : List Record} (fresh : o.Fresh (done ++ rest)) : o.Fresh done where
  accepted r mem := fresh.accepted r (List.mem_append_left rest mem)
  distinct := by
    have whole := fresh.distinct
    rw [List.map_append] at whole
    exact whole.of_append_left
  unknown r mem := fresh.unknown r (List.mem_append_left rest mem)

theorem Closed.parent_eq_none (closed : o.Closed) {k : Handle} (unknown : o.known k = false) :
    o.parent k = none := by
  rw [Option.eq_none_iff_forall_ne_some]
  intro p linked
  have known := (closed k p linked).1
  rw [unknown] at known
  cases known

theorem linking_start (o : Outline) (final : Handle → Bool) : Linking o final [] [] o where
  known k := by simp
  old k _ := rfl
  linked r mem := absurd mem List.not_mem_nil
  unlinked r mem := absurd mem List.not_mem_nil
  pending e mem := absurd mem List.not_mem_nil

/-- What waits matters, not the order. -/
theorem Linking.reorder {final : Handle → Bool} {waiting waiting' : List (Handle × Handle)}
    (linking : Linking o final done waiting x) (perm : waiting.Perm waiting') :
    Linking o final done waiting' x where
  known := linking.known
  old := linking.old
  linked := linking.linked
  unlinked r mem free known := perm.mem_iff.mp (linking.unlinked r mem free known)
  pending e mem := linking.pending e (perm.mem_iff.mpr mem)

/-- One more record is read; its node is not linked yet. -/
theorem Linking.prepare {final : Handle → Bool} {waiting : List (Handle × Handle)}
    (closed : o.Closed) {r : Record} (fresh : o.Fresh (done ++ [r]))
    (linking : Linking o final done waiting x) :
    x.known r.h = false ∧
      Linking o final (done ++ [r]) ((r.h, r.ph) :: waiting) (x.prepare r) := by
  have here : r ∈ done ++ [r] := List.mem_append_right done List.mem_cons_self
  have apart : ∀ q ∈ done, q.h ≠ r.h := by
    intro q mem same
    have distinct := fresh.distinct
    rw [List.map_append, List.map_singleton, List.nodup_append] at distinct
    exact distinct.2.2 q.h (List.mem_map_of_mem mem) r.h List.mem_cons_self same
  have unknown : x.known r.h = false := by
    rw [Bool.eq_false_iff, Ne, linking.known]
    rintro (before | ⟨q, mem, same⟩)
    · rw [fresh.unknown r here] at before
      cases before
    · exact apart q mem same
  have free : x.parent r.h = none := by
    rw [linking.old r.h apart]
    exact closed.parent_eq_none (fresh.unknown r here)
  have known : ∀ k, (x.prepare r).known k = true ↔
      o.known k = true ∨ ∃ q ∈ done ++ [r], q.h = k := by
    intro k
    rw [Outline.prepare]
    by_cases same : k = r.h
    · subst same
      simp only [Function.update_self, true_iff]
      exact Or.inr ⟨r, here, rfl⟩
    · simp only [Function.update_of_ne same, linking.known, List.mem_append, List.mem_singleton,
        or_and_right, exists_or, exists_eq_left, Ne.symm same, or_false]
  refine ⟨unknown, known, ?_, ?_, ?_, ?_⟩
  · intro k absent
    exact linking.old k fun q mem => absent q (List.mem_append_left [r] mem)
  · intro q mem p above
    rcases List.mem_append.mp mem with old | new
    · obtain ⟨same, present⟩ := linking.linked q old p above
      refine ⟨same, (known q.ph).mpr ?_⟩
      rcases (linking.known q.ph).mp present with before | ⟨m, read, handle⟩
      · exact Or.inl before
      · exact Or.inr ⟨m, List.mem_append_left [r] read, handle⟩
    · obtain rfl := List.mem_singleton.mp new
      have linked : x.parent q.h = some p := above
      rw [free] at linked
      cases linked
  · intro q mem alone wanted
    rcases List.mem_append.mp mem with old | new
    · exact List.mem_cons_of_mem _ (linking.unlinked q old alone wanted)
    · obtain rfl := List.mem_singleton.mp new
      exact List.mem_cons_self
  · intro e mem
    rcases List.mem_cons.mp mem with rfl | old
    · exact ⟨r, here, rfl⟩
    · obtain ⟨q, before, same⟩ := linking.pending e old
      exact ⟨q, List.mem_append_left [r] before, same⟩

/-- The parent of the first waiting node is there. -/
theorem Linking.link {final : Handle → Bool} {q : Record} {waiting : List (Handle × Handle)}
    (distinct : (done.map Record.h).Nodup) (mem : q ∈ done)
    (linking : Linking o final done ((q.h, q.ph) :: waiting) x) (there : x.known q.ph = true) :
    Linking o final done waiting (x.link q.h q.ph) where
  known := linking.known
  old k absent := by
    have other : k ≠ q.h := fun same => absent q mem same.symm
    rw [parent_link_of_ne x q.ph other]
    exact linking.old k absent
  linked r read p above := by
    by_cases same : r.h = q.h
    · obtain rfl := List.inj_on_of_nodup_map distinct read mem same
      rw [parent_link_self] at above
      exact ⟨(Option.some.inj above).symm, there⟩
    · rw [parent_link_of_ne x q.ph same] at above
      exact linking.linked r read p above
  unlinked r read alone wanted := by
    by_cases same : r.h = q.h
    · rw [same, parent_link_self] at alone
      cases alone
    · rw [parent_link_of_ne x q.ph same] at alone
      rcases List.mem_cons.mp (linking.unlinked r read alone wanted) with first | later
      · exact absurd (congrArg Prod.fst first) same
      · exact later
  pending e mem := linking.pending e (List.mem_cons_of_mem _ mem)

/-- Reading one more record. -/
theorem Linking.record {final : Handle → Bool} (closed : o.Closed) {r : Record}
    (fresh : o.Fresh (done ++ [r])) (linking : Linking o final done x.dp x) :
    Linking o final (done ++ [r]) (x.record r).dp (x.record r) := by
  have here : r ∈ done ++ [r] := List.mem_append_right done List.mem_cons_self
  obtain ⟨unknown, prepared⟩ := linking.prepare closed fresh
  have places : x.places r = true := by
    rw [places, fresh.accepted r here, unknown]
    rfl
  rw [Outline.record, if_pos places, place]
  split
  · rename_i there
    exact prepared.link fresh.distinct here there
  · have later := prepared.reorder (List.perm_append_singleton (r.h, r.ph) x.dp).symm
    exact ⟨later.known, later.old, later.linked, later.unlinked, later.pending⟩

theorem linking_records (final : Handle → Bool) (closed : o.Closed) {rs : List Record}
    (empty : o.dp = []) (fresh : o.Fresh rs) :
    Linking o final rs (rs.foldl Outline.record o).dp (rs.foldl Outline.record o) := by
  induction rs using List.reverseRecOn with
  | nil =>
    rw [List.foldl_nil, empty]
    exact linking_start o final
  | append_singleton done r ih =>
    rw [List.foldl_concat]
    exact (ih fresh.part).record closed fresh

/-- A waiting node gets its turn. -/
theorem Linking.deferred {final : Handle → Bool} {e : Handle × Handle}
    {waiting : List (Handle × Handle)} (distinct : (done.map Record.h).Nodup)
    (linking : Linking o final done (e :: waiting) x) (complete : x.known = final) :
    Linking o final done waiting (x.deferred e) ∧ (x.deferred e).known = final := by
  obtain ⟨q, mem, rfl⟩ := linking.pending e List.mem_cons_self
  rw [Outline.deferred]
  split
  · rename_i there
    exact ⟨linking.link distinct mem there, complete⟩
  · rename_i missing
    refine ⟨⟨linking.known, linking.old, linking.linked, ?_, ?_⟩, complete⟩
    · intro r read alone wanted
      rcases List.mem_cons.mp (linking.unlinked r read alone wanted) with first | later
      · have same : r.ph = q.ph := congrArg Prod.snd first
        rw [← complete, same] at wanted
        exact absurd wanted missing
      · exact later
    · exact fun e mem => linking.pending e (List.mem_cons_of_mem _ mem)

theorem Linking.deferrals {final : Handle → Bool} {part waiting : List (Handle × Handle)}
    (distinct : (done.map Record.h).Nodup) (linking : Linking o final done (part ++ waiting) x)
    (complete : x.known = final) :
    Linking o final done waiting (part.foldl Outline.deferred x) ∧
      (part.foldl Outline.deferred x).known = final := by
  induction part generalizing x with
  | nil => exact ⟨linking, complete⟩
  | cons e part ih =>
    obtain ⟨next, still⟩ := linking.deferred distinct complete
    exact ih next still

/-- The pass over the waiting nodes, at any point. -/
theorem linking_pass (closed : o.Closed) {rs : List Record} (empty : o.dp = [])
    (fresh : o.Fresh rs) {part rest : List (Handle × Handle)}
    (split : (rs.foldl Outline.record o).dp.reverse = part ++ rest) :
    let final := (rs.foldl Outline.record o).known
    Linking o final rs rest (part.foldl Outline.deferred (rs.foldl Outline.record o)) ∧
      (part.foldl Outline.deferred (rs.foldl Outline.record o)).known = final := by
  have read := linking_records (rs.foldl Outline.record o).known closed empty fresh
  have turned := read.reorder (List.reverse_perm _).symm
  rw [split] at turned
  exact turned.deferrals fresh.distinct rfl

/-- In the end nothing waits for a known parent. -/
theorem linking_readnodes (closed : o.Closed) (empty : o.dp = []) (fresh : o.Fresh rs) :
    Linking o (o.readnodes rs).known rs [] (o.readnodes rs) := by
  obtain ⟨linking, known⟩ := linking_pass closed empty fresh (List.append_nil _).symm
  rw [readnodes, known]
  exact linking

/-- A new node is below its parent, if that is known. -/
theorem Linking.parent_eq (linking : Linking o x.known rs [] x) {r : Record} (mem : r ∈ rs) :
    x.parent r.h = if x.known r.ph then some r.ph else none := by
  cases above : x.parent r.h with
  | some p =>
    obtain ⟨rfl, there⟩ := linking.linked r mem p above
    rw [if_pos there]
  | none =>
    have missing : ¬x.known r.ph = true := by
      intro there
      exact List.not_mem_nil (linking.unlinked r mem above there)
    rw [if_neg missing]

/-- The records as a set decide about the links. -/
theorem Linking.unique {y : Outline} {rs' : List Record} (linking : Linking o x.known rs [] x)
    (other : Linking o y.known rs' [] y) (perm : rs.Perm rs') :
    y.known = x.known ∧ y.parent = x.parent := by
  have known : y.known = x.known := by
    funext k
    rw [Bool.eq_iff_iff, linking.known, other.known]
    simp only [perm.mem_iff]
  refine ⟨known, ?_⟩
  funext k
  by_cases new : ∃ r ∈ rs, r.h = k
  · obtain ⟨r, mem, rfl⟩ := new
    rw [linking.parent_eq mem, other.parent_eq (perm.mem_iff.mp mem), known]
  · have absent : ∀ r ∈ rs, r.h ≠ k := fun r mem same => new ⟨r, mem, same⟩
    rw [linking.old k absent, other.old k fun r mem => absent r (perm.mem_iff.mpr mem)]

/-- Links that the records and the old tree give form a forest if both do. -/
theorem Linking.acyclic {final : Handle → Bool} {waiting : List (Handle × Handle)}
    (linking : Linking o final done waiting x) (closed : o.Closed) (fresh : o.Fresh done)
    (forest : Acyclic o.parent) (given : Acyclic (listed done)) : Acyclic x.parent := by
  have finite : ∀ n p, listed done n = some p → p ∈ (done.map Record.ph).toFinset := by
    intro n p above
    obtain ⟨r, mem, -, rfl⟩ := (listed_eq_some_iff fresh.distinct).mp above
    exact List.mem_toFinset.mpr (List.mem_map_of_mem mem)
  have apart : ∀ n p, o.parent n = some p → listed done p = none := by
    intro n p above
    refine listed_eq_none ?_
    rintro r mem rfl
    have known := (closed n r.h above).2
    rw [fresh.unknown r mem] at known
    cases known
  refine (forest.graft given finite apart).mono ?_
  intro n p above
  by_cases new : ∃ r ∈ done, r.h = n
  · obtain ⟨r, mem, rfl⟩ := new
    obtain ⟨rfl, -⟩ := linking.linked r mem p above
    rw [(listed_eq_some_iff fresh.distinct).mpr ⟨r, mem, rfl, rfl⟩, Option.some_or]
  · have absent : ∀ r ∈ done, r.h ≠ n := fun r mem same => new ⟨r, mem, same⟩
    rw [listed_eq_none absent, Option.none_or, ← linking.old n absent]
    exact above

/-- New nodes whose records form a forest are linked without harm. -/
theorem Fresh.harmless (fresh : o.Fresh rs) (closed : o.Closed) (empty : o.dp = [])
    (forest : Acyclic o.parent) (given : Acyclic (listed rs)) : o.Harmless rs := by
  rw [← always_iff_harmless forest]
  refine ⟨always_iff_parts.mpr ?_, always_iff_parts.mpr ?_⟩
  · rintro part rest rfl
    have some := given.mono fun n p => listed_append
    exact (linking_records o.known closed empty fresh.part).acyclic closed fresh.part forest some
  · intro part rest split
    exact (linking_pass closed empty fresh split).1.acyclic closed fresh forest given

end Outline

namespace Heap
variable {h : Heap}

def childrenAt (h : Heap) (k : Handle) : List Handle :=
  ((h.nodes k).map fun n => (h.children n).map fun c => (h.data c).nodehandle).getD []

theorem Wired.mem_childrenAt (wired : h.Wired) {c k : Handle} :
    c ∈ h.childrenAt k ↔ h.up c = some k := by
  constructor
  · intro mem
    rw [childrenAt] at mem
    cases found : h.nodes k with
    | none =>
      rw [found] at mem
      exact absurd mem List.not_mem_nil
    | some n =>
      rw [found, Option.map_some, Option.getD_some] at mem
      obtain ⟨m, child, rfl⟩ := List.mem_map.mp mem
      have owner : h.parent m = some n := (wired.linked.mem_iff m n).mpr child
      rw [(wired.ends m n owner).1.up_eq, owner, Option.map_some, wired.handles k n found]
  · intro above
    obtain ⟨m, found, owned⟩ := Option.bind_eq_some_iff.mp above
    obtain ⟨p, owner, rfl⟩ := Option.map_eq_some_iff.mp owned
    have there : h.nodes (h.data p).nodehandle = some p := (wired.ends m p owner).2
    rw [childrenAt, there, Option.map_some, Option.getD_some]
    exact List.mem_map.mpr ⟨m, (wired.linked.mem_iff m p).mp owner, wired.handles c m found⟩

theorem Wired.nodup_childrenAt (wired : h.Wired) (k : Handle) : (h.childrenAt k).Nodup := by
  rw [childrenAt]
  cases h.nodes k with
  | none => exact List.nodup_nil
  | some n =>
    rw [Option.map_some, Option.getD_some]
    refine List.Nodup.map_on ?_ (wired.linked.once n)
    intro c first d second same
    have live := (wired.ends c n ((wired.linked.mem_iff c n).mpr first)).1
    have other := (wired.ends d n ((wired.linked.mem_iff d n).mpr second)).1
    exact live.eq other same

/-- Trees with the same parents have the same children. -/
theorem Wired.childrenAt_perm {h' : Heap} (wired : h.Wired) (wired' : h'.Wired)
    (same : h'.up = h.up) (k : Handle) : (h'.childrenAt k).Perm (h.childrenAt k) := by
  rw [List.perm_ext_iff_of_nodup (wired'.nodup_childrenAt k) (wired.nodup_childrenAt k)]
  intro c
  rw [wired'.mem_childrenAt, wired.mem_childrenAt, same]

theorem Wired.closed (wired : h.Wired) (dp : List Ref) : (h.outline dp).Closed := by
  intro n p above
  obtain ⟨m, found, owned⟩ := Option.bind_eq_some_iff.mp above
  obtain ⟨q, owner, rfl⟩ := Option.map_eq_some_iff.mp owned
  exact ⟨Option.isSome_iff_exists.mpr ⟨m, found⟩,
    Option.isSome_iff_exists.mpr ⟨q, (wired.ends m q owner).2⟩⟩

end Heap

/-- Well-formed records of new nodes with different handles, whose parents among each other form
a forest. A parent may also be an old node or missing. -/
structure Delivery (h : Heap) (rs : List Record) : Prop where
  accepted : ∀ r ∈ rs, r.accepted = true
  distinct : (rs.map Record.h).Nodup
  unknown : ∀ r ∈ rs, h.nodebyhandle r.h = none
  acyclic : Acyclic (listed rs)

namespace Delivery
variable {h : Heap} {rs rs' : List Record}

theorem perm (delivery : Delivery h rs) (same : rs.Perm rs') : Delivery h rs' where
  accepted r mem := delivery.accepted r (same.mem_iff.mpr mem)
  distinct := (same.map Record.h).nodup_iff.mp delivery.distinct
  unknown r mem := delivery.unknown r (same.mem_iff.mpr mem)
  acyclic := by
    rw [listed_perm same delivery.distinct]
    exact delivery.acyclic

theorem fresh (delivery : Delivery h rs) : (h.outline []).Fresh rs where
  accepted := delivery.accepted
  distinct := delivery.distinct
  unknown r mem := by
    change (h.nodes r.h).isSome = false
    rw [show h.nodes r.h = none from delivery.unknown r mem, Option.isSome_none]

variable {fuel : Nat} {notify : Bool} {put : Option Put} {uploads : Uploads}

theorem returns (delivery : Delivery h rs) (consistent : h.Consistent)
    (acyclic : Acyclic h.parent) (notify : Bool) (put : Option Put) (uploads : Uploads) :
    ∃ fuel s, readnodes fuel notify put rs h uploads = some s ∧ Acyclic s.heap.parent := by
  have wired := consistent.toWired
  have harmless := delivery.fresh.harmless (wired.closed []) rfl
    (wired.parent_acyclic_iff.mp acyclic) delivery.acyclic
  obtain ⟨fuel, forest⟩ := (staysForest_iff_harmless consistent acyclic).mpr harmless
  exact ⟨fuel, forest.returns⟩

/-- The tree that the records leave. -/
theorem linking (delivery : Delivery h rs) (consistent : h.Consistent) {s : Reading}
    (done : readnodes fuel notify put rs h uploads = some s) :
    Outline.Linking (h.outline []) s.outline.known rs [] s.outline := by
  have final := Outline.linking_readnodes (consistent.toWired.closed []) rfl delivery.fresh
  rw [← outline_readnodes consistent done] at final
  exact final

end Delivery

/-- What a delivery in two orders has to agree on, and where the new nodes are. -/
structure SameTree (h : Heap) (rs : List Record) (first second : Heap) : Prop where
  known : second.known = first.known
  parent : second.up = first.up
  children : ∀ k, (second.childrenAt k).Perm (first.childrenAt k)
  linked : ∀ r ∈ rs, first.known r.ph = true → first.up r.h = some r.ph
  unlinked : ∀ r ∈ rs, first.known r.ph = false → first.up r.h = none
  kept : ∀ k, h.known k = true → first.up k = h.up k

/-- The order in which the records of new nodes arrive does not matter. On a forest every order
is read to the end. -/
theorem readnodes_perm {h : Heap} (consistent : h.Consistent) {rs rs' : List Record}
    (delivery : Delivery h rs) (perm : rs.Perm rs') (notify : Bool) (put : Option Put)
    (uploads : Uploads) :
    (Acyclic h.parent → ∃ fuel s, readnodes fuel notify put rs' h uploads = some s) ∧
      ∀ fuel fuel' s s', readnodes fuel notify put rs h uploads = some s →
        readnodes fuel' notify put rs' h uploads = some s' → SameTree h rs s.heap s'.heap := by
  have permuted := delivery.perm perm
  constructor
  · intro acyclic
    obtain ⟨fuel, s, done, -⟩ := permuted.returns consistent acyclic notify put uploads
    exact ⟨fuel, s, done⟩
  · intro fuel fuel' s s' done done'
    have linking := delivery.linking consistent done
    have other := permuted.linking consistent done'
    obtain ⟨known, parent⟩ := Outline.Linking.unique linking other perm
    have wired := (consistent_readnodes consistent done).toWired
    have wired' := (consistent_readnodes consistent done').toWired
    refine ⟨known, parent, wired.childrenAt_perm wired' parent, ?_, ?_, ?_⟩
    · intro r mem there
      exact (Outline.Linking.parent_eq linking mem).trans (if_pos there)
    · intro r mem missing
      exact (Outline.Linking.parent_eq linking mem).trans (if_neg (Bool.eq_false_iff.mp missing))
    · intro k old
      refine linking.old k ?_
      rintro r mem rfl
      have unknown := delivery.fresh.unknown r mem
      rw [show (h.outline []).known r.h = true from old] at unknown
      cases unknown

theorem delivery_childFirst :
    Delivery Heap.empty [folderRecord 3 2, rootRecord, folderRecord 2 1] where
  accepted := by decide
  distinct := by decide
  unknown _ _ := rfl
  acyclic := by
    refine ⟨fun k => if k = undef then 0 else k.toNat, ?_⟩
    intro n p above
    have distinct : (([folderRecord 3 2, rootRecord, folderRecord 2 1] : List Record).map
        Record.h).Nodup := by decide
    obtain ⟨r, mem, rfl, rfl⟩ := (listed_eq_some_iff distinct).mp above
    revert r
    decide

/-- A child before or after its parent. -/
theorem readnodes_perm_childFirst :
    ∃ s s', readnodes 9 true none [folderRecord 3 2, rootRecord, folderRecord 2 1] Heap.empty
        noUploads = some s ∧
      readnodes 9 true none [rootRecord, folderRecord 2 1, folderRecord 3 2] Heap.empty
        noUploads = some s' ∧
      SameTree Heap.empty [folderRecord 3 2, rootRecord, folderRecord 2 1] s.heap s'.heap := by
  have first : (readnodes 9 true none [folderRecord 3 2, rootRecord, folderRecord 2 1] Heap.empty
      noUploads).isSome = true := by decide +kernel
  have second : (readnodes 9 true none [rootRecord, folderRecord 2 1, folderRecord 3 2] Heap.empty
      noUploads).isSome = true := by decide +kernel
  obtain ⟨s, done⟩ := Option.isSome_iff_exists.mp first
  obtain ⟨s', done'⟩ := Option.isSome_iff_exists.mp second
  have perm := (List.perm_append_singleton (folderRecord 3 2) [rootRecord, folderRecord 2 1]).symm
  have order := readnodes_perm Heap.consistent_empty delivery_childFirst perm true none noUploads
  exact ⟨s, s', done, done', order.2 9 9 s s' done done'⟩

end MegaSdk.Tree
