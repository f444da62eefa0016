import MegaSdk.Cache.WriteBack

/-!
# Coherence of the state cache

What the purge leaves of the node table, and the exact batches after which the node
records are again the serializations of the nodes.
-/

namespace MegaSdk.Cache

open Node

namespace KeyRing
variable (ring : KeyRing)

theorem setattr_dbid (n : Node) (id : Nat) :
    ring.setattr { n with dbid := id } = { ring.setattr n with dbid := id } := by
  unfold setattr
  split
  · rfl
  · dsimp only
    cases ring.decryptattr n.nodekey n.info.attrstring <;> rfl

theorem applykey_dbid (nodes : Handle → Option Node) (h : Handle) (n : Node) (id : Nat) :
    ring.applykey nodes h { n with dbid := id } =
      { ring.applykey nodes h n with dbid := id } := by
  unfold applykey
  split
  · rfl
  · dsimp only
    cases ring.subkey (shareKeys nodes) h n.type n.keystring with
    | none => rfl
    | some key =>
      exact ring.setattr_dbid
        { n with
          keystring := []
          nodekey := key.toList.take (if n.type = fileNode then 32 else 16) } id

end KeyRing

namespace Client

/-- The nodes that a purge of the listed nodes deletes. -/
def purges (nodes : Handle → Option Node) (list : List Handle) (h : Handle) : Bool :=
  decide (h ∈ list) && (nodes h).any (·.removed)

/-- The node table after the purge of the listed nodes. -/
def afterPurge (nodes : Handle → Option Node) (list : List Handle) (h : Handle) : Option Node :=
  (nodes h).bind fun n =>
    if purges nodes list h then none
    else
      some { n with
        parent := n.parent.filter fun p => !purges nodes list p
        notified := n.notified && !decide (h ∈ list) }

theorem purges_cons (c : Client) (x : Handle) (rest : List Handle) (h : Handle) :
    purges c.nodes (x :: rest) h =
      ((decide (h = x) && (c.nodes x).any (·.removed)) ||
        purges (c.purgeNode x).nodes rest h) := by
  unfold purges purgeNode
  cases at_x : c.nodes x with
  | none => by_cases same : h = x <;> simp [same, at_x]
  | some n =>
    by_cases removed : n.removed
    · by_cases same : h = x
      · simp [same, at_x, removed]
      · cases at_h : c.nodes h with
        | none => simp [same, removed, at_h]
        | some m =>
          have flag : (unlink x m).removed = m.removed := by
            unfold unlink
            split <;> rfl
          simp [same, removed, at_h, flag]
    · by_cases same : h = x <;> simp [same, at_x, removed]

theorem afterPurge_cons (c : Client) (x : Handle) (rest : List Handle) (h : Handle) :
    afterPurge c.nodes (x :: rest) h = afterPurge (c.purgeNode x).nodes rest h := by
  have status := purges_cons c x rest
  cases at_x : c.nodes x with
  | none =>
    have same : c.purgeNode x = c := by simp [purgeNode, at_x]
    have status' : purges c.nodes (x :: rest) = purges c.nodes rest := by
      funext k
      simpa [at_x, same] using status k
    rw [same, afterPurge, afterPurge, status']
    by_cases ne : h = x
    · rw [ne, at_x]
      rfl
    · simp [ne]
  | some n =>
    by_cases removed : n.removed
    · have result : (c.purgeNode x).nodes =
          Function.update (fun k => (c.nodes k).map (unlink x)) x none := by
        simp [purgeNode, at_x, removed]
      by_cases ne : h = x
      · have gone : (c.purgeNode x).nodes x = none := by simp [result]
        simp [afterPurge, ne, at_x, removed, gone, purges]
      · have moved : (c.purgeNode x).nodes h = (c.nodes h).map (unlink x) := by
          simp [result, ne]
        have same : purges (c.purgeNode x).nodes rest h = purges c.nodes (x :: rest) h := by
          simp [status h, ne]
        rw [afterPurge, afterPurge, moved, Option.bind_map, same]
        congr 1
        funext m
        rw [Function.comp_apply]
        split
        · rfl
        · have parent : m.parent.filter (fun p => !purges c.nodes (x :: rest) p) =
              (unlink x m).parent.filter fun p => !purges (c.purgeNode x).nodes rest p := by
            unfold unlink
            cases hp : m.parent with
            | none => simp [hp]
            | some p =>
              by_cases px : p = x
              · simp [px, status x, at_x, removed, Option.filter]
              · simp [px, hp, status p, Option.filter]
          have others : unlink x m = { m with parent := (unlink x m).parent } := by
            unfold unlink
            split <;> rfl
          rw [parent, others]
          simp [ne]
    · have result : (c.purgeNode x).nodes =
          Function.update c.nodes x (some { n with notified := false }) := by
        simp [purgeNode, at_x, removed]
      have status' : purges c.nodes (x :: rest) = purges (c.purgeNode x).nodes rest := by
        funext k
        simpa [at_x, removed] using status k
      rw [afterPurge, afterPurge, status', result]
      by_cases ne : h = x
      · rw [ne, at_x, Function.update_self]
        simp
      · simp [ne]

/-- The purge loop in closed form. -/
theorem foldl_purgeNode (c : Client) (list : List Handle) (h : Handle) :
    (list.foldl purgeNode c).nodes h = afterPurge c.nodes list h := by
  induction list generalizing c with
  | nil =>
    cases at_h : c.nodes h with
    | none => simp [afterPurge, at_h]
    | some n =>
      have kept : n.parent.filter (fun p => !purges c.nodes [] p) = n.parent := by
        cases n.parent <;> simp [purges, Option.filter]
      simp [afterPurge, at_h, kept]
      simp [purges]
  | cons x rest ih => rw [List.foldl_cons, ih, afterPurge_cons]

/-- The purge loop changes nothing but the nodes. -/
theorem foldl_purgeNode_frame (c : Client) (list : List Handle) :
    list.foldl purgeNode c = { c with nodes := (list.foldl purgeNode c).nodes } := by
  induction list generalizing c with
  | nil => rfl
  | cons x rest ih =>
    have first : c.purgeNode x = { c with nodes := (c.purgeNode x).nodes } := by
      unfold purgeNode
      split
      · rfl
      · split <;> rfl
    rw [List.foldl_cons, ih, first]

theorem written_flushed {s : Client} (batch : Batch s) (room : s.Room) :
    Written s s.flushed fun h => h ∈ s.nodenotify := by
  unfold flushed
  split
  · exact Written.updatesc batch room
  · rename_i closed
    have empty : s.nodenotify = [] := by
      by_contra nonempty
      exact closed (.inl nonempty)
    simpa [empty] using Written.start batch

/-- The purge keeps the table and the users, and empties the vector. -/
theorem notifypurge_frame (ring : KeyRing) (c : Client) :
    (c.notifypurge ring).table = c.flushed.table ∧ (c.notifypurge ring).users = c.flushed.users ∧
      (c.notifypurge ring).nodenotify = [] := by
  change (c.flushed.purged ring).table = _ ∧ (c.flushed.purged ring).users = _ ∧
    (c.flushed.purged ring).nodenotify = []
  unfold purged
  split
  · rename_i empty
    exact ⟨rfl, rfl, empty⟩
  · rw [foldl_purgeNode_frame]
    exact ⟨rfl, rfl, rfl⟩

theorem notifypurge_nodes (ring : KeyRing) {s : Client} (batch : Batch s) (room : s.Room)
    (h : Handle) : (s.notifypurge ring).nodes h =
      if s.nodenotify = [] then s.flushed.nodes h
      else afterPurge (ring.applykeys s.flushed.nodes) s.nodenotify h := by
  change (s.flushed.purged ring).nodes h = _
  rw [purged, (written_flushed batch room).list]
  split
  · rfl
  · exact foldl_purgeNode ..

/-- A node as the purge sees it, after the keys that arrived late. -/
def lateKey (ring : KeyRing) (s : Client) (h : Handle) (n : Node) : Node :=
  if s.nodenotify = [] then n else ring.applykey s.nodes h n

theorem lateKey_flags (ring : KeyRing) (s : Client) (h : Handle) (n : Node) :
    (s.lateKey ring h n).removed = n.removed ∧ (s.lateKey ring h n).parent = n.parent := by
  unfold lateKey
  split
  · exact ⟨rfl, rfl⟩
  · exact (Batch.applykey_flags ring s.nodes h n).2

theorem lateKey_rewrites (ring : KeyRing) (s : Client) (h : Handle) (n : Node) :
    Rewrites n (s.lateKey ring h n) := by
  unfold lateKey
  split
  · exact .refl n
  · exact ring.applykey_rewrites s.nodes h n

end Client

/-- The batches that `notifypurge` records faithfully: a removed node has a record to delete
(or refuses to be written), a live one is accepted and stays as written, and no live node
hangs below a removed one. -/
structure Clean (ring : KeyRing) (s : Client) : Prop where
  deletions : ∀ h n, s.nodes h = some n → n.removed = true → n.dbid ≠ 0 ∨ n.Refused
  accepted : ∀ h n, s.nodes h = some n → n.removed = false → ¬n.Refused
  keys : ∀ h n, s.nodes h = some n → n.removed = false →
    (s.lateKey ring h n).serialize h = n.serialize h
  parents : ∀ h n p m, s.nodes h = some n → n.removed = false → n.parent = some p →
    s.nodes p = some m → m.removed = true → p = 0

section Purge
variable {ring : KeyRing} {s : Client} (batch : Batch s) (room : s.Room)
include batch

theorem Batch.removed_listed {h : Handle} {n : Node} (at_h : s.nodes h = some n)
    (removed : n.removed = true) : h ∈ s.nodenotify := by
  refine (batch.listed h).mpr ⟨n, at_h, ?_⟩
  by_contra quiet
  have live := (batch.untouched h n at_h (by simpa using quiet)).live
  rw [removed] at live
  cases live

include room

theorem shareKeys_flushed : KeyRing.shareKeys s.flushed.nodes = KeyRing.shareKeys s.nodes := by
  have written := Client.written_flushed batch room
  funext h
  unfold KeyRing.shareKeys
  cases at_h : s.nodes h with
  | none => rw [written.absent h at_h]
  | some n =>
    obtain ⟨id, at_id, _⟩ := written.present h n at_h
    rw [at_id]
    rfl

/-- Late keys are applied to what the write loops left of a node. -/
theorem applykeys_flushed {h : Handle} {n : Node} {id : Nat}
    (at_id : s.flushed.nodes h = some { n with dbid := id }) :
    ring.applykeys s.flushed.nodes h = some { ring.applykey s.nodes h n with dbid := id } := by
  rw [KeyRing.applykeys, at_id, Option.map_some, KeyRing.applykey_dbid]
  unfold KeyRing.applykey
  rw [shareKeys_flushed batch room]

/-- The purge deletes the removed nodes. -/
theorem purges_iff (h : Handle) :
    Client.purges (ring.applykeys s.flushed.nodes) s.nodenotify h =
      (s.nodes h).any (·.removed) := by
  have written := Client.written_flushed batch room
  unfold Client.purges
  cases at_h : s.nodes h with
  | none => simp [KeyRing.applykeys, written.absent h at_h]
  | some n =>
    obtain ⟨id, at_id, _⟩ := written.present h n at_h
    have flag := (Batch.applykey_flags ring s.nodes h n).2.1
    rw [applykeys_flushed batch room at_id]
    cases removed : n.removed with
    | true => simp [flag, removed, batch.removed_listed at_h removed]
    | false => simp [flag, removed]

theorem purged_absent {h : Handle} (absent : s.nodes h = none) :
    (s.notifypurge ring).nodes h = none := by
  have gone := (Client.written_flushed batch room).absent h absent
  rw [Client.notifypurge_nodes ring batch room]
  split
  · exact gone
  · simp [Client.afterPurge, KeyRing.applykeys, gone]

theorem purged_removed {h : Handle} {n : Node} (at_h : s.nodes h = some n)
    (removed : n.removed = true) : (s.notifypurge ring).nodes h = none := by
  have listed := batch.removed_listed at_h removed
  have nonempty : s.nodenotify ≠ [] := List.ne_nil_of_mem listed
  rw [Client.notifypurge_nodes ring batch room, if_neg nonempty, Client.afterPurge]
  obtain ⟨id, at_id, _⟩ := (Client.written_flushed batch room).present h n at_h
  simp [applykeys_flushed batch room at_id, purges_iff batch room, at_h, removed]

variable (ring) in
/-- A live node after the purge: the id of the write loops, late keys, no removed parent. -/
theorem purged_live {h : Handle} {n : Node} (at_h : s.nodes h = some n)
    (live : n.removed = false) :
    ∃ id, s.flushed.nodes h = some { n with dbid := id } ∧
      Outcome s s.flushed h n (h ∈ s.nodenotify) id ∧
      (s.notifypurge ring).nodes h = some { s.lateKey ring h n with
        dbid := id
        parent := n.parent.filter fun p => !(s.nodes p).any (·.removed)
        notified := false } := by
  obtain ⟨id, at_id, outcome⟩ := (Client.written_flushed batch room).present h n at_h
  refine ⟨id, at_id, outcome, ?_⟩
  rw [Client.notifypurge_nodes ring batch room, Client.lateKey]
  by_cases empty : s.nodenotify = []
  · have quiet : ∀ k m, s.nodes k = some m → m.removed = false := by
      intro k m at_k
      by_contra removed
      have listed := batch.removed_listed at_k (by simpa using removed)
      rw [empty] at listed
      cases listed
    have kept : (n.parent.filter fun p => !(s.nodes p).any (·.removed)) = n.parent := by
      cases n.parent with
      | none => rfl
      | some p =>
        cases at_p : s.nodes p with
        | none => simp [Option.filter, at_p]
        | some m => simp [Option.filter, at_p, quiet p m at_p]
    have unlisted : n.notified = false := by
      by_contra notified
      have listed := (batch.listed h).mpr ⟨n, at_h, by simpa using notified⟩
      rw [empty] at listed
      cases listed
    simp [empty, at_id, kept, ← unlisted]
  · have flags := Batch.applykey_flags ring s.nodes h n
    have late : (n.notified && !decide (h ∈ s.nodenotify)) = false := by
      cases notified : n.notified with
      | false => rfl
      | true => simp [(batch.listed h).mpr ⟨n, at_h, notified⟩]
    simp [empty, Client.afterPurge, applykeys_flushed batch room at_id, purges_iff batch room,
      at_h, live, flags, late]

/-- Every node that is left was live before the purge. -/
theorem purged_source {h : Handle} {m : Node} (at_m : (s.notifypurge ring).nodes h = some m) :
    ∃ n, s.nodes h = some n ∧ n.removed = false := by
  cases at_h : s.nodes h with
  | none =>
    rw [purged_absent batch room at_h] at at_m
    cases at_m
  | some n =>
    cases removed : n.removed with
    | false => exact ⟨n, rfl, removed⟩
    | true =>
      rw [purged_removed batch room at_h removed] at at_m
      cases at_m

omit room in
/-- After the write loops, an accepted live node is stored under its id. -/
theorem stored_live {h : Handle} {n : Node} {id : Nat} {data : Bytes}
    (at_h : s.nodes h = some n) (live : n.removed = false) (serial : n.serialize h = some data)
    (outcome : Outcome s s.flushed h n (h ∈ s.nodenotify) id) :
    id ≠ 0 ∧ s.flushed.table.records id = some data := by
  have accepted : ¬n.Refused := by
    intro refused
    rw [serialize_eq_none_iff.mpr refused] at serial
    cases serial
  cases outcome with
  | waiting open_ kept =>
    have quiet : n.notified = false := by
      by_contra notified
      exact open_ ((batch.listed h).mpr ⟨n, at_h, by simpa using notified⟩)
    have before := batch.untouched h n at_h quiet
    refine ⟨before.recorded, ?_⟩
    rw [kept before.recorded, before.agrees.resolve_left accepted, serial]
  | deleted _ removed =>
    rw [live] at removed
    cases removed
  | refused _ refuses => exact absurd refuses accepted
  | stored _ serial' _ recorded present =>
    rw [serial, Option.some.injEq] at serial'
    exact ⟨recorded, serial' ▸ present⟩

omit room in
/-- After the write loops, a removed node has no record: it was deleted, or never written. -/
theorem gone_removed (clean : Clean ring s) {h : Handle} {n : Node} {id : Nat}
    (at_h : s.nodes h = some n) (removed : n.removed = true) (recorded : id ≠ 0)
    (outcome : Outcome s s.flushed h n (h ∈ s.nodenotify) id) :
    s.flushed.table.records id = none := by
  cases outcome with
  | waiting open_ => exact absurd (batch.removed_listed at_h removed) open_
  | deleted _ _ _ gone => exact gone
  | refused _ _ put => exact absurd ⟨removed, recorded⟩ put
  | stored _ serial put _ _ =>
    rcases clean.deletions h n at_h removed with before | refuses
    · exact absurd ⟨removed, before⟩ put
    · rw [serialize_eq_none_iff.mpr refuses] at serial
      cases serial

/-- A clean batch is recorded: each live node as it is after the purge. -/
theorem recorded_of_clean (clean : Clean ring s) {h : Handle} {n : Node}
    (at_h : s.nodes h = some n) (live : n.removed = false) :
    ∃ m data, (s.notifypurge ring).nodes h = some m ∧ m.serialize h = some data ∧
      s.flushed.nodes h = some { n with dbid := m.dbid } ∧ m.dbid % 16 = cachedNode ∧
      s.flushed.table.records m.dbid = some data := by
  obtain ⟨id, at_id, outcome, purged⟩ := purged_live ring batch room at_h live
  have accepted : n.serialize h ≠ none :=
    fun refused => clean.accepted h n at_h live (serialize_eq_none_iff.mp refused)
  obtain ⟨data, serial⟩ := Option.ne_none_iff_exists'.mp accepted
  obtain ⟨recorded, stored⟩ := stored_live batch at_h live serial outcome
  refine ⟨_, data, purged, ?_, at_id, ?_, stored⟩
  · have parent := (s.lateKey_flags ring h n).2
    have same : parentBytes (n.parent.filter fun p => !(s.nodes p).any (·.removed)) =
        parentBytes (s.lateKey ring h n).parent := by
      rw [parent]
      cases hp : n.parent with
      | none => rfl
      | some p =>
        cases at_p : s.nodes p with
        | none => simp [Option.filter, at_p]
        | some m =>
          cases removed : m.removed with
          | false => simp [Option.filter, at_p, removed]
          | true =>
            have zero := clean.parents h n p m at_h live hp at_p removed
            simpa [Option.filter, at_p, removed, eq_comm] using
              (parentBytes_eq_none_iff p).mpr zero
    exact (serialize_parent_congr same).trans ((clean.keys h n at_h live).trans serial)
  · exact ((Client.written_flushed batch room).ledger.ids h _ at_id recorded).1

theorem coherent_of_clean (clean : Clean ring s) : Coherent (s.notifypurge ring) := by
  have written := Client.written_flushed batch room
  refine ⟨?live, ?exact⟩
  case live =>
    intro h m at_m
    obtain ⟨n, at_h, live⟩ := purged_source batch room at_m
    obtain ⟨m', data, at_m', serial, _⟩ := recorded_of_clean batch room clean at_h live
    rw [at_m, Option.some.injEq] at at_m'
    exact ⟨data, at_m' ▸ serial⟩
  case exact =>
    intro id data
    rw [(Client.notifypurge_frame ring s).1]
    constructor
    · rintro ⟨kind, stored⟩
      obtain ⟨h, x, at_x, at_id⟩ := written.ledger.owned id kind
        (by rw [stored]; exact Option.some_ne_none data)
      cases at_h : s.nodes h with
      | none =>
        rw [written.absent h at_h] at at_x
        cases at_x
      | some n =>
        cases removed : n.removed with
        | false =>
          obtain ⟨m, data', at_m, serial, flushed, _, stored'⟩ :=
            recorded_of_clean batch room clean at_h removed
          rw [flushed, Option.some.injEq] at at_x
          have same : m.dbid = id := by rw [← at_id, ← at_x]
          rw [same, stored, Option.some.injEq] at stored'
          exact ⟨h, m, at_m, same, stored' ▸ serial⟩
        | true =>
          obtain ⟨id', at_id', outcome⟩ := written.present h n at_h
          rw [at_id', Option.some.injEq] at at_x
          have same : id' = id := by rw [← at_id, ← at_x]
          subst same
          have recorded : id' ≠ 0 := by
            rintro rfl
            cases kind
          rw [gone_removed batch clean at_h removed recorded outcome] at stored
          cases stored
    · rintro ⟨h, m, at_m, at_id, serial⟩
      obtain ⟨n, at_h, live⟩ := purged_source batch room at_m
      obtain ⟨m', data', at_m', serial', _, kind, stored⟩ :=
        recorded_of_clean batch room clean at_h live
      rw [at_m, Option.some.injEq] at at_m'
      subst at_m'
      rw [serial, Option.some.injEq] at serial'
      subst serial'
      exact at_id ▸ ⟨kind, stored⟩

/-- A coherent table holds the record of a node that is left, under the id that it was given. -/
theorem recorded_of_coherent (coherent : Coherent (s.notifypurge ring)) {h : Handle} {n : Node}
    (at_h : s.nodes h = some n) (live : n.removed = false) :
    ∃ id data, Outcome s s.flushed h n (h ∈ s.nodenotify) id ∧
      Node.serialize h { s.lateKey ring h n with
        parent := n.parent.filter fun p => !(s.nodes p).any (·.removed) } = some data ∧
      id % 16 = cachedNode ∧ s.flushed.table.records id = some data := by
  obtain ⟨id, _, outcome, purged⟩ := purged_live ring batch room at_h live
  obtain ⟨data, serial⟩ := coherent.live h _ purged
  obtain ⟨kind, stored⟩ := (coherent.exact id data).mpr ⟨h, _, purged, rfl, serial⟩
  rw [(Client.notifypurge_frame ring s).1] at stored
  exact ⟨id, data, outcome, serial, kind, stored⟩

/-- A node that is refused is not saved by a late key: with a record behind it, it is refused
with the new key too. -/
theorem accepted_of_coherent (coherent : Coherent (s.notifypurge ring)) {h : Handle} {n : Node}
    (at_h : s.nodes h = some n) (live : n.removed = false) : ¬n.Refused := by
  intro refuses
  obtain ⟨id, data, outcome, serial, kind, _⟩ := recorded_of_coherent batch room coherent at_h live
  have recorded : n.dbid ≠ 0 := by
    intro zero
    cases outcome with
    | waiting =>
      rw [zero] at kind
      cases kind
    | deleted _ removed =>
      rw [live] at removed
      cases removed
    | refused =>
      rw [zero] at kind
      cases kind
    | stored _ serial' =>
      rw [serialize_eq_none_iff.mpr refuses] at serial'
      cases serial'
  have late : (s.lateKey ring h n).Refused := by
    unfold Client.lateKey
    split
    · exact refuses
    · rcases (batch.keys h n at_h).applykey_recorded recorded ring s.nodes h with same | refused
      · rw [same]
        exact refuses
      · exact refused
  have still : Node.Refused { s.lateKey ring h n with
      parent := n.parent.filter fun p => !(s.nodes p).any (·.removed) } := late
  rw [serialize_eq_none_iff.mpr still] at serial
  cases serial

/-- The record written before the purge is the one that the node has after it. -/
theorem agree_of_coherent (coherent : Coherent (s.notifypurge ring)) {h : Handle} {n : Node}
    (at_h : s.nodes h = some n) (live : n.removed = false) :
    ∃ data, n.serialize h = some data ∧
      Node.serialize h { s.lateKey ring h n with
        parent := n.parent.filter fun p => !(s.nodes p).any (·.removed) } = some data := by
  obtain ⟨id, data, outcome, serial, _, stored⟩ :=
    recorded_of_coherent batch room coherent at_h live
  have accepted := accepted_of_coherent batch room coherent at_h live
  have nonempty : n.serialize h ≠ none :=
    fun refused => accepted (serialize_eq_none_iff.mp refused)
  obtain ⟨data', serial'⟩ := Option.ne_none_iff_exists'.mp nonempty
  have stored' := (stored_live batch at_h live serial' outcome).2
  rw [stored, Option.some.injEq] at stored'
  exact ⟨data, stored' ▸ serial', serial⟩

/-- A removed node leaves no record behind: its record would belong to it alone, and it is gone. -/
theorem deletion_of_coherent (coherent : Coherent (s.notifypurge ring)) {h : Handle} {n : Node}
    (at_h : s.nodes h = some n) (removed : n.removed = true) : n.dbid ≠ 0 ∨ n.Refused := by
  have written := Client.written_flushed batch room
  by_contra short_lived
  rw [not_or, not_not] at short_lived
  obtain ⟨id, at_id, outcome⟩ := written.present h n at_h
  cases outcome with
  | waiting open_ => exact open_ (batch.removed_listed at_h removed)
  | deleted _ _ recorded => exact recorded short_lived.1
  | refused _ refuses => exact short_lived.2 refuses
  | stored _ _ _ recorded present =>
    have kind := (written.ledger.ids h _ at_id recorded).1
    rw [← (Client.notifypurge_frame ring s).1] at present
    obtain ⟨k, m, at_k, same, _⟩ := (coherent.exact id _).mp ⟨kind, present⟩
    obtain ⟨o, at_o, live⟩ := purged_source batch room at_k
    obtain ⟨id', at_id', _, purged⟩ := purged_live ring batch room at_o live
    rw [purged, Option.some.injEq] at at_k
    have equal : id = id' := by rw [← same, ← at_k]
    have one := written.ledger.distinct h k _ _ at_id at_id' recorded equal
    rw [← one, at_h, Option.some.injEq] at at_o
    rw [← at_o, removed] at live
    cases live

theorem clean_of_coherent (coherent : Coherent (s.notifypurge ring)) : Clean ring s := by
  refine ⟨?deletions, ?accepted, ?keys, ?parents⟩
  case deletions =>
    intro h n at_h removed
    exact deletion_of_coherent batch room coherent at_h removed
  case accepted =>
    intro h n at_h live
    exact accepted_of_coherent batch room coherent at_h live
  case keys =>
    intro h n at_h live
    obtain ⟨data, serial, late⟩ := agree_of_coherent batch room coherent at_h live
    have parents := (serialize_inj serial late).2
    have parent := (s.lateKey_flags ring h n).2
    rw [serial, ← late]
    exact (serialize_parent_congr (by rw [parent]; exact parents.symm)).symm
  case parents =>
    intro h n p m at_h live at_p at_m removed
    obtain ⟨data, serial, late⟩ := agree_of_coherent batch room coherent at_h live
    have parents := (serialize_inj serial late).2
    have orphan : (n.parent.filter fun p => !(s.nodes p).any (·.removed)) = none := by
      simp [at_p, at_m, removed, Option.filter]
    rw [at_p] at parents
    exact (parentBytes_eq_none_iff p).mp (parents.trans (by rw [← at_p, orphan]))

/-- A clean batch leads back to a settled state. -/
theorem settled_of_clean (clean : Clean ring s) : Settled (s.notifypurge ring) := by
  have ledger := (Client.written_flushed batch room).ledger
  obtain ⟨table, users, list⟩ := Client.notifypurge_frame ring s
  refine ⟨coherent_of_clean batch room clean, ?_, ?_, ?_, ?_, list, ?calm, ?unset⟩
  · rw [table]
    exact ledger.aligned
  · rw [table]
    exact ledger.bounded
  · rw [table]
    exact ledger.scsn
  · rw [table, users]
    exact ledger.users
  case calm =>
    intro h m at_m
    obtain ⟨n, at_h, live⟩ := purged_source batch room at_m
    obtain ⟨id, _, _, purged⟩ := purged_live ring batch room at_h live
    rw [purged, Option.some.injEq] at at_m
    rw [← at_m]
    exact ⟨rfl, (s.lateKey_flags ring h n).1.trans live⟩
  case unset =>
    intro h m at_m
    obtain ⟨n, at_h, live⟩ := purged_source batch room at_m
    obtain ⟨id, _, _, purged⟩ := purged_live ring batch room at_h live
    rw [purged, Option.some.injEq] at at_m
    rw [← at_m]
    exact ((batch.keys h n at_h).rewrites (s.lateKey_rewrites ring h n)).unset

end Purge

/-- From a settled state, a batch is recorded faithfully exactly if it is clean. -/
theorem coherent_notifypurge_iff (ring : KeyRing) {c : Client} (settled : Settled c)
    (ops : List Client.Op) (room : (Runs.run (Client.step ring) c ops).Room) :
    Coherent ((Runs.run (Client.step ring) c ops).notifypurge ring) ↔
      Clean ring (Runs.run (Client.step ring) c ops) :=
  ⟨clean_of_coherent (settled.batch.run ring ops) room,
    coherent_of_clean (settled.batch.run ring ops) room⟩

namespace Sample

/-- A key ring that decrypts every key string to one key and every attribute string to
nothing. -/
def ring : KeyRing where
  subkey := fun _ _ _ _ => some (Vector.replicate 32 7)
  decryptattr := fun _ _ => some []

def empty : Client where
  nodes := fun _ => none
  users := fun _ => ⟨0, []⟩
  nodenotify := []
  usernotify := []
  table := ⟨Function.update (fun _ => none) 0 (some (List.replicate 8 0)), 0⟩
  scsn := Vector.replicate 8 0
  cachedscsn := Vector.replicate 8 0

def root : NodeArrival where
  handle := 1
  parenthandle := none
  type := rootNode
  size := 0
  owner := 5
  fileattrstring := []
  ts := 0
  tm := 0
  attrstring := []
  keystring := []

/-- A folder with a key string and encrypted attributes. -/
def folder : NodeArrival :=
  { root with
    handle := 2, parenthandle := some 1, type := folderNode, attrstring := [1], keystring := [2] }

theorem settled_empty : Settled empty where
  coherent := by
    refine ⟨fun h n at_h => (by cases at_h), fun id data => ⟨?_, ?_⟩⟩
    · rintro ⟨kind, stored⟩
      have zero : id = 0 := by
        by_contra ne
        simp [empty, ne] at stored
      rw [zero] at kind
      cases kind
    · rintro ⟨h, n, at_h, _⟩
      cases at_h
  aligned := rfl
  bounded := by
    intro id present
    by_contra far
    have ne : id ≠ 0 := by
      rintro rfl
      exact far (by decide)
    simp [empty, ne] at present
  scsn := rfl
  users := fun u recorded => absurd rfl recorded
  quiet := rfl
  calm := fun h n at_h => by cases at_h
  unset := fun h n at_h => by cases at_h

/-- Only the root is in the tree after its arrival. -/
theorem clean_root : Clean ring (Runs.run (Client.step ring) empty [.readnodes [root]]) := by
  have only : ∀ h n, (Runs.run (Client.step ring) empty [.readnodes [root]]).nodes h = some n →
      n = { Client.newNode root with notified := true } := by
    intro h n at_h
    have nodes : (Runs.run (Client.step ring) empty [.readnodes [root]]).nodes =
        Function.update (Function.update (fun _ => none) 1 (some (Client.newNode root))) 1
          (some { Client.newNode root with notified := true }) := rfl
    rw [nodes, Function.update_idem] at at_h
    by_cases one : h = 1
    · rw [one, Function.update_self, Option.some.injEq] at at_h
      exact at_h.symm
    · rw [Function.update_of_ne one] at at_h
      cases at_h
  refine ⟨fun h n at_h removed => ?_, fun h n at_h _ => ?_, fun h n at_h _ => ?_,
    fun h n p m at_h _ at_p => ?_⟩
  · rw [only h n at_h] at removed
    cases removed
  · rw [only h n at_h]
    decide
  · rw [only h n at_h]
    rfl
  · rw [only h n at_h] at at_p
    cases at_p

end Sample

theorem coherent_rootArrival :
    Coherent ((Runs.run (Client.step Sample.ring) Sample.empty
      [.readnodes [Sample.root]]).notifypurge Sample.ring) :=
  (coherent_notifypurge_iff Sample.ring Sample.settled_empty [.readnodes [Sample.root]]
    (by decide)).mpr Sample.clean_root

/-- A folder that arrives, is decrypted and is deleted before the next `notifypurge` leaves
a record behind. -/
theorem shortLived_incoherent :
    let start := (Runs.run (Client.step Sample.ring) Sample.empty
      [.readnodes [Sample.root]]).notifypurge Sample.ring
    let batch := Runs.run (Client.step Sample.ring) start
      [.readnodes [Sample.folder], .applykeys, .delete [2]]
    Settled start ∧ batch.Room ∧ ¬Coherent (batch.notifypurge Sample.ring) := by
  intro start batch
  have settled : Settled start :=
    settled_of_clean (Sample.settled_empty.batch.run Sample.ring _) (by decide) Sample.clean_root
  have room : batch.Room := by decide
  refine ⟨settled, room, fun coherent => ?_⟩
  have clean := clean_of_coherent (settled.batch.run Sample.ring _) room coherent
  have present : (batch.nodes 2).any (fun n => n.removed ∧ n.dbid = 0 ∧ ¬n.Refused) = true := by
    decide
  obtain ⟨n, at_n, flags⟩ := (Option.any_eq_true ..).mp present
  rw [decide_eq_true_eq] at flags
  rcases clean.deletions 2 n at_n flags.1 with recorded | refused
  · exact recorded flags.2.1
  · exact flags.2.2 refused

end MegaSdk.Cache
