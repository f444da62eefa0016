import MegaSdk.Sync.Debris

/-!
# Nodes on their way to SyncDebris

`execmovetosyncdebris` marks a node as being moved and ignores whether `rename` has queued a
command; the answer to that command is all that takes the mark away. Below are the runs in which no
mark is left behind.
-/

namespace MegaSdk.Sync.Debris

open ParentForest Runs

universe u
variable {User : Type u}

namespace State

variable {s t u : State User} {n p k : Ref} {syncdel : SyncDel}

theorem modify_node (s : State User) (n : Ref) (f : Node User → Node User) (k : Ref) :
    (s.modify n f).node k = if k = n then (s.node n).map f else s.node k :=
  Function.update_apply ..

/-- What is read of the nodes and kept by the change. -/
theorem modify_read {α : Type*} (read : Option (Node User) → α) {f : Node User → Node User}
    (keeps : ∀ node, read (some (f node)) = read (some node)) (s : State User) (n k : Ref) :
    read ((s.modify n f).node k) = read (s.node k) := by
  rw [modify_node]
  split
  · next same =>
    rw [same]
    cases s.node n with
    | none => rfl
    | some node => exact keeps node
  · rfl

structure SameMarks (s t : State User) : Prop where
  syncdeleted : t.syncdeleted = s.syncdeleted
  todebris : t.todebris = s.todebris
  reqs : t.reqs = s.reqs

theorem SameMarks.trans (first : SameMarks s t) (second : SameMarks t u) : SameMarks s u :=
  ⟨second.syncdeleted.trans first.syncdeleted, second.todebris.trans first.todebris,
    second.reqs.trans first.reqs⟩

theorem modify_marks (s : State User) (n : Ref) {f : Node User → Node User}
    (keeps : ∀ node, (f node).syncdeleted = node.syncdeleted) : SameMarks s (s.modify n f) :=
  ⟨funext fun k => modify_read (fun node => (node.map Node.syncdeleted).getD .none) keeps s n k,
    rfl, rfl⟩

/-- The node itself, if it is live, has the new state. -/
theorem setSyncdeleted_syncdeleted (s : State User) (n : Ref) (syncdel : SyncDel) (k : Ref) :
    (s.setSyncdeleted n syncdel).syncdeleted k =
      if k = n ∧ (s.node n).isSome then syncdel else s.syncdeleted k := by
  rw [syncdeleted, setSyncdeleted, modify_node]
  rcases eq_or_ne k n with rfl | other
  · rw [if_pos rfl]
    cases live : s.node k with
    | none => simp [syncdeleted, live]
    | some node => simp
  · simp [other, syncdeleted]

theorem setSyncdeleted_inflight (other : syncdel ≠ .inflight)
    (marked : (s.setSyncdeleted n syncdel).syncdeleted k = .inflight) :
    s.syncdeleted k = .inflight ∧ k ≠ n := by
  rw [setSyncdeleted_syncdeleted] at marked
  split at marked
  · exact absurd marked other
  · next elsewhere =>
    refine ⟨marked, ?_⟩
    rintro rfl
    refine elsewhere ⟨rfl, ?_⟩
    by_contra dead
    rw [Option.not_isSome_iff_eq_none] at dead
    rw [syncdeleted, dead] at marked
    cases marked

theorem setSyncdeleted_read {α : Type*} (read : Option (Node User) → α) {syncdel : SyncDel}
    (keeps : ∀ node, read (some { node with syncdeleted := syncdel }) = read (some node))
    (s : State User) (n k : Ref) : read ((s.setSyncdeleted n syncdel).node k) = read (s.node k) :=
  modify_read read keeps s n k

theorem setSyncdeleted_parent (s : State User) (n : Ref) (syncdel : SyncDel) :
    (s.setSyncdeleted n syncdel).parent = s.parent :=
  funext fun k => setSyncdeleted_read (·.bind Node.parent) (fun _ => rfl) s n k

/-- The check of a move does not look at the states. -/
theorem setSyncdeleted_checkmove [DecidableEq User] (s : State User) (n : Ref) (syncdel : SyncDel)
    (fn tn : Ref) : (s.setSyncdeleted n syncdel).checkmove fn tn = s.checkmove fn tn := by
  have parent := setSyncdeleted_parent s n syncdel
  have inshare : (s.setSyncdeleted n syncdel).inshare = s.inshare :=
    funext fun k => setSyncdeleted_read (·.bind Node.inshare) (fun _ => rfl) s n k
  have type : (s.setSyncdeleted n syncdel).type = s.type :=
    funext fun k => setSyncdeleted_read (fun node => (node.map Node.type).getD typeUnknown)
      (fun _ => rfl) s n k
  have next : (s.setSyncdeleted n syncdel).next = s.next := rfl
  have loggedIn : (s.setSyncdeleted n syncdel).loggedIn = s.loggedIn := rfl
  have shared : (s.setSyncdeleted n syncdel).shared = s.shared := by
    funext k
    rw [State.shared, State.shared, inshare]
  have top : (s.setSyncdeleted n syncdel).top = s.top := by
    funext k
    rw [State.top, State.top, parent, shared, next]
  have access : (s.setSyncdeleted n syncdel).checkaccess = s.checkaccess := by
    funext k a
    rw [checkaccess, checkaccess, inshare, type, top, loggedIn]
  have same : (s.setSyncdeleted n syncdel).sameTree = s.sameTree := by
    funext f t
    rw [State.sameTree, State.sameTree, inshare]
  rw [checkmove, checkmove, parent, type, shared, top, access, next, same]

/-- A node is taken out of the children of its parent. -/
theorem unlink_marks (s : State User) (n : Ref) : SameMarks s
    (match s.parent n with
      | none => s
      | some q => s.modify q fun node => { node with children := node.children.erase n }) := by
  split
  · exact ⟨rfl, rfl, rfl⟩
  · exact modify_marks s _ fun _ => rfl

theorem relink_marks (s : State User) (n p : Ref) : SameMarks s (s.relink n p) := by
  rw [relink]
  apply (unlink_marks s n).trans
  apply (modify_marks _ n _).trans
  · exact modify_marks _ p fun _ => rfl
  · exact fun _ => rfl

/-- `rename` queues a command exactly if the move is permitted and the node is elsewhere. -/
theorem rename_keeps [DecidableEq User] (s : State User) (n p : Ref) (syncdel : SyncDel) :
    (s.rename n p syncdel).syncdeleted = s.syncdeleted ∧
      (s.rename n p syncdel).todebris = s.todebris ∧
      (s.rename n p syncdel).reqs =
        if s.checkmove n p = .ok ∧ s.parent n ≠ some p then s.reqs ++ [⟨n, p, syncdel⟩]
        else s.reqs := by
  obtain ⟨states, todebris, -⟩ := relink_marks s n p
  rw [rename]
  split
  · exact ⟨states, todebris, rfl⟩
  · exact ⟨rfl, rfl, rfl⟩

/-- The answer to one of the commands will change the state of the node. -/
def Queued (reqs : List MoveCommand) (n : Ref) : Prop :=
  ∃ c ∈ reqs, c.n = n ∧ c.syncdel ≠ .none

instance (reqs : List MoveCommand) (n : Ref) : Decidable (Queued reqs n) :=
  inferInstanceAs (Decidable (∃ c ∈ reqs, _))

/-- Every node that is being moved is in `todebris` and has its own command. -/
structure Accounted (s : State User) : Prop where
  nodup : s.todebris.Nodup
  listed : ∀ {n}, s.syncdeleted n = .inflight → n ∈ s.todebris
  queued : ∀ {n}, s.syncdeleted n = .inflight → Queued s.reqs n
  targets : ∀ c ∈ s.reqs, c.syncdel ≠ .inflight

/-- Nobody else is being moved, and those that are have what they need. -/
theorem Accounted.mono (accounted : Accounted s) (nodup : t.todebris.Nodup)
    (fewer : ∀ {k}, t.syncdeleted k = .inflight → s.syncdeleted k = .inflight ∧
      (k ∈ s.todebris → k ∈ t.todebris) ∧ (Queued s.reqs k → Queued t.reqs k))
    (targets : ∀ c ∈ t.reqs, c ∈ s.reqs ∨ c.syncdel ≠ .inflight) : Accounted t where
  nodup := nodup
  listed marked := (fewer marked).2.1 (accounted.listed (fewer marked).1)
  queued marked := (fewer marked).2.2 (accounted.queued (fewer marked).1)
  targets c member := (targets c member).elim (accounted.targets c) id

theorem Accounted.congr (accounted : Accounted s) (same : SameMarks s t) : Accounted t := by
  refine accounted.mono (same.todebris ▸ accounted.nodup) (fun marked => ?_) fun c member => ?_
  · rw [same.syncdeleted] at marked
    rw [same.todebris, same.reqs]
    exact ⟨marked, id, id⟩
  · exact Or.inl (same.reqs ▸ member)

theorem queued_append {reqs : List MoveCommand} (more : List MoveCommand)
    (queued : Queued reqs n) : Queued (reqs ++ more) n := by
  obtain ⟨c, member, same⟩ := queued
  exact ⟨c, List.mem_append_left _ member, same⟩

theorem Accounted.rename [DecidableEq User] (accounted : Accounted s) (n p : Ref)
    (moved : syncdel ≠ .inflight) : Accounted (s.rename n p syncdel) := by
  obtain ⟨states, todebris, reqs⟩ := rename_keeps s n p syncdel
  refine accounted.mono (todebris ▸ accounted.nodup) (fun marked => ?_) fun c member => ?_
  · rw [states] at marked
    rw [todebris, reqs]
    refine ⟨marked, id, fun queued => ?_⟩
    split
    · exact queued_append _ queued
    · exact queued
  · rw [reqs] at member
    split at member
    · rcases List.mem_append.mp member with old | new
      · exact Or.inl old
      · rw [List.mem_singleton] at new
        exact Or.inr (new ▸ moved)
    · exact Or.inl member

theorem Accounted.setSyncdeleted (accounted : Accounted s) (n : Ref)
    (other : syncdel ≠ .inflight) : Accounted (s.setSyncdeleted n syncdel) :=
  accounted.mono accounted.nodup
    (fun marked => ⟨(setSyncdeleted_inflight other marked).1, id, id⟩) fun _ => Or.inl

theorem Accounted.insertDebris (accounted : Accounted s) (address : Ref → Nat) (n : Ref) :
    Accounted (s.insertDebris address n) := by
  rw [State.insertDebris]
  split
  · exact accounted
  · next absent =>
    have same := List.perm_orderedInsert (fun a b => address a ≤ address b) n s.todebris
    refine accounted.mono (same.nodup_iff.mpr (List.nodup_cons.mpr ⟨absent, accounted.nodup⟩))
      (fun marked => ⟨marked, fun member => ?_, id⟩) fun _ => Or.inl
    exact same.mem_iff.mpr (List.mem_cons_of_mem _ member)

theorem Accounted.movetosyncdebris (accounted : Accounted s) (address : Ref → Nat) (dn : Ref) :
    Accounted (s.movetosyncdebris address dn) := by
  have marked : Accounted (s.setSyncdeleted dn .deleted) := accounted.setSyncdeleted dn nofun
  rw [State.movetosyncdebris]
  split
  · exact marked
  · exact marked.insertDebris address dn

theorem Accounted.forget (accounted : Accounted s) (n : Ref) : Accounted (s.forget n) := by
  refine accounted.mono (accounted.nodup.erase n) (fun marked => ?_) fun _ => Or.inl
  have other : SyncDel.none ≠ .inflight := nofun
  obtain ⟨before, other⟩ := setSyncdeleted_inflight other marked
  exact ⟨before, (List.mem_erase_of_ne other).mpr, id⟩

theorem target_kind {day : Bytes} {tn : Ref} {target : SyncDel}
    (found : s.target day = some (tn, target)) :
    target ≠ .none ∧ target ≠ .inflight := by
  rw [State.target] at found
  split at found
  · cases found
  · split at found
    · cases found
      exact ⟨nofun, nofun⟩
    · split at found
      all_goals
        cases found
        exact ⟨nofun, nofun⟩

section Loop

variable [DecidableEq User] {tn : Ref} {target : SyncDel}

/-- The loop takes the node for one that is to be moved now. -/
def marks (s : State User) (target : SyncDel) (n : Ref) : Bool :=
  s.movesTo target n && !s.parentOnTheWay n

/-- The command for a node that the loop marks: `rename` queues it, or it has been queued before. -/
def Sends (tn : Ref) (target : SyncDel) (s : State User) (n : Ref) : Prop :=
  s.marks target n = true →
    s.checkmove n tn = .ok ∧ s.parent n ≠ some tn ∨ Queued s.reqs n

instance : Decidable (Sends tn target s n) := inferInstanceAs (Decidable (_ → _))

/-- What the loop does with a node. -/
theorem visit_cases (s : State User) (tn : Ref) (target : SyncDel) (n : Ref) :
    s.visit tn target n = s ∨ s.visit tn target n = s.forget n ∨
      s.marks target n = true ∧
        s.visit tn target n = (s.setSyncdeleted n .inflight).rename n tn target := by
  rw [visit]
  split
  case h_4 => exact Or.inr (Or.inl rfl)
  case h_5 | h_6 => exact Or.inl rfl
  all_goals
    split
    · exact Or.inl rfl
    · next free =>
      split
      · next moves =>
        refine Or.inr (Or.inr ⟨?_, rfl⟩)
        rw [marks, moves, Bool.true_and, Bool.not_eq_true', ← Bool.not_eq_true]
        exact free
      · exact Or.inr (Or.inl rfl)

/-- Only the node itself leaves the set. -/
theorem visit_todebris (other : k ≠ n) (member : k ∈ s.todebris) :
    k ∈ (s.visit tn target n).todebris := by
  rcases visit_cases s tn target n with same | erased | ⟨-, moved⟩
  · rwa [same]
  · rw [erased]
    exact (List.mem_erase_of_ne other).mpr member
  · rw [moved, (rename_keeps ..).2.1]
    exact member

theorem Accounted.visit (accounted : Accounted s) (member : n ∈ s.todebris)
    (kind : target ≠ .none ∧ target ≠ .inflight) (sends : Sends tn target s n) :
    Accounted (s.visit tn target n) := by
  rcases visit_cases s tn target n with same | erased | ⟨marked, moved⟩
  · rwa [same]
  · rw [erased]
    exact accounted.forget n
  · rw [moved]
    obtain ⟨states, todebris, reqs⟩ :=
      rename_keeps (s.setSyncdeleted n .inflight) n tn target
    rw [setSyncdeleted_checkmove, setSyncdeleted_parent] at reqs
    generalize (s.setSyncdeleted n .inflight).rename n tn target = t at states todebris reqs
    have before : ∀ {k}, k ≠ n → t.syncdeleted k = .inflight → s.syncdeleted k = .inflight := by
      intro k other marked
      rw [states, setSyncdeleted_syncdeleted, if_neg fun same => other same.1] at marked
      exact marked
    have kept : ∀ {k}, Queued s.reqs k → Queued t.reqs k := by
      intro k queued
      rw [reqs]
      split
      · exact queued_append _ queued
      · exact queued
    refine ⟨?nodup, ?listed, ?queued, ?targets⟩
    case nodup => exact todebris ▸ accounted.nodup
    case listed =>
      intro k inflight
      rw [todebris]
      rcases eq_or_ne k n with rfl | other
      · exact member
      · exact accounted.listed (before other inflight)
    case queued =>
      intro k inflight
      rcases eq_or_ne k n with rfl | other
      · rcases sends marked with permitted | queued
        · rw [reqs, if_pos permitted]
          exact ⟨_, List.mem_append_right _ List.mem_cons_self, rfl, kind.1⟩
        · exact kept queued
      · exact kept (accounted.queued (before other inflight))
    case targets =>
      intro c member
      rw [reqs] at member
      split at member
      · rcases List.mem_append.mp member with old | new
        · exact accounted.targets c old
        · rw [List.mem_singleton] at new
          exact new ▸ kind.2
      · exact accounted.targets c member

/-- Along the loop, every node that is still to be visited is in `todebris`. -/
theorem Accounted.visits {rest : List Ref} (accounted : Accounted s)
    (members : ∀ n ∈ rest, n ∈ s.todebris) (nodup : rest.Nodup)
    (kind : target ≠ .none ∧ target ≠ .inflight)
    (meets : Meets (fun s n => s.visit tn target n) (Sends tn target) s rest) :
    Accounted (rest.foldl (fun s n => s.visit tn target n) s) := by
  induction rest generalizing s with
  | nil => exact accounted
  | cons n rest ih =>
    obtain ⟨first, nodup⟩ := List.nodup_cons.mp nodup
    have member := members n List.mem_cons_self
    refine ih (accounted.visit member kind meets.1) (fun k later => ?_) nodup meets.2
    refine visit_todebris ?_ (members k (List.mem_cons_of_mem _ later))
    rintro rfl
    exact first later

end Loop

theorem isBelow_self (s : State User) (n : Ref) : s.isBelow n n = true := by
  rw [isBelow, climb, if_pos (decide_eq_true rfl), decide_eq_true_eq]

/-- What stays marked is not in the subtree. -/
theorem updates_inflight {top : Ref} (other : syncdel ≠ .inflight) {records : List Ref}
    (marked : (records.foldl (fun s n => if s.isBelow top n then s.setSyncdeleted n syncdel else s)
      s).syncdeleted k = .inflight) :
    s.syncdeleted k = .inflight ∧ (k ∈ records → s.isBelow top k = false) := by
  induction records generalizing s with
  | nil => exact ⟨marked, fun member => absurd member List.not_mem_nil⟩
  | cons n rest ih =>
    rw [List.foldl_cons] at marked
    split at marked
    · obtain ⟨before, later⟩ := ih marked
      obtain ⟨before, differs⟩ := setSyncdeleted_inflight other before
      have same : (s.setSyncdeleted n syncdel).isBelow top k = s.isBelow top k := by
        rw [isBelow, isBelow, setSyncdeleted_parent]
        rfl
      rw [same] at later
      exact ⟨before, fun member => later ((List.mem_cons.mp member).resolve_left differs)⟩
    · next outside =>
      obtain ⟨before, later⟩ := ih marked
      refine ⟨before, fun member => ?_⟩
      rcases List.mem_cons.mp member with rfl | member
      · exact Bool.eq_false_iff.mpr outside
      · exact later member

theorem updates_keep {top : Ref} (s : State User) (records : List Ref) :
    (records.foldl (fun s n => if s.isBelow top n then s.setSyncdeleted n syncdel else s)
        s).todebris = s.todebris ∧
      (records.foldl (fun s n => if s.isBelow top n then s.setSyncdeleted n syncdel else s)
        s).reqs = s.reqs := by
  induction records generalizing s with
  | nil => exact ⟨rfl, rfl⟩
  | cons n rest ih =>
    rw [List.foldl_cons]
    split
    · exact ih _
    · exact ih _

/-- The answer to a command does not leave its node marked without another command. -/
def Settles (s : State User) : Response → Prop
  | .numeric _ => True
  | .other => ∀ c ∈ s.reqs.head?,
      c.syncdel = .none ∨ s.syncdeleted c.n ≠ .inflight ∨ Queued s.reqs.tail c.n

instance (s : State User) : ∀ response, Decidable (Settles s response)
  | .numeric _ => isTrue trivial
  | .other => inferInstanceAs (Decidable (∀ c ∈ s.reqs.head?, _))

/-- The answered command was not the one that the node is waiting for. -/
theorem queued_tail {c : MoveCommand} {rest : List MoveCommand}
    (foreign : c.syncdel = .none ∨ k ≠ c.n) (queued : Queued (c :: rest) k) : Queued rest k := by
  obtain ⟨c', member, same, kind⟩ := queued
  rcases List.mem_cons.mp member with rfl | later
  · rcases foreign with none | other
    · exact absurd none kind
    · exact absurd same.symm other
  · exact ⟨c', later, same, kind⟩

theorem Accounted.procresult (accounted : Accounted s) {response : Response}
    (settles : Settles s response) : Accounted (s.procresult response) := by
  cases reqs : s.reqs with
  | nil =>
    have same : s.procresult response = s := by simp only [State.procresult, reqs]
    exact same.symm ▸ accounted
  | cons c rest =>
    have kind := accounted.targets c (reqs ▸ List.mem_cons_self)
    have later : ∀ {t : State User}, t.reqs = rest → ∀ c' ∈ t.reqs,
        c' ∈ s.reqs ∨ c'.syncdel ≠ .inflight := by
      intro t same c' member
      exact Or.inl (reqs ▸ List.mem_cons_of_mem _ (same ▸ member))
    have foreign : ∀ {k}, c.syncdel = .none ∨ k ≠ c.n → Queued s.reqs k → Queued rest k := by
      intro k other queued
      exact queued_tail other (reqs ▸ queued)
    simp only [State.procresult, reqs]
    cases response with
    | other =>
      have waits := settles c (by rw [reqs]; rfl)
      rw [reqs] at waits
      refine accounted.mono accounted.nodup (fun {k} marked => ⟨marked, id, fun queued => ?_⟩)
        (later rfl)
      have marked : s.syncdeleted k = .inflight := marked
      rcases waits with plain | unmarked | again
      · exact foreign (Or.inl plain) queued
      · refine foreign (Or.inr ?_) queued
        rintro rfl
        exact unmarked marked
      · by_cases same : k = c.n
        · exact same ▸ again
        · exact foreign (Or.inr same) queued
    | numeric e =>
      dsimp only
      split
      · next plain =>
        exact accounted.mono accounted.nodup
          (fun marked => ⟨marked, id, foreign (Or.inl plain)⟩) (later rfl)
      · split
        · -- The records of the subtree, that of the node included, get the new state.
          obtain ⟨todebris, same⟩ := @updates_keep _ c.syncdel c.n { s with reqs := rest }
            s.todebris
          refine accounted.mono ?_ (fun {k} marked => ?_) (later same)
          · exact todebris.symm ▸ accounted.nodup
          · obtain ⟨before, outside⟩ := updates_inflight kind marked
            have before : s.syncdeleted k = .inflight := before
            refine ⟨before, fun member => todebris.symm ▸ member, fun queued => ?_⟩
            refine same.symm ▸ foreign (Or.inr ?_) queued
            rintro rfl
            have inside := outside (accounted.listed before)
            rw [isBelow_self] at inside
            cases inside
        · refine accounted.mono accounted.nodup (fun {k} marked => ?_) (later rfl)
          have other : SyncDel.none ≠ .inflight := nofun
          obtain ⟨before, other⟩ := setSyncdeleted_inflight other marked
          exact ⟨before, id, foreign (Or.inr other)⟩

theorem unparent_marks (children : List Ref) (s : State User) : SameMarks s
    (children.foldl (fun s c => s.modify c fun node => { node with parent := none }) s) := by
  induction children generalizing s with
  | nil => exact ⟨rfl, rfl, rfl⟩
  | cons c rest ih =>
    rw [List.foldl_cons]
    refine SameMarks.trans ?_ (ih _)
    exact modify_marks s c fun _ => rfl

/-- One node is written over, and it is not being moved. -/
theorem overwrite_inflight (node : Option (Node User))
    (unmarked : (node.map Node.syncdeleted).getD .none ≠ .inflight)
    (written : t.node = Function.update s.node n node) (marked : t.syncdeleted k = .inflight) :
    s.syncdeleted k = .inflight ∧ k ≠ n := by
  rw [syncdeleted, written] at marked
  rcases eq_or_ne k n with rfl | other
  · rw [Function.update_self] at marked
    exact absurd marked unmarked
  · rw [Function.update_of_ne other] at marked
    exact ⟨marked, other⟩

theorem Accounted.delete (accounted : Accounted s) (n : Ref) : Accounted (s.delete n) := by
  have deleted : ∀ x : State User, SameMarks { s with todebris := s.todebris.erase n } x →
      Accounted { x with
        node := Function.update x.node n none
        rubbish := x.rubbish.filter fun r => r ≠ n } := by
    intro x same
    refine accounted.mono ?_ (fun {k} marked => ?_) fun c member => Or.inl (same.reqs ▸ member)
    · exact same.todebris.symm ▸ accounted.nodup.erase n
    · obtain ⟨before, other⟩ := overwrite_inflight (s := x) none nofun rfl marked
      refine ⟨(congrFun same.syncdeleted k).symm.trans before, fun member => ?_, fun queued => ?_⟩
      · exact same.todebris.symm ▸ (List.mem_erase_of_ne other).mpr member
      · exact same.reqs.symm ▸ queued
  exact deleted _ ((unlink_marks _ n).trans (unparent_marks _ _))

theorem Accounted.newNode (accounted : Accounted s) (type : NodeType) (p : Option Ref)
    (displayname : Bytes) (inshare : Option (Tree.Share User)) :
    Accounted (s.newNode type p displayname inshare) := by
  have fresh : Accounted { s with
      node := Function.update s.node s.next (some ⟨type, none, [], displayname, inshare, .none⟩)
      rubbish := if type = rubbishNode then some s.next else s.rubbish
      next := s.next + 1 } := by
    refine accounted.mono accounted.nodup (fun {k} marked => ?_) fun _ => Or.inl
    exact ⟨(overwrite_inflight (s := s) _ (by simp) rfl marked).1, id, id⟩
  cases p with
  | none => exact fresh
  | some p =>
    simp only [State.newNode]
    split
    · exact fresh.congr (relink_marks ..)
    · exact fresh

end State

theorem accounted_start (loggedIn : Bool) : (State.start loggedIn : State User).Accounted :=
  ⟨List.nodup_nil, nofun, nofun, nofun⟩

/-- A command whose answer will be applied to the node is queued or in flight: its own, or that of
one of its parents in `todebris`. -/
def State.Awaits (s : State User) (n : Ref) : Prop :=
  ∃ c ∈ s.reqs, c.syncdel ≠ .none ∧ (c.n = n ∨ c.n ∈ s.todebris ∧ AtOrAbove s.parent c.n n)

theorem State.Accounted.awaits {s : State User} {n : Ref} (accounted : s.Accounted)
    (inflight : s.syncdeleted n = .inflight) : s.Awaits n := by
  obtain ⟨c, member, same, kind⟩ := accounted.queued inflight
  exact ⟨c, member, kind, Or.inl same⟩

variable [DecidableEq User] {address : Ref → Nat}

/-- The loop queues a command for every node that it marks, and a command's answer does not leave
its node marked. -/
def KeepsCommands (s : State User) : Event User → Prop
  | .execmovetosyncdebris day => ∀ place ∈ s.target day,
      Meets (fun s n => s.visit place.1 place.2 n) (State.Sends place.1 place.2) s s.todebris
  | .procresult response => s.Settles response
  | .movetosyncdebris _ | .rename _ _ | .delete _ | .newNode .. | .setparent _ _ => True

instance (s : State User) : ∀ e, Decidable (KeepsCommands s e)
  | .execmovetosyncdebris day => inferInstanceAs (Decidable (∀ place ∈ s.target day, _))
  | .procresult response => inferInstanceAs (Decidable (s.Settles response))
  | .movetosyncdebris _ | .rename _ _ | .delete _ | .newNode .. | .setparent _ _ => isTrue trivial

theorem State.Accounted.step {s : State User} {e : Event User} (accounted : s.Accounted)
    (keeps : KeepsCommands s e) : (step address s e).Accounted := by
  cases e with
  | movetosyncdebris dn =>
    rw [Debris.step]
    split
    · exact accounted.movetosyncdebris address dn
    · exact accounted
  | execmovetosyncdebris day =>
    rw [Debris.step, State.execmovetosyncdebris]
    split
    · exact accounted
    · next tn target found =>
      exact accounted.visits (fun _ => id) accounted.nodup (State.target_kind found)
        (keeps (tn, target) found)
  | rename n p =>
    rw [Debris.step]
    split
    · exact accounted.rename n p nofun
    · exact accounted
  | procresult response => exact accounted.procresult keeps
  | delete n => exact accounted.delete n
  | newNode type p displayname inshare => exact accounted.newNode type p displayname inshare
  | setparent n p =>
    rw [Debris.step]
    split
    · exact accounted.congr (State.relink_marks s n p)
    · exact accounted

/-- In-flight deletions have a command, as long as the moves that the loop tries are permitted and
needed, and the answers are numbers. -/
theorem inflight_awaits (loggedIn : Bool) {events : List (Event User)}
    (meets : Meets (step address) KeepsCommands (State.start loggedIn) events) :
    Always (step address) (fun s => ∀ n, s.syncdeleted n = .inflight → s.Awaits n)
      (State.start loggedIn) events := by
  have keeps : ∀ (s : State User) e, s.Accounted → KeepsCommands s e →
      (step address s e).Accounted := fun _ _ accounted => accounted.step
  exact (always_of_meets keeps (accounted_start loggedIn) meets).mono
    fun _ accounted _ => accounted.awaits

/-- A file in the cloud drive is deleted from a synced folder and moved to the rubbish bin. -/
def debrisRun : List (Event Nat) :=
  [.newNode rootNode none [] none, .newNode rubbishNode none [] none,
    .newNode fileNode (some 0) [97] none, .movetosyncdebris 2, .execmovetosyncdebris [49],
    .procresult (.numeric 0)]

theorem debrisRun_awaits : Always (step id)
    (fun s : State Nat => ∀ n, s.syncdeleted n = .inflight → s.Awaits n)
    (State.start true) debrisRun :=
  inflight_awaits true (by decide)

/-- A file in an inbound share is deleted. It must not be moved to the rubbish bin, which belongs to
another user, and no command is queued. -/
theorem shareRun_lost : ¬Always (step id)
    (fun s : State Nat => ∀ n, s.syncdeleted n = .inflight → s.Awaits n) (State.start true)
    [.newNode rubbishNode none [] none, .newNode folderNode none [97] (some ⟨5, full⟩),
      .newNode fileNode (some 1) [98] none, .movetosyncdebris 2, .execmovetosyncdebris [49]] := by
  intro always
  obtain ⟨c, member, -⟩ := always.at_end 2 (by decide)
  exact absurd member List.not_mem_nil

end MegaSdk.Sync.Debris
