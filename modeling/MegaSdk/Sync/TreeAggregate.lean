import MegaSdk.Sync.TreeState
import MegaSdk.Lib.Runs

/-!
# Folders show the states of their children

A folder shows the states of its children, once it or a child has a state. `treestate` keeps this
above the node it is called on, unless a first state passes a folder that has none yet.
-/

namespace MegaSdk.Sync.States

open ParentForest Runs

/-- The state of a folder with children in these states. -/
def aggregateOf (states : List TreeState) : TreeState :=
  if .syncing ∈ states then .syncing else if .pending ∈ states then .pending else .synced

section Aggregate

variable {states more : List TreeState}

theorem aggregateFrom_pending (states : List TreeState) :
    aggregateFrom .pending states = if .syncing ∈ states then .syncing else .pending := by
  induction states with
  | nil => rfl
  | cons child rest ih =>
    rw [aggregateFrom]
    cases child <;> simp [ih]

theorem aggregateFrom_synced (states : List TreeState) :
    aggregateFrom .synced states = aggregateOf states := by
  induction states with
  | nil => rfl
  | cons child rest ih =>
    rw [aggregateFrom]
    cases child <;> simp [ih, aggregateOf, aggregateFrom_pending]

theorem aggregateOf_ne_none : aggregateOf states ≠ .none := by
  rw [aggregateOf]
  split_ifs <;> exact nofun

/-- Only which states occur matters. -/
theorem aggregateOf_congr (syncing : .syncing ∈ states ↔ .syncing ∈ more)
    (pending : .pending ∈ states ↔ .pending ∈ more) : aggregateOf states = aggregateOf more := by
  simp only [aggregateOf, syncing, pending]

theorem aggregateOf_syncing (busy : .syncing ∈ states) : aggregateOf states = .syncing :=
  if_pos busy

/-- A further child in this state makes no difference to its folder. -/
def Covered (state : TreeState) (states : List TreeState) : Prop :=
  state = .none ∨ state = .synced ∨ .syncing ∈ states ∨ state ∈ states

instance (state : TreeState) (states : List TreeState) : Decidable (Covered state states) :=
  inferInstanceAs (Decidable (_ ∨ _))

theorem aggregateOf_cons {state : TreeState} (covered : Covered state states) :
    aggregateOf (state :: states) = aggregateOf states := by
  rw [aggregateOf, aggregateOf]
  rcases covered with rfl | rfl | busy | member
  · simp
  · simp
  · simp [busy]
  · cases state <;> simp [member]

/-- One state among children that have none. -/
theorem aggregateOf_single {state : TreeState} (given : state ≠ .none) (mem : state ∈ states)
    (only : ∀ other ∈ states, other = state ∨ other = .none) : aggregateOf states = state := by
  have absent : ∀ other, other ≠ state → other ≠ .none → other ∉ states := fun other new some mem =>
    (only other mem).elim new some
  cases state with
  | none => exact absurd rfl given
  | syncing => exact aggregateOf_syncing mem
  | pending => rw [aggregateOf, if_neg (absent _ (by decide) (by decide)), if_pos mem]
  | synced =>
    rw [aggregateOf, if_neg (absent _ (by decide) (by decide)),
      if_neg (absent _ (by decide) (by decide))]

theorem aggregateOf_ne_syncing (calm : .syncing ∉ states) : aggregateOf states ≠ .syncing := by
  rw [aggregateOf, if_neg calm]
  split_ifs <;> decide

theorem aggregateOf_synced :
    aggregateOf states = .synced ↔ .syncing ∉ states ∧ .pending ∉ states := by
  rw [aggregateOf]
  by_cases busy : .syncing ∈ states
  · simp [busy]
  · by_cases waiting : .pending ∈ states
    · simp [busy, waiting]
    · simp [busy, waiting]

/-- A child that begins to wait makes no difference where the folder is not synced. -/
theorem aggregateOf_grow (syncing : .syncing ∈ more ↔ .syncing ∈ states)
    (pending : .pending ∈ states → .pending ∈ more)
    (back : .pending ∈ more → .pending ∈ states ∨ aggregateOf states ≠ .synced) :
    aggregateOf states = aggregateOf more := by
  by_cases busy : .syncing ∈ states
  · rw [aggregateOf_syncing busy, aggregateOf_syncing (syncing.mpr busy)]
  · refine aggregateOf_congr syncing.symm ⟨pending, fun waits => ?_⟩
    by_contra calm
    exact (back waits).elim calm fun state => state (aggregateOf_synced.mpr ⟨busy, calm⟩)

end Aggregate

namespace Forest

theorem aggregate_eq (s : Forest) (p : LocalRef) : s.aggregate p = aggregateOf (s.childStates p) :=
  aggregateFrom_synced _

structure SameShape (s t : Forest) : Prop where
  parent : t.parent = s.parent
  children : t.children = s.children
  localname : t.localname = s.localname
  node : t.node = s.node
  next : t.next = s.next

structure SameAt (s t : Forest) (k : LocalRef) : Prop where
  ts : t.ts k = s.ts k
  dts : t.dts k = s.dts k

section Frames

variable {s t u : Forest} {r p k : LocalRef} {newts state : TreeState}

theorem SameShape.refl (s : Forest) : SameShape s s := ⟨rfl, rfl, rfl, rfl, rfl⟩

theorem SameShape.trans (first : SameShape s t) (second : SameShape t u) : SameShape s u :=
  ⟨second.parent.trans first.parent, second.children.trans first.children,
    second.localname.trans first.localname, second.node.trans first.node,
    second.next.trans first.next⟩

theorem SameAt.trans (first : SameAt s t k) (second : SameAt t u k) : SameAt s u k :=
  ⟨second.ts.trans first.ts, second.dts.trans first.dts⟩

theorem setTs_shape : SameShape s (s.setTs r state) := ⟨rfl, rfl, rfl, rfl, rfl⟩

theorem setTs_same (other : k ≠ r) : SameAt s (s.setTs r state) k :=
  ⟨Function.update_of_ne other _ _, rfl⟩

@[simp] theorem setTs_ts : (s.setTs r state).ts r = state := Function.update_self ..

theorem display_shape : SameShape s (s.display r) := ⟨rfl, rfl, rfl, rfl, rfl⟩

theorem display_same (other : k ≠ r) : SameAt s (s.display r) k :=
  ⟨rfl, Function.update_of_ne other _ _⟩

@[simp] theorem display_dts : (s.display r).dts r = s.ts r := Function.update_self ..

theorem assign_shape (s : Forest) (r : LocalRef) (newts : TreeState) :
    SameShape s (s.assign r newts) := by
  rw [assign]
  split
  · exact .refl s
  · exact setTs_shape

theorem assign_same (newts : TreeState) (other : k ≠ r) :
    SameAt s (s.assign r newts) k := by
  rw [assign]
  split
  · exact ⟨rfl, rfl⟩
  · exact setTs_same other

theorem assign_dts : (s.assign r newts).dts = s.dts := by
  rw [assign]
  split <;> rfl

theorem assign_ts : (s.assign r newts).ts r = if newts = .none then s.ts r else newts := by
  rw [assign]
  split
  · rfl
  · exact setTs_ts

theorem tellParent_shape (s : Forest) (r p : LocalRef) (newts : TreeState) :
    SameShape s (s.tellParent r p newts) := by
  rw [tellParent]
  split_ifs
  · exact setTs_shape
  · exact setTs_shape
  · exact .refl s

theorem tellParent_same (r : LocalRef) (newts : TreeState) (other : k ≠ p) :
    SameAt s (s.tellParent r p newts) k := by
  rw [tellParent]
  split_ifs
  · exact setTs_same other
  · exact setTs_same other
  · exact ⟨rfl, rfl⟩

theorem tellParent_dts : (s.tellParent r p newts).dts = s.dts := by
  rw [tellParent]
  split_ifs <;> rfl

theorem report_root (fuel : Nat) (root : s.parent r = none) :
    report (fuel + 1) s r newts = (s.assign r newts).display r := by
  have above := (assign_shape s r newts).parent
  rw [report]
  simp only [above, root]

theorem report_child (fuel : Nat) (child : s.parent r = some p) :
    report (fuel + 1) s r newts =
      (report fuel ((s.assign r newts).tellParent r p newts) p .none).display r := by
  have above := (assign_shape s r newts).parent
  rw [report]
  simp only [above, child]

theorem report_shape (fuel : Nat) : SameShape s (report fuel s r newts) := by
  induction fuel generalizing s r newts with
  | zero => exact .refl s
  | succ fuel ih =>
    cases above : s.parent r with
    | none =>
      rw [report_root fuel above]
      exact (assign_shape s r newts).trans display_shape
    | some p =>
      rw [report_child fuel above]
      have told := (assign_shape s r newts).trans (tellParent_shape _ r p newts)
      exact (told.trans ih).trans display_shape

/-- A report reaches the node and those above it, and nothing else. -/
theorem report_same (fuel : Nat) (apart : ¬AtOrAbove s.parent k r) :
    SameAt s (report fuel s r newts) k := by
  induction fuel generalizing s r newts with
  | zero => exact ⟨rfl, rfl⟩
  | succ fuel ih =>
    have other : k ≠ r := fun same => apart (same ▸ atOrAbove_refl _ _)
    cases above : s.parent r with
    | none =>
      rw [report_root fuel above]
      exact (assign_same newts other).trans (display_same other)
    | some p =>
      rw [report_child fuel above]
      have apart_p : ¬AtOrAbove s.parent k p := fun over_p =>
        apart (atOrAbove_of_parent above over_p)
      have other_p : k ≠ p := fun same => apart_p (same ▸ atOrAbove_refl _ _)
      have shape := (assign_shape s r newts).trans
        (tellParent_shape _ r p newts)
      rw [← shape.parent] at apart_p
      have rest := @ih _ p .none apart_p
      exact (((assign_same newts other).trans (tellParent_same r newts other_p)).trans rest).trans
        (display_same other)

end Frames

section Reports

variable {s t : Forest} {parent : LocalRef → Option LocalRef} {rank : LocalRef → Nat}
  {r p g k a : LocalRef} {newts state : TreeState} {name : Bytes}

theorem not_above_parent (drops : ∀ n p, parent n = some p → rank p < rank n)
    (above : parent r = some p) : ¬AtOrAbove parent r p := fun higher =>
  absurd (rank_le_of_atOrAbove drops higher) (Nat.not_le.mpr (drops r p above))

/-- The node itself keeps what the call gave it. -/
theorem report_self (drops : ∀ n p, s.parent n = some p → rank p < rank n) (fuel : Nat) :
    (report (fuel + 1) s r newts).ts r = (s.assign r newts).ts r ∧
      (report (fuel + 1) s r newts).dts r = (report (fuel + 1) s r newts).ts r := by
  cases above : s.parent r with
  | none =>
    rw [report_root fuel above]
    exact ⟨rfl, display_dts⟩
  | some p =>
    rw [report_child fuel above]
    have shape := (assign_shape s r newts).trans
      (tellParent_shape _ r p newts)
    have apart := not_above_parent drops above
    have other : r ≠ p := fun same => apart (same ▸ atOrAbove_refl _ _)
    rw [← shape.parent] at apart
    have rest := (tellParent_same r newts other).trans
      (@report_same _ p r .none fuel apart)
    exact ⟨rest.ts, display_dts⟩

theorem mem_childStates :
    state ∈ s.childStates p ↔ ∃ entry ∈ s.children p, s.ts entry.2 = state := List.mem_map

theorem childStates_congr (children : t.children p = s.children p)
    (states : ∀ entry ∈ s.children p, t.ts entry.2 = s.ts entry.2) :
    t.childStates p = s.childStates p := by
  rw [childStates, childStates, children]
  exact List.map_congr_left states

/-- A folder shows the states of its children, or neither it nor a child has a state yet. -/
def Shows (s : Forest) (p : LocalRef) : Prop :=
  s.children p ≠ [] → s.ts p = aggregateOf (s.childStates p) ∨
    s.ts p = .none ∧ ∀ state ∈ s.childStates p, state = .none

theorem Shows.of_ts (shows : Shows s p) (some_child : s.children p ≠ []) (state : s.ts p ≠ .none) :
    s.ts p = aggregateOf (s.childStates p) :=
  (shows some_child).resolve_right fun unset => state unset.1

theorem Shows.of_child (shows : Shows s p) (listed : (name, r) ∈ s.children p)
    (state : s.ts r ≠ .none) : s.ts p = aggregateOf (s.childStates p) :=
  (shows (List.ne_nil_of_mem listed)).resolve_right fun unset =>
    state (unset.2 _ (mem_childStates.mpr ⟨_, listed, rfl⟩))

theorem Shows.congr (shows : Shows s p) (children : t.children p = s.children p)
    (ts : t.ts p = s.ts p) (states : ∀ entry ∈ s.children p, t.ts entry.2 = s.ts entry.2) :
    Shows t p := by
  rw [Shows, children, ts, childStates_congr children states]
  exact shows

/-- A folder whose first child with a state gives it its state. -/
theorem Shows.first (given : newts ≠ .none) (ts : t.ts p = newts)
    (listed : (name, r) ∈ t.children p)
    (ts_r : t.ts r = newts)
    (only : ∀ entry ∈ t.children p, t.ts entry.2 = newts ∨ t.ts entry.2 = .none) : Shows t p := by
  intro _
  left
  refine ts.trans (aggregateOf_single given (mem_childStates.mpr ⟨_, listed, ts_r⟩) ?_).symm
  intro state member
  obtain ⟨entry, inside, rfl⟩ := mem_childStates.mp member
  exact only entry inside

/-- A folder goes on to show its children if it covers the state that some of them get. -/
theorem Shows.cover (shows : Shows s p) (some_child : s.children p ≠ []) (state : s.ts p ≠ .none)
    (calm : newts ≠ .syncing) (covered : newts = .synced ∨ s.ts p ≠ .synced)
    (children : t.children p = s.children p) (ts : t.ts p = s.ts p)
    (grows : ∀ entry ∈ s.children p, t.ts entry.2 = s.ts entry.2 ∨
      s.ts entry.2 = .none ∧ t.ts entry.2 = newts) : Shows t p := by
  have before := shows.of_ts some_child state
  have kept : ∀ state, state ≠ .none → state ∈ s.childStates p → state ∈ t.childStates p := by
    intro state some member
    obtain ⟨entry, inside, rfl⟩ := mem_childStates.mp member
    exact mem_childStates.mpr
      ⟨entry, children ▸ inside, (grows entry inside).resolve_right fun new => some new.1⟩
  have fresh : ∀ state, state ∈ t.childStates p → state = newts ∨ state ∈ s.childStates p := by
    intro state member
    obtain ⟨entry, inside, rfl⟩ := mem_childStates.mp member
    rw [children] at inside
    rcases grows entry inside with same | ⟨-, new⟩
    · exact Or.inr (mem_childStates.mpr ⟨entry, inside, same.symm⟩)
    · exact Or.inl new
  intro _
  left
  rw [ts, before]
  refine aggregateOf_grow ⟨fun busy => ?_, kept _ (by decide)⟩ (kept _ (by decide)) fun waits => ?_
  · exact (fresh _ busy).resolve_left calm.symm
  · refine (fresh _ waits).symm.imp_right fun new => ?_
    rw [← before]
    exact covered.resolve_left (by rw [← new]; decide)

theorem setTs_self (same : s.ts r = state) : s.setTs r state = s := by
  rw [setTs, ← same, Function.update_eq_self]

theorem display_self (same : s.dts r = s.ts r) : s.display r = s := by
  rw [display, ← same, Function.update_eq_self]

theorem tellParent_still (listed : (name, r) ∈ s.children p) (rest : s.dts r = s.ts r)
    (shows : Shows s p) : s.tellParent r p .none = s := by
  rw [tellParent]
  split_ifs with busy recompute
  · refine setTs_self ((shows.of_child listed (by rw [busy]; exact nofun)).trans ?_)
    exact aggregateOf_syncing (mem_childStates.mpr ⟨_, listed, busy⟩)
  · have state : s.ts r ≠ .none := fun none => recompute.1 (none.symm.trans rest.symm)
    rw [aggregate_eq]
    exact setTs_self (shows.of_child listed state)
  · rfl

/-- A report without news changes nothing where every folder above shows the states of its
children. -/
theorem report_still (fuel : Nat) (acyclic : Acyclic s.parent)
    (linked : ∀ {k p}, AtOrAbove s.parent k r → s.parent k = some p →
      ∃ name, (name, k) ∈ s.children p)
    (rest : ∀ {a}, AtOrAbove s.parent a r → s.dts a = s.ts a)
    (shows : ∀ {a}, a ≠ r → AtOrAbove s.parent a r → Shows s a) :
    report fuel s r .none = s := by
  induction fuel generalizing r with
  | zero => rfl
  | succ fuel ih =>
    have kept : s.assign r .none = s := if_pos rfl
    have shown := display_self (rest (atOrAbove_refl _ r))
    cases above : s.parent r with
    | none => rw [report_root fuel above, kept, shown]
    | some p =>
      have higher : ∀ {k}, AtOrAbove s.parent k p → AtOrAbove s.parent k r := fun higher =>
        atOrAbove_of_parent above higher
      have other : ∀ {k}, AtOrAbove s.parent k p → k ≠ r := by
        rintro k over_k rfl
        obtain ⟨rank, drops⟩ := acyclic
        exact not_above_parent drops above over_k
      obtain ⟨name, listed⟩ := linked (atOrAbove_refl _ r) above
      have shows_p := shows (other (atOrAbove_refl _ p)) (higher (atOrAbove_refl _ p))
      rw [report_child fuel above, kept, tellParent_still listed (rest (atOrAbove_refl _ r)) shows_p,
        ih (fun over_k => linked (higher over_k)) (fun over_a => rest (higher over_a))
          (fun _ over_a => shows (other over_a) (higher over_a)), shown]

/-- The states of the children as the parent has last seen them: that of `r` before the call. -/
def seenStates (s : Forest) (r p : LocalRef) : List TreeState :=
  (s.children p).map fun entry => if entry.2 = r then s.dts r else s.ts entry.2

/-- A node whose folders all have states and have seen its state `dts`. -/
structure Reporting (s : Forest) (r : LocalRef) (newts : TreeState) : Prop where
  child : ∀ {p entry}, entry ∈ s.children p → s.parent entry.2 = some p
  linked : ∀ {k p}, AtOrAbove s.parent k r → s.parent k = some p → ∃ name, (name, k) ∈ s.children p
  rest : ∀ {a}, a ≠ r → AtOrAbove s.parent a r → s.dts a = s.ts a ∧ s.ts a ≠ .none
  given : newts = .none → s.dts r ≠ .none
  settled : ∀ {a}, a ≠ r → AtOrAbove s.parent a r → s.ts a = aggregateOf (s.seenStates r a)

/-- A call that repeats the state that the parent has seen shows it nothing new. -/
theorem childStates_repeated (reporting : Reporting s r newts) (same : newts = s.dts r)
    (p : LocalRef) : (s.assign r newts).childStates p = s.seenStates r p := by
  have repeated : (s.assign r newts).ts r = s.dts r := by
    rw [assign_ts]
    split
    · next none => exact absurd (same.symm.trans none) (reporting.given none)
    · exact same
  rw [seenStates, childStates, (assign_shape s r newts).children]
  refine List.map_congr_left fun entry _ => ?_
  split
  · next here => rw [here, repeated]
  · next there => exact (@assign_same s r _ newts there).ts

/-- A node that becomes synced leaves a synced parent as it is: it had not made it anything else. -/
theorem aggregateOf_synced_child (synced : (s.assign r newts).ts r = .synced)
    (seen : aggregateOf (s.seenStates r p) = .synced) :
    aggregateOf ((s.assign r newts).childStates p) = .synced := by
  have found : ∀ state, state ≠ .synced → state ∈ (s.assign r newts).childStates p →
      state ∈ s.seenStates r p := by
    intro state differs member
    obtain ⟨entry, mem, rfl⟩ := mem_childStates.mp member
    rw [(assign_shape s r newts).children] at mem
    have there : entry.2 ≠ r := by
      intro here
      rw [here] at differs
      exact differs synced
    refine List.mem_map.mpr ⟨entry, mem, ?_⟩
    rw [if_neg there, (@assign_same s r _ newts there).ts]
  obtain ⟨syncing, pending⟩ := aggregateOf_synced.mp seen
  exact aggregateOf_synced.mpr
    ⟨fun mem => syncing (found _ nofun mem), fun mem => pending (found _ nofun mem)⟩

/-- The parent has the state of its children, whichever way `treestate` takes. -/
theorem tellParent_settles (drops : ∀ n p, s.parent n = some p → rank p < rank n)
    (reporting : Reporting s r newts) (above : s.parent r = some p) :
    ((s.assign r newts).tellParent r p newts).ts p =
      aggregateOf (((s.assign r newts).tellParent r p newts).childStates p) := by
  have other : p ≠ r := fun same => not_above_parent drops above (same ▸ atOrAbove_refl _ _)
  have before := @assign_same s r p newts other
  have shape := assign_shape s r newts
  obtain ⟨name, listed⟩ := reporting.linked (atOrAbove_refl _ r) above
  have over_r : AtOrAbove s.parent p r := atOrAbove_of_parent above (atOrAbove_refl _ _)
  -- The parent is none of its own children, so its new state does not count.
  have not_own : ∀ entry ∈ s.children p, entry.2 ≠ p := by
    intro entry member same
    have loop := drops entry.2 p (reporting.child member)
    rw [same] at loop
    exact Nat.lt_irrefl _ loop
  have raised : ∀ state, ((s.assign r newts).setTs p state).childStates p =
      (s.assign r newts).childStates p := by
    intro state
    refine childStates_congr rfl fun entry member => ?_
    rw [shape.children] at member
    exact (setTs_same (not_own entry member)).ts
  rw [tellParent]
  split_ifs with busy recompute
  · rw [setTs_ts, raised, aggregateOf_syncing]
    exact mem_childStates.mpr ⟨(name, r), shape.children ▸ listed, busy⟩
  · rw [setTs_ts, raised, aggregate_eq]
  · have seen := reporting.settled other over_r
    rw [before.ts]
    by_cases same : newts = s.dts r
    · exact seen.trans (congrArg _ (childStates_repeated reporting same p).symm)
    · -- No recomputation was due: the node and its parent are both synced.
      rw [assign_dts] at recompute
      simp only [ne_eq, not_and_or, not_or, not_not] at recompute
      obtain ⟨synced, synced_p⟩ := recompute.resolve_left same
      rw [before.ts] at synced_p
      rw [synced_p] at seen ⊢
      exact (aggregateOf_synced_child synced seen.symm).symm

/-- The parent reports in its turn. -/
theorem Reporting.next (drops : ∀ n p, s.parent n = some p → rank p < rank n)
    (reporting : Reporting s r newts) (above : s.parent r = some p) :
    Reporting ((s.assign r newts).tellParent r p newts) p .none := by
  have shape := (assign_shape s r newts).trans
    (tellParent_shape _ r p newts)
  have dts : ((s.assign r newts).tellParent r p newts).dts = s.dts :=
    tellParent_dts.trans assign_dts
  have apart := not_above_parent drops above
  have other : p ≠ r := fun same => apart (same ▸ atOrAbove_refl _ _)
  have over_r : ∀ {a}, AtOrAbove s.parent a p → AtOrAbove s.parent a r := fun higher =>
    atOrAbove_of_parent above higher
  have not_r : ∀ {a}, AtOrAbove s.parent a p → a ≠ r := fun higher same => apart (same ▸ higher)
  have same : ∀ {k}, k ≠ r → k ≠ p → SameAt s ((s.assign r newts).tellParent r p newts) k :=
    fun not_r not_p => (assign_same newts not_r).trans (tellParent_same r newts not_p)
  have shown := reporting.rest other (over_r (atOrAbove_refl _ _))
  refine ⟨?child, ?linked, ?rest, ?given, ?settled⟩
  case child =>
    rw [shape.children, shape.parent]
    exact reporting.child
  case linked =>
    intro k q higher edge
    rw [shape.parent] at higher edge
    rw [shape.children]
    exact reporting.linked (over_r higher) edge
  case rest =>
    intro a not_p higher
    rw [shape.parent] at higher
    rw [dts, (same (not_r higher) not_p).ts]
    exact reporting.rest (not_r higher) (over_r higher)
  case given =>
    intro _
    rw [dts, shown.1]
    exact shown.2
  case settled =>
    intro a not_p higher
    rw [shape.parent] at higher
    rw [(same (not_r higher) not_p).ts]
    have seen : ((s.assign r newts).tellParent r p newts).seenStates p a = s.seenStates r a := by
      rw [seenStates, seenStates, shape.children]
      refine List.map_congr_left fun entry member => ?_
      have edge := reporting.child member
      have not_r : entry.2 ≠ r := by
        intro here
        rw [here, above] at edge
        exact not_p (Option.some.inj edge).symm
      rw [if_neg not_r]
      split
      · next here => rw [here, dts, shown.1]
      · next there => exact (same not_r there).ts
    rw [seen]
    exact reporting.settled (not_r higher) (over_r higher)

/-- Every folder above the node has the state of its children when the report has come through. -/
theorem report_settles (drops : ∀ n p, s.parent n = some p → rank p < rank n) {fuel : Nat}
    (enough : rank r < fuel) (reporting : Reporting s r newts) (above_r : AtOrAbove s.parent a r)
    (other : a ≠ r) :
    (report fuel s r newts).ts a = aggregateOf ((report fuel s r newts).childStates a) ∧
      (report fuel s r newts).dts a = (report fuel s r newts).ts a := by
  induction fuel generalizing s r newts with
  | zero => omega
  | succ fuel ih =>
    cases above : s.parent r with
    | none => exact absurd (atOrAbove_root above above_r) other
    | some p =>
      have shape := (assign_shape s r newts).trans
        (tellParent_shape _ r p newts)
      have over_p : AtOrAbove s.parent a p := (atOrAbove_parent above above_r).resolve_left other
      have lower := drops r p above
      have settled_p := tellParent_settles drops reporting above
      have next := reporting.next drops above
      rw [report_child fuel above]
      generalize (s.assign r newts).tellParent r p newts = v at shape settled_p next ⊢
      have drops_v : ∀ n q, v.parent n = some q → rank q < rank n := by
        rw [shape.parent]
        exact drops
      have after : ∀ w : Forest, w.ts a = aggregateOf (w.childStates a) ∧ w.dts a = w.ts a →
          (w.display r).ts a = aggregateOf ((w.display r).childStates a) ∧
            (w.display r).dts a = (w.display r).ts a := fun w same =>
        ⟨same.1, (display_same (s := w) other).dts.trans same.2⟩
      apply after
      by_cases here : a = p
      · subst here
        obtain ⟨fuel, rfl⟩ : ∃ n, fuel = n + 1 := ⟨fuel - 1, by omega⟩
        obtain ⟨ts, dts⟩ := @report_self v rank a .none drops_v fuel
        have kept : (v.assign a .none) = v := if_pos rfl
        rw [kept] at ts
        refine ⟨?_, dts⟩
        rw [ts, childStates_congr (congrFun (report_shape _).children a)]
        · exact settled_p
        · intro entry member
          have edge := next.child member
          exact (report_same _ (not_above_parent drops_v edge)).ts
      · rw [← shape.parent] at over_p
        exact ih drops_v (by omega) next over_p here

/-- A node that is being synchronised makes all folders above it so. -/
theorem report_syncing (drops : ∀ n p, s.parent n = some p → rank p < rank n) {fuel : Nat}
    (enough : rank r < fuel) (busy : (s.assign r newts).ts r = .syncing)
    (above_r : AtOrAbove s.parent a r) (other : a ≠ r) :
    (report fuel s r newts).ts a = .syncing ∧ (report fuel s r newts).dts a = .syncing := by
  induction fuel generalizing s r newts with
  | zero => omega
  | succ fuel ih =>
    cases above : s.parent r with
    | none => exact absurd (atOrAbove_root above above_r) other
    | some p =>
      have shape := (assign_shape s r newts).trans (tellParent_shape _ r p newts)
      have over_p : AtOrAbove s.parent a p := (atOrAbove_parent above above_r).resolve_left other
      have lower := drops r p above
      have raised : (s.assign r newts).tellParent r p newts =
          (s.assign r newts).setTs p .syncing := if_pos busy
      rw [report_child fuel above, raised]
      rw [raised] at shape
      have after : ∀ w : Forest, w.ts a = .syncing ∧ w.dts a = .syncing →
          (w.display r).ts a = .syncing ∧ (w.display r).dts a = .syncing := fun w same =>
        ⟨same.1, ((@display_same w r a other).dts).trans same.2⟩
      apply after
      have drops_v : ∀ n q, ((s.assign r newts).setTs p .syncing).parent n = some q →
          rank q < rank n := by
        rw [shape.parent]
        exact drops
      by_cases here : a = p
      · subst here
        obtain ⟨fuel, rfl⟩ : ∃ n, fuel = n + 1 := ⟨fuel - 1, by omega⟩
        obtain ⟨ts, dts⟩ := @report_self _ rank a .none drops_v fuel
        have kept : ((s.assign r newts).setTs a .syncing).assign a .none =
            (s.assign r newts).setTs a .syncing := if_pos rfl
        rw [kept, setTs_ts] at ts
        exact ⟨ts, dts.trans ts⟩
      · have still : (((s.assign r newts).setTs p .syncing).assign p .none).ts p = .syncing :=
          setTs_ts
        rw [← shape.parent] at over_p
        exact ih drops_v (by omega) still over_p here

/-- A folder that had no state does not tell its parent: `newts` is none, as its `dts` is. -/
theorem tellParent_unset (unset : s.dts p = .none) (calm : s.ts p ≠ .syncing) :
    s.tellParent p g .none = s := by
  rw [tellParent, if_neg calm, if_neg]
  exact fun recompute => recompute.1 unset.symm

/-- The first state below a folder becomes the state of the folder, and goes no further. -/
theorem report_first (acyclic : Acyclic s.parent)
    (drops : ∀ n p, s.parent n = some p → rank p < rank n) {fuel : Nat} (enough : rank r < fuel)
    (given : newts ≠ .none) (calm : newts ≠ .syncing) (above : s.parent r = some p)
    (child : ∀ {p entry}, entry ∈ s.children p → s.parent entry.2 = some p)
    (linked : ∀ {k p}, AtOrAbove s.parent k r → s.parent k = some p →
      ∃ name, (name, k) ∈ s.children p)
    (rest : ∀ k, s.dts k = s.ts k) (shows : ∀ {a}, a ≠ r → AtOrAbove s.parent a r → Shows s a)
    (unset : s.ts p = .none) :
    report fuel s r newts = (((s.assign r newts).setTs p newts).display p).display r := by
  obtain ⟨fuel, rfl⟩ : ∃ n, fuel = n + 1 := ⟨fuel - 1, by omega⟩
  have lower := drops r p above
  obtain ⟨fuel, rfl⟩ : ∃ n, fuel = n + 1 := ⟨fuel - 1, by omega⟩
  have over_r : AtOrAbove s.parent p r := atOrAbove_of_parent above (atOrAbove_refl _ p)
  have apart := not_above_parent drops above
  have other : p ≠ r := fun same => apart (same ▸ atOrAbove_refl _ _)
  obtain ⟨name, listed⟩ := linked (atOrAbove_refl _ r) above
  have bare : ∀ entry ∈ s.children p, s.ts entry.2 = .none := by
    intro entry member
    by_contra state
    have same := (shows other over_r).of_child (show (entry.1, entry.2) ∈ s.children p from member)
      state
    exact aggregateOf_ne_none (same.symm.trans unset)
  have assigned : s.assign r newts = s.setTs r newts := if_neg given
  have ts_r : (s.setTs r newts).ts r = newts := setTs_ts
  have ts_p : (s.setTs r newts).ts p = .none := (setTs_same other).ts.trans unset
  have dts_r : s.dts r = .none := (rest r).trans (bare _ listed)
  have newest : (s.setTs r newts).aggregate p = newts := by
    rw [aggregate_eq]
    have mem : newts ∈ (s.setTs r newts).childStates p := mem_childStates.mpr ⟨_, listed, ts_r⟩
    refine aggregateOf_single given mem fun state member => ?_
    obtain ⟨entry, inside, rfl⟩ := mem_childStates.mp member
    by_cases here : entry.2 = r
    · exact Or.inl (here ▸ ts_r)
    · exact Or.inr ((setTs_same here).ts.trans (bare entry inside))
  have told : (s.assign r newts).tellParent r p newts = (s.setTs r newts).setTs p newts := by
    rw [assigned, tellParent, ts_r, if_neg calm, if_pos, newest]
    refine ⟨?_, Or.inr ?_⟩
    · change newts ≠ s.dts r
      rw [dts_r]
      exact given
    · rw [ts_p]
      exact nofun
  rw [report_child _ above, told, assigned]
  generalize w_eq : (s.setTs r newts).setTs p newts = w
  have shape : SameShape s w := w_eq ▸ setTs_shape.trans setTs_shape
  have dts : w.dts = s.dts := by rw [← w_eq]; rfl
  have same : ∀ k, k ≠ r → k ≠ p → w.ts k = s.ts k := by
    intro k not_r not_p
    rw [← w_eq, (setTs_same not_p).ts, (setTs_same not_r).ts]
  have ts_w : w.ts p = newts := by rw [← w_eq, setTs_ts]
  have kept : w.assign p .none = w := if_pos rfl
  cases higher : w.parent p with
  | none => rw [report_root _ higher, kept]
  | some g =>
    have above_p : s.parent p = some g := by rwa [shape.parent] at higher
    rw [report_child _ higher, kept, tellParent_unset]
    · have not_p : ∀ {k}, AtOrAbove s.parent k g → k ≠ p := fun over_g same =>
        not_above_parent drops above_p (same ▸ over_g)
      have above_r : ∀ {k}, AtOrAbove s.parent k g → AtOrAbove s.parent k r ∧ k ≠ r := fun over_g =>
        have over_p := atOrAbove_of_parent above_p over_g
        ⟨atOrAbove_of_parent above over_p, fun same => apart (same ▸ over_p)⟩
      rw [report_still]
      · rw [shape.parent]
        exact acyclic
      · intro k q over_g edge
        rw [shape.parent] at over_g edge
        rw [shape.children]
        exact linked (above_r over_g).1 edge
      · intro k over_g
        rw [shape.parent] at over_g
        rw [dts, same k (above_r over_g).2 (not_p over_g), rest]
      · intro k other over_g
        rw [shape.parent] at over_g
        refine (shows (above_r over_g).2 (above_r over_g).1).congr (congrFun shape.children k)
          (same k (above_r over_g).2 (not_p over_g)) fun entry member => ?_
        have edge := child member
        refine same _ (fun here => ?_) fun here => ?_
        · rw [here, above] at edge
          exact not_p over_g (Option.some.inj edge).symm
        · rw [here, above_p] at edge
          exact other (Option.some.inj edge).symm
    · rw [dts, rest, unset]
    · rw [ts_w]
      exact calm

end Reports

/-- The links of a forest in which only the nodes in `hole` are missing from the map of their
parent. -/
structure Links (hole : LocalRef → Prop) (s : Forest) : Prop where
  acyclic : Acyclic s.parent
  bound : ∀ {r p}, s.parent r = some p → r < s.next ∧ p < s.next
  listed : ∀ {p entry}, entry ∈ s.children p →
    entry.1 = s.localname entry.2 ∧ s.parent entry.2 = some p
  linked : ∀ {r p}, ¬hole r → s.parent r = some p → (s.localname r, r) ∈ s.children p
  missing : ∀ {p entry}, entry ∈ s.children p → ¬hole entry.2
  unique : ∀ {p e e'}, e ∈ s.children p → e' ∈ s.children p → e.1 = e'.1 → e.2 = e'.2

/-- At rest, and every folder but those in `gap` shows the states of its children. -/
structure Shown (gap : LocalRef → Prop) (s : Forest) : Prop where
  rest : ∀ r, s.dts r = s.ts r
  shows : ∀ {p}, ¬gap p → Shows s p

theorem Shown.mono {s : Forest} {gap larger : LocalRef → Prop} (shown : Shown gap s)
    (inside : ∀ k, gap k → larger k) : Shown larger s :=
  ⟨shown.rest, fun closed => shown.shows fun gap_k => closed (inside _ gap_k)⟩

/-- A call that makes the node `SYNCING` is in line with its children. -/
def Announces (s : Forest) (r : LocalRef) : Prop := s.children r = [] ∨ .syncing ∈ s.childStates r

/-- A call sets the state that the children of the node give it, if it has any. A first state goes
to at most one folder that has none, in a folder to which it makes no difference. -/
def Reports (s : Forest) (r : LocalRef) (newts : TreeState) : Prop :=
  newts = .none ∨ (s.children r = [] ∨ newts = aggregateOf (s.childStates r)) ∧
    (newts = .syncing ∨ ∀ p ∈ s.parent r, s.ts p = .none → ∀ g ∈ s.parent p,
      s.ts g ≠ .none ∧ (newts = .synced ∨ s.ts g ≠ .synced))

section Sound

variable {s t : Forest} {hole gap : LocalRef → Prop} {r p g a k : LocalRef} {newts : TreeState}

theorem Links.of_shape (links : Links hole s) (shape : SameShape s t) : Links hole t where
  acyclic := shape.parent ▸ links.acyclic
  bound edge := by
    rw [shape.next]
    rw [shape.parent] at edge
    exact links.bound edge
  listed member := by
    rw [shape.localname, shape.parent]
    rw [shape.children] at member
    exact links.listed member
  linked reached edge := by
    rw [shape.localname, shape.children]
    rw [shape.parent] at edge
    exact links.linked reached edge
  missing member := by
    rw [shape.children] at member
    exact links.missing member
  unique first second := by
    rw [shape.children] at first second
    exact links.unique first second

/-- Every chain of parents fits into the fuel of `treestate`. -/
theorem Links.ranked (links : Links hole s) : ∃ rank : LocalRef → Nat,
    (∀ n p, s.parent n = some p → rank p < rank n) ∧ ∀ n, rank n < s.next + 1 := by
  have finite : ∀ n p, s.parent n = some p → p ∈ Finset.range s.next := fun n p edge =>
    Finset.mem_range.mpr (links.bound edge).2
  obtain ⟨rank, drops, bounded⟩ := links.acyclic.bounded finite
  rw [Finset.card_range] at bounded
  exact ⟨rank, drops, fun n => Nat.lt_succ_of_le (bounded n)⟩

theorem Links.not_above (links : Links hole s) (above : s.parent r = some p) :
    ¬AtOrAbove s.parent r p := by
  obtain ⟨rank, drops⟩ := links.acyclic
  exact not_above_parent drops above

theorem Links.not_own (links : Links hole s) : s.parent r ≠ some r := fun above =>
  links.not_above above (atOrAbove_refl _ _)

theorem treestate_shape (s : Forest) (r : LocalRef) (newts : TreeState) :
    SameShape s (s.treestate r newts) := report_shape _

theorem treestate_same (newts : TreeState) (apart : ¬AtOrAbove s.parent k r) :
    SameAt s (s.treestate r newts) k := report_same _ apart

theorem Links.treestate_self (links : Links hole s) (r : LocalRef) (newts : TreeState) :
    (s.treestate r newts).ts r = (s.assign r newts).ts r ∧
      (s.treestate r newts).dts r = (s.treestate r newts).ts r := by
  obtain ⟨rank, drops, -⟩ := links.ranked
  exact report_self drops _

/-- Folders have children. -/
theorem Links.not_empty (links : Links hole s) (reached : ¬hole r) (above : s.parent r = some p) :
    s.children p ≠ [] := List.ne_nil_of_mem (links.linked reached above)

theorem Links.linked_above (links : Links hole s) (whole : ∀ a, AtOrAbove s.parent a r → ¬hole a)
    {k q : LocalRef} (higher : AtOrAbove s.parent k r) (edge : s.parent k = some q) :
    ∃ name, (name, k) ∈ s.children q := ⟨_, links.linked (whole k higher) edge⟩

/-- A folder above a node has a child at or above the node. -/
theorem Links.child_above (whole : ∀ a, AtOrAbove s.parent a r → ¬hole a) (links : Links hole s)
    (higher : AtOrAbove s.parent a r) (other : a ≠ r) :
    ∃ c, AtOrAbove s.parent c r ∧ s.parent c = some a ∧ (s.localname c, c) ∈ s.children a := by
  rcases Relation.ReflTransGen.cases_tail higher with same | ⟨c, below, edge⟩
  · exact absurd same other
  · exact ⟨c, below, edge, links.linked (whole c below) edge⟩

/-- Without news, `treestate` does nothing. -/
theorem Shown.treestate_none (links : Links hole s) (shown : Shown gap s)
    (whole : ∀ a, AtOrAbove s.parent a r → ¬hole a)
    (closed : ∀ a, a ≠ r → AtOrAbove s.parent a r → ¬gap a) : s.treestate r .none = s :=
  report_still _ links.acyclic (links.linked_above whole) (fun _ => shown.rest _)
    fun other higher => shown.shows (closed _ other higher)

/-- A folder that is not above the node keeps the states of its children. -/
theorem childStates_elsewhere (newts : TreeState) (links : Links hole s)
    (elsewhere : ¬(AtOrAbove s.parent k r ∧ k ≠ r)) :
    (s.treestate r newts).childStates k = s.childStates k := by
  refine childStates_congr (congrFun (treestate_shape s r newts).children k) fun entry member => ?_
  have edge := (links.listed member).2
  refine (treestate_same newts fun higher => ?_).ts
  have over_k : AtOrAbove s.parent k r := Relation.ReflTransGen.tail higher edge
  obtain rfl : k = r := by
    by_contra other
    exact elsewhere ⟨over_k, other⟩
  exact links.not_above edge higher

theorem shows_elsewhere (newts : TreeState) (links : Links hole s)
    (apart : ¬AtOrAbove s.parent k r) (shows : Shows s k) : Shows (s.treestate r newts) k := by
  have states := childStates_elsewhere newts links fun both => apart both.1
  rw [Shows, (treestate_shape s r newts).children, (treestate_same newts apart).ts, states]
  exact shows

/-- The node itself shows the states of its children if it was given what they say. -/
theorem Links.shows_self (links : Links hole s)
    (fits : s.children r = [] ∨ (s.assign r newts).ts r = aggregateOf (s.childStates r)) :
    Shows (s.treestate r newts) r := by
  have states := childStates_elsewhere newts links (k := r) (r := r) fun both => both.2 rfl
  rw [Shows, (treestate_shape s r newts).children, (links.treestate_self r newts).1, states]
  exact fun some_child => Or.inl (fits.resolve_left some_child)

/-- The folders above a node that is being synchronised. -/
theorem Links.treestate_above (links : Links hole s) (above : AtOrAbove s.parent a r)
    (other : a ≠ r) : (s.treestate r .syncing).ts a = .syncing ∧
      (s.treestate r .syncing).dts a = .syncing := by
  obtain ⟨rank, drops, enough⟩ := links.ranked
  have busy : (s.assign r .syncing).ts r = .syncing := by
    rw [assign_ts, if_neg (by decide)]
  exact report_syncing drops (enough r) busy above other

theorem Links.treestate_busy (links : Links hole s) (r : LocalRef) :
    (s.treestate r .syncing).ts r = .syncing := by
  rw [(links.treestate_self r .syncing).1, assign_ts, if_neg (by decide)]

/-- After a call nothing is in the middle of a report. -/
theorem Shown.rest_of_above (links : Links hole s) (shown : Shown gap s)
    (above : ∀ {a}, AtOrAbove s.parent a r → a ≠ r →
      (s.treestate r newts).dts a = (s.treestate r newts).ts a) (k : LocalRef) :
    (s.treestate r newts).dts k = (s.treestate r newts).ts k := by
  rcases eq_or_ne k r with rfl | other
  · exact (links.treestate_self k newts).2
  · by_cases higher : AtOrAbove s.parent k r
    · exact above higher other
    · have same := treestate_same newts higher
      rw [same.dts, same.ts, shown.rest]

/-- A node that is being synchronised is shown by all folders above it, except the one it is missing
from. -/
theorem Shown.treestate_syncing (links : Links hole s) (shown : Shown gap s)
    (whole : ∀ a, a ≠ r → AtOrAbove s.parent a r → ¬hole a) :
    Shown (fun k => k = r ∧ ¬Announces s r ∨ gap k ∧ ¬(AtOrAbove s.parent k r ∧ k ≠ r) ∨
      hole r ∧ s.parent r = some k) (s.treestate r .syncing) := by
  have shape := treestate_shape s r .syncing
  have busy := links.treestate_busy r
  refine ⟨shown.rest_of_above links fun higher other => ?_, fun {k} no_gap => ?_⟩
  · obtain ⟨ts, dts⟩ := links.treestate_above higher other
    rw [ts, dts]
  · rw [not_or, not_or, not_and, not_not, not_and, not_not] at no_gap
    rcases eq_or_ne k r with rfl | other
    · refine links.shows_self ?_
      rw [assign_ts, if_neg (by decide)]
      exact (no_gap.1 rfl).imp_right fun member => (aggregateOf_syncing member).symm
    · by_cases higher : AtOrAbove s.parent k r
      · -- The child below which `r` is has the same state.
        intro _
        rcases Relation.ReflTransGen.cases_tail higher with same | ⟨c, below, edge⟩
        · exact absurd same other
        · have listed : (s.localname c, c) ∈ s.children k := by
            refine links.linked (fun holed => ?_) edge
            rcases eq_or_ne c r with rfl | differs
            · exact no_gap.2.2 ⟨holed, edge⟩
            · exact whole c differs below holed
          have busy_c : (s.treestate r .syncing).ts c = .syncing := by
            rcases eq_or_ne c r with rfl | differs
            · exact busy
            · exact (links.treestate_above below differs).1
          refine Or.inl ((links.treestate_above higher other).1.trans (aggregateOf_syncing ?_).symm)
          exact mem_childStates.mpr ⟨_, shape.children ▸ listed, busy_c⟩
      · have closed : ¬gap k := fun gap_k => higher (no_gap.2.1 gap_k).1
        exact shows_elsewhere .syncing links higher (shown.shows closed)

/-- If the folder of the node has a state, all folders above it have. -/
theorem Shown.awake_above (links : Links hole s) (shown : Shown gap s)
    (whole : ∀ a, AtOrAbove s.parent a r → ¬hole a)
    (closed : ∀ a, a ≠ r → AtOrAbove s.parent a r → ¬gap a) (above : s.parent r = some p)
    (state : s.ts p ≠ .none) (higher : AtOrAbove s.parent a p) : s.ts a ≠ .none := by
  induction higher with
  | refl => exact state
  | @tail b c over_b edge ih =>
    have edge : s.parent b = some c := edge
    have over_r : AtOrAbove s.parent b r := atOrAbove_of_parent above over_b
    have other : c ≠ r := fun same => by
      rw [same] at edge
      exact links.not_above above (Relation.ReflTransGen.tail over_b edge)
    have shows := shown.shows (closed c other (Relation.ReflTransGen.tail over_r edge))
    rw [shows.of_child (links.linked (whole b over_r) edge) ih]
    exact aggregateOf_ne_none

/-- Where every folder above the node has a state, the call settles them all. -/
theorem Shown.settles (links : Links hole s) (shown : Shown gap s)
    (whole : ∀ a, AtOrAbove s.parent a r → ¬hole a)
    (closed : ∀ a, a ≠ r → AtOrAbove s.parent a r → ¬gap a) (given : newts ≠ .none)
    (awake : ∀ {a}, a ≠ r → AtOrAbove s.parent a r → s.ts a ≠ .none)
    (higher : AtOrAbove s.parent a r) (other : a ≠ r) :
    (s.treestate r newts).ts a = aggregateOf ((s.treestate r newts).childStates a) ∧
      (s.treestate r newts).dts a = (s.treestate r newts).ts a := by
  obtain ⟨rank, drops, enough⟩ := links.ranked
  refine report_settles drops (enough r) ?_ higher other
  refine ⟨fun member => (links.listed member).2, links.linked_above whole,
    fun differs over_r => ⟨shown.rest _, awake differs over_r⟩, fun none => absurd none given,
    fun {b} differs over_r => ?_⟩
  obtain ⟨c, -, -, listed⟩ := links.child_above whole over_r differs
  have seen : s.seenStates r b = s.childStates b := by
    rw [seenStates, childStates]
    refine List.map_congr_left fun entry _ => ?_
    split
    · next here => rw [here, shown.rest]
    · rfl
  rw [seen]
  exact (shown.shows (closed b differs over_r)).of_ts (List.ne_nil_of_mem listed)
    (awake differs over_r)

/-- No node is missing, and no folder is unsettled. -/
def nowhere : LocalRef → Prop := fun _ => False

/-- A forest in which nobody is in the middle of an operation. -/
structure Sound (s : Forest) : Prop where
  links : Links nowhere s
  shown : Shown nowhere s

theorem Sound.treestate_awake (sound : Sound s) (given : newts ≠ .none)
    (fits : s.children r = [] ∨ newts = aggregateOf (s.childStates r))
    (awake : ∀ {a}, a ≠ r → AtOrAbove s.parent a r → s.ts a ≠ .none) :
    Shown nowhere (s.treestate r newts) := by
  have links := sound.links
  have above : ∀ {a}, AtOrAbove s.parent a r → a ≠ r →
      (s.treestate r newts).ts a = aggregateOf ((s.treestate r newts).childStates a) ∧
        (s.treestate r newts).dts a = (s.treestate r newts).ts a :=
    sound.shown.settles links (fun _ _ => id) (fun _ _ _ => id) given awake
  refine ⟨sound.shown.rest_of_above links fun higher other => (above higher other).2, ?_⟩
  intro k _
  rcases eq_or_ne k r with rfl | other
  · refine links.shows_self ?_
    rw [assign_ts, if_neg given]
    exact fits
  · by_cases higher : AtOrAbove s.parent k r
    · exact fun _ => Or.inl (above higher other).1
    · exact shows_elsewhere newts links higher (sound.shown.shows id)

/-- A first state comes to the folder of the node, in a folder to which it makes no difference. -/
theorem Sound.treestate_first (sound : Sound s) (given : newts ≠ .none) (calm : newts ≠ .syncing)
    (fits : s.children r = [] ∨ newts = aggregateOf (s.childStates r))
    (above : s.parent r = some p) (unset : s.ts p = .none)
    (covers : ∀ g ∈ s.parent p, s.ts g ≠ .none ∧ (newts = .synced ∨ s.ts g ≠ .synced)) :
    Shown nowhere (s.treestate r newts) := by
  have links := sound.links
  have shown := sound.shown
  obtain ⟨rank, drops, enough⟩ := links.ranked
  have first : s.treestate r newts =
      (((s.assign r newts).setTs p newts).display p).display r :=
    report_first links.acyclic drops (enough r) given calm above
      (fun member => (links.listed member).2) (links.linked_above fun _ _ => id) shown.rest
      (fun _ _ => shown.shows id) unset
  have apart := links.not_above above
  have other : p ≠ r := fun same => apart (same ▸ atOrAbove_refl _ _)
  have states : ∀ k, (s.treestate r newts).ts k =
      if k = p then newts else if k = r then newts else s.ts k := by
    intro k
    rw [first, assign, if_neg given]
    exact (Function.update_apply ..).trans (if_congr Iff.rfl rfl (Function.update_apply ..))
  have same : ∀ k, k ≠ p → k ≠ r → (s.treestate r newts).ts k = s.ts k := by
    intro k not_p not_r
    rw [states, if_neg not_p, if_neg not_r]
  have shape := treestate_shape s r newts
  refine ⟨shown.rest_of_above links fun {k} _ not_r => ?_, fun {k} _ => ?_⟩
  · rw [first, (display_same not_r).dts]
    rcases eq_or_ne k p with rfl | not_p
    · exact display_dts
    · rw [(display_same not_p).dts]
      change (s.assign r newts).dts k = ((s.assign r newts).setTs p newts).ts k
      rw [assign_dts, (setTs_same not_p).ts, (assign_same newts not_r).ts, shown.rest]
  · rcases eq_or_ne k r with rfl | not_r
    · refine links.shows_self ?_
      rw [assign_ts, if_neg given]
      exact fits
    · rcases eq_or_ne k p with rfl | not_p
      · -- Among the children only the node has a state.
        have bare : ∀ entry ∈ s.children k, entry.2 ≠ k ∧ s.ts entry.2 = .none := by
          intro entry member
          have member : (entry.1, entry.2) ∈ s.children k := member
          refine ⟨fun same => ?_, by_contra fun state => ?_⟩
          · have edge := (links.listed member).2
            rw [same] at edge
            exact links.not_above edge (atOrAbove_refl _ _)
          · have told := (shown.shows (p := k) id).of_child member state
            exact aggregateOf_ne_none (told.symm.trans unset)
        refine .first given ((states k).trans (if_pos rfl))
          (shape.children ▸ links.linked id above) ?_ fun entry inside => ?_
        · rw [states, if_neg other.symm, if_pos rfl]
        · rw [shape.children] at inside
          rw [states, if_neg (bare entry inside).1]
          split
          · exact Or.inl rfl
          · exact Or.inr (bare entry inside).2
      · by_cases higher : s.parent p = some k
        · obtain ⟨awake, covered⟩ := covers k higher
          have some_child := links.not_empty id higher
          refine (shown.shows id).cover some_child awake calm covered (congrFun shape.children k)
            (same k not_p not_r) fun entry member => ?_
          by_cases here : entry.2 = p
          · exact Or.inr ⟨here ▸ unset, (states _).trans (if_pos here)⟩
          · refine Or.inl (same _ here fun lower => ?_)
            have edge := (links.listed member).2
            rw [lower, above] at edge
            exact not_p (Option.some.inj edge).symm
        · refine (shown.shows id).congr (congrFun shape.children k) (same k not_p not_r) ?_
          intro entry member
          have edge := (links.listed member).2
          refine same _ (fun here => ?_) fun here => ?_
          · rw [here] at edge
            exact higher edge
          · rw [here, above] at edge
            exact not_p (Option.some.inj edge).symm

theorem Sound.treestate (sound : Sound s) (reports : Reports s r newts) :
    Sound (s.treestate r newts) := by
  have links := sound.links
  refine ⟨links.of_shape (treestate_shape s r newts), ?_⟩
  rcases reports with rfl | ⟨fits, covers⟩
  · rw [sound.shown.treestate_none links (fun _ _ => id) fun _ _ _ => id]
    exact sound.shown
  by_cases unreported : newts = .none
  · subst unreported
    rw [sound.shown.treestate_none links (fun _ _ => id) fun _ _ _ => id]
    exact sound.shown
  by_cases busy : newts = .syncing
  · subst busy
    have announces : Announces s r := fits.imp_right fun state =>
      by_contra fun calm => aggregateOf_ne_syncing calm state.symm
    refine (sound.shown.treestate_syncing links fun _ _ _ => id).mono ?_
    rintro k (⟨-, silent⟩ | ⟨open_k, -⟩ | ⟨missing, -⟩)
    · exact absurd announces silent
    · exact open_k
    · exact missing
  have covers := covers.resolve_left busy
  cases above : s.parent r with
  | none =>
    refine sound.treestate_awake unreported fits fun {a} other higher => ?_
    exact absurd (atOrAbove_root above higher) other
  | some p =>
    by_cases unset : s.ts p = .none
    · exact sound.treestate_first unreported busy fits above unset (covers p above unset)
    · refine sound.treestate_awake unreported fits fun {a} other higher => ?_
      have over_p := (atOrAbove_parent above higher).resolve_left other
      exact sound.shown.awake_above links (fun _ _ => id) (fun _ _ _ => id) above unset over_p

end Sound

end Forest

end MegaSdk.Sync.States
