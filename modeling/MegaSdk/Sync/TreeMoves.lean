import MegaSdk.Sync.TreeAggregate

/-!
# Insertions, moves and deletions

`setnameparent` calls `treestate` on the folders whose children change, which lets the folders above
them look at their children, but not these folders. They go on to show their children where the
child that comes or goes makes no difference to them.
-/

namespace MegaSdk.Sync.States

open ParentForest Runs

namespace Forest

section Structure

variable {s t : Forest} {hole gap : LocalRef → Prop} {r p q a k : LocalRef} {name : Bytes}

/-- Only the states and the children of the folders matter. -/
theorem Shown.congr (shown : Shown gap s) (children : t.children = s.children) (ts : t.ts = s.ts)
    (dts : t.dts = s.dts) : Shown gap t where
  rest k := by rw [dts, ts, shown.rest]
  shows {k} closed := (shown.shows closed).congr (congrFun children k) (congrFun ts k)
    fun entry _ => congrFun ts entry.2

def others (s : Forest) (r p : LocalRef) : List (Bytes × LocalRef) :=
  (s.children p).filter fun entry => entry.2 ≠ r

theorem others_eq (links : Links nowhere s) (elsewhere : s.parent r ≠ some k) :
    s.others r k = s.children k :=
  List.filter_eq_self.mpr fun entry member => by
    have edge := (links.listed member).2
    simp only [decide_eq_true_eq]
    rintro rfl
    exact elsewhere edge

theorem eraseChild_children (p : LocalRef) (name : Bytes) (k : LocalRef) :
    (s.eraseChild p name).children k =
      if k = p then (s.children p).filter fun entry => entry.1 ≠ name else s.children k :=
  Function.update_apply ..

theorem unlink_children (links : Links nowhere s) (r k : LocalRef) :
    (s.unlink r).children k = s.others r k := by
  cases above : s.parent r with
  | none =>
    have same : s.unlink r = s := by simp only [unlink, above]
    rw [same, others_eq links (by rw [above]; exact nofun)]
  | some q =>
    have erased : s.unlink r = s.eraseChild q (s.localname r) := by simp only [unlink, above]
    rw [erased, eraseChild_children]
    rcases eq_or_ne k q with rfl | other
    · rw [if_pos rfl, others]
      refine List.filter_congr fun entry member => ?_
      have here := links.linked id above
      rw [decide_eq_decide]
      refine not_congr ⟨fun same => links.unique member here same, fun same => ?_⟩
      rw [(links.listed member).1, same]
    · rw [if_neg other, others_eq links]
      rw [above]
      exact fun same => other (Option.some.inj same).symm

structure Unlinked (s t : Forest) (r : LocalRef) : Prop where
  parent : t.parent = s.parent
  children : ∀ k, t.children k = s.others r k
  localname : t.localname = s.localname
  node : t.node = s.node
  next : t.next = s.next
  ts : t.ts = s.ts
  dts : t.dts = s.dts

theorem unlinked_unlink (links : Links nowhere s) (r : LocalRef) : Unlinked s (s.unlink r) r := by
  refine ⟨?_, unlink_children links r, ?_, ?_, ?_, ?_, ?_⟩
  all_goals
    rw [unlink]
    split <;> rfl

theorem mem_others {entry : Bytes × LocalRef} :
    entry ∈ s.others r p ↔ entry ∈ s.children p ∧ entry.2 ≠ r := by
  rw [others, List.mem_filter, decide_eq_true_eq]

theorem Unlinked.links (unlinked : Unlinked s t r) (links : Links nowhere s) :
    Links (· = r) t where
  acyclic := unlinked.parent ▸ links.acyclic
  bound edge := by
    rw [unlinked.next]
    rw [unlinked.parent] at edge
    exact links.bound edge
  listed member := by
    rw [unlinked.children, mem_others] at member
    rw [unlinked.localname, unlinked.parent]
    exact links.listed member.1
  linked reached edge := by
    rw [unlinked.parent] at edge
    rw [unlinked.children, mem_others, unlinked.localname]
    exact ⟨links.linked id edge, reached⟩
  missing member := by
    rw [unlinked.children, mem_others] at member
    exact member.2
  unique first second := by
    rw [unlinked.children, mem_others] at first second
    exact links.unique first.1 second.1

/-- Only the old parent is affected. -/
theorem Unlinked.shown (unlinked : Unlinked s t r) (links : Links nowhere s)
    (shown : Shown nowhere s) : Shown (fun k => s.parent r = some k) t where
  rest k := by rw [unlinked.dts, unlinked.ts, shown.rest]
  shows {k} elsewhere := (shown.shows id).congr
    ((unlinked.children k).trans (others_eq links elsewhere)) (congrFun unlinked.ts k)
    fun entry _ => congrFun unlinked.ts entry.2

theorem insertChild_children (p : LocalRef) (name : Bytes) (r k : LocalRef) :
    (s.insertChild p name r).children k =
      if k = p then (name, r) :: (s.children p).filter fun entry => entry.1 ≠ name
      else s.children k := Function.update_apply ..

/-- A child with a free name is added to the others. -/
theorem mem_insertChild_children {name : Bytes} (free : ∀ entry ∈ t.children p, entry.1 ≠ name)
    (k : LocalRef) (entry : Bytes × LocalRef) :
    entry ∈ (t.insertChild p name r).children k ↔
      (k = p ∧ entry = (name, r)) ∨ entry ∈ t.children k := by
  have all : ((t.children p).filter fun entry => entry.1 ≠ name) = t.children p :=
    List.filter_eq_self.mpr fun entry member => decide_eq_true (free entry member)
  rw [insertChild_children, all]
  rcases eq_or_ne k p with rfl | other
  · simp
  · simp [other]

/-- The last lines of `setnameparent`: the node gets into a map in which its name is free, and the
folder shows it. -/
theorem Links.enter (links : Links (· = r) t) (above : t.parent r = some p)
    (free : ∀ entry ∈ t.children p, entry.1 ≠ t.localname r)
    (shown : Shown gap t) (closed : ∀ k, gap k → k = p)
    (fits : t.ts p = aggregateOf (t.ts r :: t.childStates p) ∨
      t.ts p = .none ∧ ∀ state ∈ t.ts r :: t.childStates p, state = .none) :
    Sound ((t.insertChild p (t.localname r) r).treestate p .none) := by
  have all : ((t.children p).filter fun entry => entry.1 ≠ t.localname r) = t.children p :=
    List.filter_eq_self.mpr fun entry member => decide_eq_true (free entry member)
  have at_p : (t.insertChild p (t.localname r) r).children p =
      (t.localname r, r) :: t.children p := by
    rw [insertChild_children, if_pos rfl, all]
  have elsewhere : ∀ {k}, k ≠ p →
      (t.insertChild p (t.localname r) r).children k = t.children k := by
    intro k other
    rw [insertChild_children, if_neg other]
  refine Sound.treestate ?_ (Or.inl rfl)
  refine ⟨⟨links.acyclic, links.bound, ?listed, ?linked, fun _ => id, ?unique⟩,
    ⟨shown.rest, ?shows⟩⟩
  case listed =>
    intro k entry member
    rcases (mem_insertChild_children free k entry).mp member with ⟨rfl, rfl⟩ | old
    · exact ⟨rfl, above⟩
    · exact links.listed old
  case linked =>
    intro k q _ edge
    have edge : t.parent k = some q := edge
    rw [mem_insertChild_children free]
    rcases eq_or_ne k r with rfl | differs
    · exact Or.inl ⟨Option.some.inj (edge.symm.trans above), rfl⟩
    · exact Or.inr (links.linked differs edge)
  case unique =>
    intro k e e' first second same
    rcases (mem_insertChild_children free k e).mp first with ⟨rfl, rfl⟩ | old
    · rcases (mem_insertChild_children free k e').mp second with ⟨-, rfl⟩ | old'
      · rfl
      · exact absurd same.symm (free e' old')
    · rcases (mem_insertChild_children free k e').mp second with ⟨rfl, rfl⟩ | old'
      · exact absurd same (free e old)
      · exact links.unique old old' same
  case shows =>
    intro k _
    rcases eq_or_ne k p with rfl | other
    · intro _
      rw [childStates, at_p]
      exact fits
    · exact (shown.shows fun open_k => other (closed k open_k)).congr (elsewhere other) rfl
        fun _ _ => rfl

theorem setParent_parent (r p k : LocalRef) :
    (t.setParent r p).parent k = if k = r then some p else t.parent k := Function.update_apply ..

theorem Links.setParent (links : Links (· = r) t) (apart : ¬AtOrAbove t.parent r p)
    (bounds : r < t.next ∧ p < t.next) : Links (· = r) (t.setParent r p) where
  acyclic := acyclic_update links.acyclic apart
  bound {k q} edge := by
    rw [setParent_parent] at edge
    split at edge
    · next same =>
      obtain rfl := Option.some.inj edge
      exact same ▸ bounds
    · exact links.bound edge
  listed {k entry} member := by
    have other : entry.2 ≠ r := links.missing member
    rw [setParent_parent, if_neg other]
    exact links.listed member
  linked {k q} other edge := by
    rw [setParent_parent, if_neg other] at edge
    exact links.linked other edge
  missing member := links.missing member
  unique first second := links.unique first second

theorem Links.setName (links : Links (· = r) t) (name : Bytes) (node : LocalRef → Option Bytes) :
    Links (· = r)
      { t with
        localname := Function.update t.localname r name
        node := node } where
  acyclic := links.acyclic
  bound := links.bound
  listed {k entry} member := by
    have other : entry.2 ≠ r := links.missing member
    refine ⟨?_, (links.listed member).2⟩
    dsimp only
    rw [Function.update_of_ne other]
    exact (links.listed member).1
  linked {k q} other edge := by
    dsimp only
    rw [Function.update_of_ne other]
    exact links.linked other edge
  missing := links.missing
  unique := links.unique

end Structure

section Moves

variable {s t u : Forest} {r p q a k : LocalRef} {name : Bytes}

/-- Whether `setnameparent` also renames the associated node. -/
def Renames (s : Forest) (r : LocalRef) (name : Bytes) : Prop :=
  s.localname r ≠ name ∧ ∃ old, s.node r = some old ∧ local2name name ≠ old

def remaining (s : Forest) (r q : LocalRef) : List TreeState :=
  (s.others r q).map fun entry => s.ts entry.2

theorem rename_quiet (same : ¬Renames t r name) :
    t.rename r name = { t with localname := Function.update t.localname r name } := by
  rw [rename]
  split
  · next equal => rw [← equal, Function.update_eq_self]
  · next differs =>
    dsimp only
    split
    · rfl
    · next old known =>
      rw [if_pos]
      by_contra other
      exact same ⟨differs, old, known, other⟩

theorem rename_loud (renames : Renames t r name) : t.rename r name =
    treestate { t with
      localname := Function.update t.localname r name
      node := Function.update t.node r (some (local2name name)) } r .syncing := by
  obtain ⟨differs, old, known, other⟩ := renames
  rw [rename, if_neg differs]
  simp only [known, if_neg other]

/-- The forest in which a node has left its folder and has its new name. -/
structure Left (s u : Forest) (r : LocalRef) (name : Bytes) : Prop where
  links : Links (· = r) u
  parent : u.parent = s.parent
  children : ∀ k, u.children k = s.others r k
  localname : u.localname r = name
  node : (u.node r).isSome = (s.node r).isSome
  next : u.next = s.next
  shown : Shown (fun k => s.parent r = some k) u
  same : ∀ {k}, ¬AtOrAbove s.parent k r → SameAt s u k
  quiet : ¬Renames s r name → u.ts = s.ts
  loud : Renames s r name → u.ts r = .syncing ∧ ∀ q, s.parent r = some q → u.ts q = .syncing

theorem Sound.leave (sound : Sound s) (announces : Renames s r name → Announces s r) :
    Left s ((s.unlink r).rename r name) r name := by
  have unlinked := unlinked_unlink sound.links r
  have links := unlinked.links sound.links
  have shown := unlinked.shown sound.links sound.shown
  generalize s.unlink r = t at unlinked links shown
  have renames : Renames t r name ↔ Renames s r name := by
    rw [Renames, Renames, unlinked.localname, unlinked.node]
  by_cases loud : Renames t r name
  · rw [rename_loud loud]
    obtain ⟨-, old, known, -⟩ := id loud
    have announces := announces (renames.mp loud)
    let v : Forest := { t with
      localname := Function.update t.localname r name
      node := Function.update t.node r (some (local2name name)) }
    have named : Links (· = r) v := links.setName name _
    have before : Shown (fun k => s.parent r = some k) v := shown.congr rfl rfl rfl
    have shape := treestate_shape v r .syncing
    have above : v.parent = s.parent := unlinked.parent
    have after := before.treestate_syncing named fun a other _ => other
    refine ⟨named.of_shape shape, shape.parent.trans above,
      fun k => (congrFun shape.children k).trans (unlinked.children k),
      (congrFun shape.localname r).trans (Function.update_self ..), ?node,
      shape.next.trans unlinked.next, after.mono ?shown, ?same,
      fun quiet => absurd (renames.mp loud) quiet, fun _ => ⟨named.treestate_busy r, ?loud⟩⟩
    case node =>
      have written : v.node r = some (local2name name) := Function.update_self ..
      rw [shape.node, written, ← unlinked.node, known]
      rfl
    case shown =>
      rintro k (⟨-, silent⟩ | ⟨here, -⟩ | ⟨-, here⟩)
      · refine absurd ?_ silent
        have children : v.children r = s.children r :=
          (unlinked.children r).trans (others_eq sound.links sound.links.not_own)
        have states : v.childStates r = s.childStates r :=
          childStates_congr children fun entry _ => congrFun unlinked.ts entry.2
        rwa [Announces, children, states]
      · exact here
      · rwa [above] at here
    case same =>
      intro k apart
      rw [← above] at apart
      have kept := treestate_same .syncing apart
      exact ⟨kept.ts.trans (congrFun unlinked.ts k), kept.dts.trans (congrFun unlinked.dts k)⟩
    case loud =>
      intro q edge
      have apart := sound.links.not_above edge
      have higher : AtOrAbove v.parent q r := by
        rw [above]
        exact atOrAbove_of_parent edge (atOrAbove_refl _ q)
      exact (named.treestate_above higher fun same => apart (same ▸ atOrAbove_refl _ _)).1
  · rw [rename_quiet loud]
    refine ⟨links.setName name t.node, unlinked.parent, unlinked.children, Function.update_self ..,
      congrArg (fun node => (node r).isSome) unlinked.node, unlinked.next,
      shown.congr rfl rfl rfl, fun _ => ⟨congrFun unlinked.ts _, congrFun unlinked.dts _⟩,
      fun _ => unlinked.ts, fun renamed => absurd (renames.mpr renamed) loud⟩

/-- The folder that a node leaves keeps no other children, or none that the node outdid, or contains
the node's new place and hears from there. A new name of an associated node makes it `SYNCING`
before it leaves. -/
def Leaves (s : Forest) (r p : LocalRef) (name : Bytes) : Prop :=
  ∀ q, s.parent r = some q →
    s.others r q = [] ∨
    (Renames s r name ∧ .syncing ∈ s.remaining r q) ∨
    (¬Renames s r name ∧ Covered (s.ts r) (s.remaining r q)) ∨
    ((s.node r).isSome ∧ AtOrAbove s.parent q p)

/-- The folder that a node enters is told of it, which is done for associated nodes, or has other
children that the node does not outdo, or none and the state that the node gives it. -/
def Enters (s : Forest) (r p : LocalRef) : Prop :=
  (s.node r).isSome ∨ (s.ts p = .none ∧ s.ts r = .none) ∨
    (s.children p = [] ∧ s.ts p = aggregateOf [s.ts r]) ∨
    (s.children p ≠ [] ∧ s.ts p ≠ .none ∧ Covered (s.ts r) (s.childStates p))

/-- The children of a folder are one of them and the others. -/
theorem mem_childStates_others (links : Links nowhere s) (above : s.parent r = some q)
    (state : TreeState) : state ∈ s.childStates q ↔ state ∈ s.ts r :: s.remaining r q := by
  rw [List.mem_cons, mem_childStates, remaining, List.mem_map]
  constructor
  · rintro ⟨entry, member, rfl⟩
    by_cases same : entry.2 = r
    · exact Or.inl (congrArg s.ts same)
    · exact Or.inr ⟨entry, mem_others.mpr ⟨member, same⟩, rfl⟩
  · rintro (rfl | ⟨entry, member, rfl⟩)
    · exact ⟨_, links.linked id above, rfl⟩
    · exact ⟨entry, (mem_others.mp member).1, rfl⟩

/-- What a folder shows, in terms of one child and the others. -/
theorem Sound.shows_others (sound : Sound s) (above : s.parent r = some q) :
    s.ts q = aggregateOf (s.ts r :: s.remaining r q) ∨
      s.ts q = .none ∧ ∀ state ∈ s.ts r :: s.remaining r q, state = .none := by
  have members := mem_childStates_others sound.links above
  refine (sound.shown.shows (p := q) id (sound.links.not_empty id above)).imp ?_ ?_
  · exact fun state => state.trans (aggregateOf_congr (members _) (members _))
  · exact fun unset => ⟨unset.1, fun state member => unset.2 state ((members state).mpr member)⟩

/-- A folder shows its other children if the one that goes makes no difference. -/
theorem Sound.shows_remaining (sound : Sound s) (above : s.parent r = some q)
    (covered : Covered (s.ts r) (s.remaining r q)) :
    s.ts q = aggregateOf (s.remaining r q) ∨
      s.ts q = .none ∧ ∀ state ∈ s.remaining r q, state = .none := by
  refine (sound.shows_others above).imp ?_ ?_
  · exact fun state => state.trans (aggregateOf_cons covered)
  · exact fun unset => ⟨unset.1, fun state member => unset.2 state (List.mem_cons_of_mem _ member)⟩

/-- The states of the other children of the folder are as before. -/
theorem Left.remaining_eq (left : Left s u r name) (links : Links nowhere s)
    (above : s.parent r = some q) : u.childStates q = s.remaining r q := by
  rw [childStates, left.children, remaining]
  refine List.map_congr_left fun entry member => ?_
  obtain ⟨listed, other⟩ := mem_others.mp member
  refine (left.same fun higher => ?_).ts
  have over_q := (atOrAbove_parent above higher).resolve_left other
  exact links.not_above (links.listed listed).2 over_q

/-- The old folder shows its children, unless it contains the new place. -/
theorem Left.closed (left : Left s u r name) (sound : Sound s) (leaves : Leaves s r p name) :
    Shown (fun k => s.parent r = some k ∧ (s.node r).isSome ∧ AtOrAbove s.parent k p) u := by
  refine ⟨left.shown.rest, fun {q} outside => ?_⟩
  by_cases above : s.parent r = some q
  · have states := left.remaining_eq sound.links above
    intro some_child
    rw [states]
    rcases leaves q above with none | ⟨loud, busy⟩ | ⟨quiet, covered⟩ | inside
    · rw [left.children] at some_child
      exact absurd none some_child
    · rw [(left.loud loud).2 q above, aggregateOf_syncing busy]
      exact Or.inl rfl
    · rw [left.quiet quiet]
      exact sound.shows_remaining above covered
    · exact absurd ⟨above, inside⟩ outside
  · exact left.shown.shows above

/-- The report of the old folder, if there is one. -/
def oldReports (u : Forest) (r : LocalRef) : Forest :=
  match u.parent r with
  | none => u
  | some q => u.treestate q .none

theorem reparent_same (newnode : Bool) (here : u.parent r = some p) :
    u.reparent r p newnode = u := by
  rw [reparent, if_pos here]

theorem reparent_other (newnode : Bool) (elsewhere : u.parent r ≠ some p) :
    u.reparent r p newnode =
      if !newnode && (u.node r).isSome then ((u.oldReports r).setParent r p).treestate r .syncing
      else (u.oldReports r).setParent r p := by
  have node : (u.oldReports r).node = u.node := by
    rw [oldReports]
    split
    · rfl
    · exact (treestate_shape u _ .none).node
  rw [reparent, if_neg elsewhere]
  change (if !newnode && (((u.oldReports r).setParent r p).node r).isSome then
      ((u.oldReports r).setParent r p).treestate r .syncing
    else (u.oldReports r).setParent r p) = _
  rw [show ((u.oldReports r).setParent r p).node = u.node from node]

/-- The old folder has no news for the folders above it. -/
theorem Left.reports_still (left : Left s u r name) (links : Links nowhere s) :
    u.oldReports r = u := by
  rw [oldReports, left.parent]
  cases above : s.parent r with
  | none => rfl
  | some q =>
    refine left.shown.treestate_none left.links ?_ ?_
    · rintro a higher rfl
      rw [left.parent] at higher
      exact links.not_above above higher
    · intro a other _ open_a
      exact other (Option.some.inj (above.symm.trans open_a)).symm

/-- The node's own children are as before. -/
theorem Left.announces (left : Left s u r name) (links : Links nowhere s)
    (announces : Announces s r) : Announces u r := by
  have children : u.children r = s.children r :=
    (left.children r).trans (others_eq links links.not_own)
  have states : u.childStates r = s.childStates r := childStates_congr children fun entry member =>
    (left.same fun higher => links.not_above (links.listed member).2 higher).ts
  rwa [Announces, children, states]

/-- What the new folder shows of a node without an associated one. -/
theorem Left.fits (left : Left s u r name) (sound : Sound s) (elsewhere : s.parent r ≠ some p)
    (bare : (s.node r).isSome = false) (enters : Enters s r p) :
    u.ts p = aggregateOf (u.ts r :: u.childStates p) ∨
      u.ts p = .none ∧ ∀ state ∈ u.ts r :: u.childStates p, state = .none := by
  have quiet : ¬Renames s r name := by
    rintro ⟨-, old, known, -⟩
    rw [known] at bare
    cases bare
  have folder : u.children p = s.children p :=
    (left.children p).trans (others_eq sound.links elsewhere)
  have states : u.childStates p = s.childStates p :=
    childStates_congr folder fun entry _ => congrFun (left.quiet quiet) entry.2
  rw [states, left.quiet quiet]
  rcases enters with associated | ⟨unset, unset_r⟩ | ⟨empty, state⟩ | ⟨some_child, state, covered⟩
  · rw [bare] at associated
    cases associated
  · refine Or.inr ⟨unset, fun state member => ?_⟩
    rcases List.mem_cons.mp member with rfl | among
    · exact unset_r
    · obtain ⟨entry, inside, rfl⟩ := mem_childStates.mp among
      by_contra given
      have told := (sound.shown.shows (p := p) id).of_child
        (show (entry.1, entry.2) ∈ s.children p from inside) given
      exact aggregateOf_ne_none (told.symm.trans unset)
  · rw [childStates, empty]
    exact Or.inl state
  · rw [aggregateOf_cons covered]
    exact Or.inl ((sound.shown.shows id).of_ts some_child state)

/-- What a move needs: another name than those in the new folder, which is not inside the node, and
folders for which the move makes no difference. Where it makes the node `SYNCING`, its own children
have to be. -/
structure Moves (s : Forest) (r p : LocalRef) (name : Bytes) : Prop where
  named : s.localname r ≠ []
  bounds : r < s.next ∧ p < s.next
  outside : ¬AtOrAbove s.parent r p
  free : ∀ entry ∈ s.children p, entry.2 ≠ r → entry.1 ≠ name
  announced : Renames s r name ∨ (s.node r).isSome ∧ s.parent r ≠ some p → Announces s r
  folders : s.parent r ≠ some p → Leaves s r p name ∧ Enters s r p

/-- The node comes back to the folder that it was in. -/
theorem Left.stays (left : Left s u r name) (sound : Sound s) (here : s.parent r = some p)
    (free : ∀ entry ∈ u.children p, entry.1 ≠ name) :
    Sound ((u.insertChild p (u.localname r) r).treestate p .none) := by
  have above : u.parent r = some p := by rw [left.parent, here]
  refine left.links.enter above (left.localname ▸ free) left.shown ?_ ?_
  · intro k open_k
    exact (Option.some.inj (here.symm.trans open_k)).symm
  · rw [left.remaining_eq sound.links here]
    by_cases renames : Renames s r name
    · rw [(left.loud renames).2 p here, (left.loud renames).1,
        aggregateOf_syncing List.mem_cons_self]
      exact Or.inl rfl
    · rw [left.quiet renames]
      exact sound.shows_others here

/-- The node hangs below its new folder, which does not list it yet. -/
theorem Left.hung (left : Left s u r name) (moves : Moves s r p name) :
    Links (· = r) (u.setParent r p) ∧ (u.setParent r p).parent r = some p := by
  refine ⟨left.links.setParent (left.parent ▸ moves.outside) ?_, ?_⟩
  · rw [left.next]
    exact moves.bounds
  · rw [setParent_parent, if_pos rfl]

/-- A node with an associated node shows that it is syncing, and so do the folders above. -/
theorem Left.comes_busy (left : Left s u r name) (sound : Sound s) (moves : Moves s r p name)
    (leaves : Leaves s r p name) (announces : Announces s r)
    (free : ∀ entry ∈ u.children p, entry.1 ≠ name) :
    Sound ((((u.setParent r p).treestate r .syncing).insertChild p
      (((u.setParent r p).treestate r .syncing).localname r) r).treestate p .none) := by
  obtain ⟨links_w, parent_w⟩ := left.hung moves
  have shown_w : Shown _ (u.setParent r p) := (left.closed sound leaves).congr rfl rfl rfl
  have announces_w : Announces (u.setParent r p) r := left.announces sound.links announces
  have after := shown_w.treestate_syncing links_w fun a other _ => other
  have shape := treestate_shape (u.setParent r p) r .syncing
  have over_r : AtOrAbove (u.setParent r p).parent p r :=
    atOrAbove_of_parent parent_w (atOrAbove_refl _ p)
  have not_r : p ≠ r := fun same => moves.outside (same ▸ atOrAbove_refl _ _)
  have busy_p := (links_w.treestate_above over_r not_r).1
  refine (links_w.of_shape shape).enter (shape.parent ▸ parent_w) ?_ after ?_ ?_
  · rw [shape.localname, shape.children]
    change ∀ entry ∈ u.children p, entry.1 ≠ u.localname r
    rw [left.localname]
    exact free
  · rintro k (⟨-, silent⟩ | ⟨⟨open_k, -, inside⟩, not_over⟩ | ⟨-, edge⟩)
    · exact absurd announces_w silent
    · have other : k ≠ r := fun same =>
        sound.links.not_above open_k (same ▸ atOrAbove_refl _ _)
      have walk := atOrAbove_update (some p) moves.outside inside
      rw [← left.parent] at walk
      exact absurd ⟨atOrAbove_of_parent parent_w walk, other⟩ not_over
    · exact (Option.some.inj (parent_w.symm.trans edge)).symm
  · rw [busy_p, links_w.treestate_busy r, aggregateOf_syncing List.mem_cons_self]
    exact Or.inl rfl

/-- A node without an associated node keeps its state. -/
theorem Left.comes_bare (left : Left s u r name) (sound : Sound s) (moves : Moves s r p name)
    (elsewhere : s.parent r ≠ some p) (bare : (s.node r).isSome = false)
    (free : ∀ entry ∈ u.children p, entry.1 ≠ name) :
    Sound (((u.setParent r p).insertChild p ((u.setParent r p).localname r) r).treestate p
      .none) := by
  obtain ⟨leaves, enters⟩ := moves.folders elsewhere
  obtain ⟨links_w, parent_w⟩ := left.hung moves
  have shown_u : Shown nowhere u := (left.closed sound leaves).mono fun k open_k => by
    rw [bare] at open_k
    exact absurd open_k.2.1 Bool.false_ne_true
  have shown_w : Shown nowhere (u.setParent r p) := shown_u.congr rfl rfl rfl
  refine links_w.enter parent_w ?_ shown_w (fun _ => False.elim)
    (left.fits sound elsewhere bare enters)
  change ∀ entry ∈ u.children p, entry.1 ≠ u.localname r
  rw [left.localname]
  exact free

/-- A move between folders for which it makes no difference. -/
theorem Sound.setnameparent (sound : Sound s) (moves : Moves s r p name) :
    Sound (s.setnameparent r (some p) (some name)) := by
  have left := sound.leave fun renames => moves.announced (Or.inl renames)
  have newnode : decide (s.localname r = []) = false := decide_eq_false moves.named
  rw [Forest.setnameparent, newnode]
  generalize (s.unlink r).rename r name = u at left
  have free : ∀ entry ∈ u.children p, entry.1 ≠ name := by
    intro entry member
    rw [left.children, mem_others] at member
    exact moves.free entry member.1 member.2
  by_cases here : s.parent r = some p
  · rw [reparent_same false (by rw [left.parent, here])]
    exact left.stays sound here free
  · rw [reparent_other false (by rw [left.parent]; exact here), left.reports_still sound.links,
      left.node]
    cases associated : (s.node r).isSome with
    | true =>
      rw [if_pos (show (!false && true) = true from rfl)]
      exact left.comes_busy sound moves (moves.folders here).1
        (moves.announced (Or.inr ⟨associated, here⟩)) free
    | false =>
      rw [if_neg (by simp)]
      exact left.comes_bare sound moves here associated free

end Moves

section Changes

variable {s : Forest} {r p q k : LocalRef} {name : Bytes}

theorem Links.below_iff (links : Links nowhere s) :
    s.below r k = true ↔ AtOrAbove s.parent r k := by
  obtain ⟨rank, drops, enough⟩ := links.ranked
  obtain ⟨above, ended, first⟩ := climb_spec (fun n => decide (n = r)) drops (enough k)
  rw [below, decide_eq_true_eq]
  constructor
  · intro same
    rwa [same] at above
  · intro higher
    rcases ended with stopped | root
    · exact of_decide_eq_true stopped
    · exact (atOrAbove_root root (first r higher (decide_eq_true rfl))).symm

theorem new_old (old : k ≠ s.next) (name : Bytes) : (s.new name).parent k = s.parent k ∧
    (s.new name).children k = s.children k ∧ (s.new name).localname k = s.localname k ∧
    SameAt s (s.new name) k :=
  ⟨Function.update_of_ne old _ _, Function.update_of_ne old _ _, Function.update_of_ne old _ _,
    Function.update_of_ne old _ _, Function.update_of_ne old _ _⟩

theorem new_fresh (s : Forest) (name : Bytes) : (s.new name).parent s.next = none ∧
    (s.new name).children s.next = [] ∧ (s.new name).localname s.next = name ∧
    (s.new name).node s.next = none ∧ (s.new name).ts s.next = .none ∧
    (s.new name).dts s.next = .none :=
  ⟨Function.update_self .., Function.update_self .., Function.update_self ..,
    Function.update_self .., Function.update_self .., Function.update_self ..⟩

/-- A new node has no links yet. -/
theorem Sound.new (sound : Sound s) (name : Bytes) : Sound (s.new name) := by
  have links := sound.links
  have fresh := new_fresh s name
  have child_old : ∀ {k entry}, entry ∈ s.children k → entry.2 ≠ s.next := fun member =>
    Nat.ne_of_lt (links.bound (links.listed member).2).1
  have edge_old : ∀ {k q}, (s.new name).parent k = some q → k ≠ s.next := by
    rintro k q edge rfl
    rw [fresh.1] at edge
    cases edge
  have folder_old : ∀ {k}, (s.new name).children k ≠ [] → k ≠ s.next := by
    rintro k some_child rfl
    exact some_child fresh.2.1
  have member_old : ∀ {k entry}, entry ∈ (s.new name).children k → k ≠ s.next := fun member =>
    folder_old (List.ne_nil_of_mem member)
  refine ⟨⟨links.acyclic.mono fun k q edge => ?_, ?bound, ?listed, ?linked, fun _ => id, ?unique⟩,
    ⟨?rest, ?shows⟩⟩
  · rwa [(new_old (edge_old edge) name).1] at edge
  case bound =>
    intro k q edge
    rw [(new_old (edge_old edge) name).1] at edge
    have bounds := links.bound edge
    exact ⟨Nat.lt_succ_of_lt bounds.1, Nat.lt_succ_of_lt bounds.2⟩
  case listed =>
    intro k entry member
    rw [(new_old (member_old member) name).2.1] at member
    have old := new_old (child_old member) name
    rw [old.1, old.2.2.1]
    exact links.listed member
  case linked =>
    intro k q _ edge
    have old := new_old (edge_old edge) name
    rw [old.1] at edge
    have parent_old : q ≠ s.next := Nat.ne_of_lt (links.bound edge).2
    rw [old.2.2.1, (new_old parent_old name).2.1]
    exact links.linked id edge
  case unique =>
    intro k e e' first second
    have old := (new_old (member_old first) name).2.1
    rw [old] at first second
    exact links.unique first second
  case rest =>
    intro k
    rcases eq_or_ne k s.next with rfl | old
    · rw [fresh.2.2.2.2.1, fresh.2.2.2.2.2]
    · have same := (new_old old name).2.2.2
      rw [same.dts, same.ts, sound.shown.rest]
  case shows =>
    intro k _
    rcases eq_or_ne k s.next with rfl | old
    · exact fun some_child => absurd fresh.2.1 some_child
    · obtain ⟨-, children, -, same⟩ := new_old old name
      exact (sound.shown.shows id).congr children same.ts fun entry member =>
        (new_old (child_old member) name).2.2.2.ts

/-- `init` gives a new node its name and hangs it below its parent. -/
theorem init_child (s : Forest) (p : LocalRef) (name : Bytes) : s.init (some p) name =
    (((s.new name).setParent s.next p).insertChild p name s.next).treestate p .none := by
  have root := (new_fresh s []).1
  have unlink_new : (s.new []).unlink s.next = s.new [] := by
    simp only [unlink, root]
  have bare : ¬Renames (s.new []) s.next name := by
    rintro ⟨-, old, known, -⟩
    rw [(new_fresh s []).2.2.2.1] at known
    cases known
  have named : (s.new []).rename s.next name = s.new name := by
    rw [rename_quiet bare, new, new]
    simp only [Function.update_idem]
  have newnode : decide ((s.new []).localname s.next = []) = true :=
    decide_eq_true (new_fresh s []).2.2.1
  have elsewhere : (s.new name).parent s.next ≠ some p := by
    rw [(new_fresh s name).1]
    exact nofun
  have reports : (s.new name).oldReports s.next = s.new name := by
    simp only [oldReports, (new_fresh s name).1]
  have placed : ((s.new name).setParent s.next p).localname s.next = name :=
    (new_fresh s name).2.2.1
  rw [init, Forest.setnameparent, newnode, unlink_new, named, reparent_other true elsewhere,
    Bool.not_true, Bool.false_and, if_neg Bool.false_ne_true, reports, placed]

/-- A folder takes in a new node if the name is free and, for its first child, if it is synced or
has no state yet. -/
def Takes (s : Forest) (p : LocalRef) (name : Bytes) : Prop :=
  p < s.next ∧ (∀ entry ∈ s.children p, entry.1 ≠ name) ∧
    (s.children p = [] → s.ts p = .none ∨ s.ts p = .synced)

instance (s : Forest) (p : LocalRef) (name : Bytes) : Decidable (Takes s p name) :=
  inferInstanceAs (Decidable (_ ∧ _ ∧ (_ → _)))

/-- Nothing leads to a new node, and it leads nowhere. -/
theorem Sound.lonely_new (sound : Sound s) (name : Bytes) : Links (· = s.next) (s.new name) := by
  have links := (sound.new name).links
  have missing : ∀ {k entry}, entry ∈ (s.new name).children k → entry.2 ≠ s.next := by
    intro k entry member same
    have edge := (links.listed member).2
    rw [same, (new_fresh s name).1] at edge
    cases edge
  exact ⟨links.acyclic, links.bound, links.listed, fun _ => links.linked id, missing, links.unique⟩

theorem Sound.new_not_above (sound : Sound s) (known : p < s.next) (name : Bytes) :
    ¬AtOrAbove (s.new name).parent s.next p := by
  intro higher
  rcases Relation.ReflTransGen.cases_tail higher with same | ⟨c, -, edge⟩
  · exact Nat.ne_of_lt known same.symm
  · have edge : (s.new name).parent c = some s.next := edge
    rcases eq_or_ne c s.next with rfl | other
    · rw [(new_fresh s name).1] at edge
      cases edge
    · rw [(new_old other name).1] at edge
      exact Nat.lt_irrefl _ (sound.links.bound edge).2

theorem Sound.init (sound : Sound s) (takes : Takes s p name) : Sound (s.init (some p) name) := by
  obtain ⟨exists_p, free, first⟩ := takes
  have old := new_old (Nat.ne_of_lt exists_p) name
  have fresh := new_fresh s name
  have sound_new := sound.new name
  have hung := (sound.lonely_new name).setParent (sound.new_not_above exists_p name)
    ⟨Nat.lt_succ_self _, Nat.lt_succ_of_lt exists_p⟩
  have above : ((s.new name).setParent s.next p).parent s.next = some p := by
    rw [setParent_parent, if_pos rfl]
  have placed : ((s.new name).setParent s.next p).localname s.next = name := fresh.2.2.1
  have states : ((s.new name).setParent s.next p).childStates p = s.childStates p :=
    childStates_congr old.2.1 fun entry member => by
      have other := Nat.ne_of_lt (sound.links.bound (sound.links.listed member).2).1
      exact (new_old other name).2.2.2.ts
  have shown : Shown nowhere ((s.new name).setParent s.next p) :=
    sound_new.shown.congr rfl rfl rfl
  have ts_p : ((s.new name).setParent s.next p).ts p = s.ts p := old.2.2.2.ts
  have ts_new : ((s.new name).setParent s.next p).ts s.next = .none := fresh.2.2.2.2.1
  have vacant : ∀ entry ∈ ((s.new name).setParent s.next p).children p,
      entry.1 ≠ ((s.new name).setParent s.next p).localname s.next := by
    rw [placed]
    intro entry member
    have member : entry ∈ (s.new name).children p := member
    rw [old.2.1] at member
    exact free entry member
  have fits : ((s.new name).setParent s.next p).ts p =
        aggregateOf (((s.new name).setParent s.next p).ts s.next ::
          ((s.new name).setParent s.next p).childStates p) ∨
      ((s.new name).setParent s.next p).ts p = .none ∧
        ∀ state ∈ ((s.new name).setParent s.next p).ts s.next ::
          ((s.new name).setParent s.next p).childStates p, state = .none := by
    rw [ts_p, ts_new, states, aggregateOf_cons (Or.inl rfl)]
    by_cases empty : s.children p = []
    · have none : s.childStates p = [] := by rw [childStates, empty, List.map_nil]
      rw [none]
      refine (first empty).symm.imp id fun unset => ⟨unset, fun state member => ?_⟩
      exact List.mem_singleton.mp member
    · refine (sound.shown.shows id empty).imp id fun unset => ⟨unset.1, fun state member => ?_⟩
      exact (List.mem_cons.mp member).elim id (unset.2 state)
  have entered := hung.enter above vacant shown (fun _ => False.elim) fits
  rw [placed] at entered
  rw [init_child]
  exact entered

/-- The parent of a deleted node has no other children, or none that the node outdid. -/
def Deletes (s : Forest) (r : LocalRef) : Prop :=
  ∀ q ∈ s.parent r, s.others r q = [] ∨ Covered (s.ts r) (s.remaining r q)

theorem Links.delete_parent (links : Links nowhere s)
    (edge : (s.delete r).parent k = some q) : ¬AtOrAbove s.parent r k ∧ s.parent k = some q := by
  have edge : (if s.below r k then none else (s.unlink r).parent k) = some q := edge
  split at edge
  · cases edge
  · next outside =>
    rw [(unlinked_unlink links r).parent] at edge
    exact ⟨fun inside => outside (links.below_iff.mpr inside), edge⟩

theorem Links.delete_children (links : Links nowhere s)
    (some_child : (s.delete r).children k ≠ []) :
    ¬AtOrAbove s.parent r k ∧ (s.delete r).children k = s.others r k := by
  have unfolded : (s.delete r).children k =
      if s.below r k then [] else (s.unlink r).children k := rfl
  by_cases inside : s.below r k = true
  · rw [unfolded, if_pos inside] at some_child
    exact absurd rfl some_child
  · rw [unfolded, if_neg inside, unlink_children links]
    exact ⟨fun higher => inside (links.below_iff.mpr higher), rfl⟩

theorem Links.delete (links : Links nowhere s) (r : LocalRef) : Links nowhere (s.delete r) := by
  have unlinked := unlinked_unlink links r
  have members : ∀ {k entry}, entry ∈ (s.delete r).children k →
      ¬AtOrAbove s.parent r k ∧ entry ∈ s.children k ∧ entry.2 ≠ r := by
    intro k entry member
    obtain ⟨outside, same⟩ := links.delete_children (List.ne_nil_of_mem member)
    rw [same, mem_others] at member
    exact ⟨outside, member⟩
  refine ⟨links.acyclic.mono fun k q edge => (links.delete_parent edge).2, ?bound, ?listed, ?linked,
    fun _ => id, fun first second => links.unique (members first).2.1 (members second).2.1⟩
  case bound =>
    intro k q edge
    have bounds := links.bound (links.delete_parent edge).2
    exact ⟨unlinked.next ▸ bounds.1, unlinked.next ▸ bounds.2⟩
  case listed =>
    intro k entry member
    obtain ⟨outside, listed, other⟩ := members member
    obtain ⟨named, above⟩ := links.listed listed
    have kept : ¬s.below r entry.2 = true := fun inside =>
      outside ((atOrAbove_parent above (links.below_iff.mp inside)).resolve_left
        fun same => other same.symm)
    refine ⟨named.trans (congrFun unlinked.localname _).symm, ?_⟩
    exact (if_neg kept).trans ((congrFun unlinked.parent _).trans above)
  case linked =>
    intro k q _ edge
    obtain ⟨outside, above⟩ := links.delete_parent edge
    have kept : ¬s.below r q = true := fun inside =>
      outside (atOrAbove_of_parent above (links.below_iff.mp inside))
    have same : (s.delete r).children q = s.others r q :=
      (if_neg kept).trans (unlinked.children q)
    have named : (s.delete r).localname = s.localname := unlinked.localname
    rw [same, mem_others, named]
    refine ⟨links.linked id above, ?_⟩
    rintro rfl
    exact outside (atOrAbove_refl _ _)

/-- A deletion after which the parent shows its other children. -/
theorem Shown.delete (links : Links nowhere s) (shown : Shown (· = r) s)
    (fits : ∀ q, s.parent r = some q → s.others r q = [] ∨
      s.ts q = aggregateOf (s.remaining r q) ∨
        s.ts q = .none ∧ ∀ state ∈ s.remaining r q, state = .none) : Sound (s.delete r) := by
  have unlinked := unlinked_unlink links r
  have ts : (s.delete r).ts = s.ts := unlinked.ts
  have dts : (s.delete r).dts = s.dts := unlinked.dts
  refine ⟨links.delete r, ⟨fun k => by rw [ts, dts, shown.rest], fun {k} _ some_child => ?_⟩⟩
  obtain ⟨outside, same⟩ := links.delete_children some_child
  have states : (s.delete r).childStates k = s.remaining r k := by
    rw [childStates, same, remaining, ts]
  rw [same] at some_child
  rw [ts, states]
  by_cases above : s.parent r = some k
  · exact (fits k above).resolve_left some_child
  · have other : k ≠ r := fun here => outside (here ▸ atOrAbove_refl _ _)
    rw [remaining, others_eq links above]
    rw [others_eq links above] at some_child
    exact shown.shows other some_child

theorem Sound.delete (sound : Sound s) (deletes : Deletes s r) : Sound (s.delete r) :=
  (sound.shown.mono fun _ => False.elim).delete sound.links fun q above =>
    (deletes q above).imp_right (sound.shows_remaining above)

/-- `syncdown` has announced the deletion, which makes the folder `SYNCING`. -/
def SyncdownDeletes (s : Forest) (r : LocalRef) : Prop :=
  ∀ q ∈ s.parent r, s.others r q = [] ∨ .syncing ∈ s.remaining r q

theorem Sound.syncdownDelete (sound : Sound s) (deletes : SyncdownDeletes s r) :
    Sound (s.syncdownDelete r) := by
  have links := sound.links
  have shape := treestate_shape s r .syncing
  have announced : Shown (· = r) (s.treestate r .syncing) :=
    (sound.shown.treestate_syncing links fun _ _ _ => id).mono fun k open_k => by
      rcases open_k with ⟨same, -⟩ | ⟨open_k, -⟩ | ⟨missing, -⟩
      · exact same
      · exact False.elim open_k
      · exact False.elim missing
  have deleted : Sound ((s.treestate r .syncing).delete r) := by
    refine announced.delete (links.of_shape shape) fun q above => ?_
    rw [shape.parent] at above
    have higher : AtOrAbove s.parent q r := atOrAbove_of_parent above (atOrAbove_refl _ q)
    have apart : q ≠ r := fun same => links.not_own (same ▸ above)
    have others : (s.treestate r .syncing).others r q = s.others r q := by
      rw [Forest.others, Forest.others, shape.children]
    refine (deletes q above).imp others.trans fun busy => Or.inl ?_
    rw [(links.treestate_above higher apart).1, aggregateOf_syncing]
    rw [remaining, List.mem_map] at busy ⊢
    obtain ⟨entry, member, state⟩ := busy
    refine ⟨entry, others ▸ member, ?_⟩
    obtain ⟨listed, other⟩ := mem_others.mp member
    refine (treestate_same .syncing fun over_r => ?_).ts.trans state
    have over_q := (atOrAbove_parent above over_r).resolve_left other
    exact links.not_above (links.listed listed).2 over_q
  rw [Forest.syncdownDelete]
  split
  · exact deleted
  · exact deleted.treestate (Or.inl rfl)

/-- A step after which no folder has to be looked at again. Calls give a node the state of its
children, and a first state does not stop below a folder to which it matters; a child that comes or
goes makes no difference to its folder. -/
def Recomputes (s : Forest) : Event → Prop
  | .init none _ | .setnode _ _ => True
  | .treestate r newts => Reports s r newts
  | .init (some p) name => Takes s p name
  | .setnameparent r newparent newname => Moves s r newparent newname
  | .delete r => Deletes s r
  | .syncdownDelete r => SyncdownDeletes s r

theorem Sound.step {e : Event} (sound : Sound s) (recomputes : Recomputes s e) :
    Sound (step s e) := by
  cases e with
  | treestate r newts => exact sound.treestate recomputes
  | init parent name =>
    cases parent with
    | none => exact sound.new name
    | some p => exact sound.init recomputes
  | setnode r name =>
    have links := sound.links
    exact ⟨⟨links.acyclic, links.bound, links.listed, links.linked, links.missing, links.unique⟩,
      sound.shown.congr rfl rfl rfl⟩
  | setnameparent r newparent newname => exact sound.setnameparent recomputes
  | delete r => exact sound.delete recomputes
  | syncdownDelete r => exact sound.syncdownDelete recomputes

end Changes

end Forest

end MegaSdk.Sync.States
