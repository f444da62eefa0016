import MegaSdk.Lib.KeyedLists
import MegaSdk.Lib.NamedForest
import MegaSdk.Sync.TreeMoves

/-!
# Places of local nodes

What `init`, `setnameparent` and the destructor do to the parents and the names of the
`LocalNode`s. The maps of the children say the same as these.
-/

namespace MegaSdk.Sync.States

open NamedForest ParentForest

namespace Forest

/-- The parent of a `LocalNode` and its name. -/
def place (s : Forest) (r : LocalRef) : Option (LocalRef × Bytes) :=
  (s.parent r).map fun p => (p, s.localname r)

def childbyname (s : Forest) (l : LocalRef) (name : Bytes) : Option LocalRef :=
  KeyedLists.find name (s.children l)

section Places
variable {s t : Forest} {r p q k l : LocalRef} {name : Bytes}

theorem place_eq_some :
    s.place r = some (p, name) ↔ s.parent r = some p ∧ s.localname r = name := by
  rw [place, Option.map_eq_some_iff]
  constructor
  · rintro ⟨q, above, same⟩
    obtain ⟨rfl, rfl⟩ := Prod.mk.inj same
    exact ⟨above, rfl⟩
  · rintro ⟨above, rfl⟩
    exact ⟨p, above, rfl⟩

theorem parentOf_place (s : Forest) : parentOf s.place = s.parent := by
  funext k
  rw [parentOf, place, Option.map_map]
  cases s.parent k <;> rfl

theorem parent_of_place (place : t.place = Function.update s.place r (some (p, name))) :
    t.parent = Function.update s.parent r (some p) := by
  rw [← parentOf_place t, place, parentOf_update, parentOf_place]

theorem place_congr (parent : t.parent k = s.parent k)
    (localname : (s.parent k).isSome → t.localname k = s.localname k) :
    t.place k = s.place k := by
  rw [place, place, parent]
  cases above : s.parent k with
  | none => rfl
  | some p => rw [localname (by rw [above]; rfl)]

theorem SameShape.place (shape : SameShape s t) : t.place = s.place := by
  funext k
  exact place_congr (congrFun shape.parent k) fun _ => congrFun shape.localname k

theorem place_update (parent : t.parent = Function.update s.parent r (some p))
    (localname : t.localname r = name)
    (names : ∀ k, k ≠ r → (s.parent k).isSome → t.localname k = s.localname k) :
    t.place = Function.update s.place r (some (p, name)) := by
  funext k
  by_cases here : k = r
  · subst here
    rw [Function.update_self, place_eq_some, parent, Function.update_self]
    exact ⟨rfl, localname⟩
  · rw [Function.update_of_ne here]
    refine place_congr ?_ (names k here)
    rw [parent, Function.update_of_ne here]

theorem Links.childbyname_iff (links : Links nowhere s) :
    s.childbyname l name = some r ↔ s.place r = some (l, name) := by
  rw [childbyname, place_eq_some]
  constructor
  · intro found
    obtain ⟨named, above⟩ := links.listed (KeyedLists.mem_of_find found)
    exact ⟨above, named.symm⟩
  · rintro ⟨above, rfl⟩
    have listed := links.linked id above
    cases found : KeyedLists.find (s.localname r) (s.children l) with
    | none => exact absurd (KeyedLists.mem_keys listed) (KeyedLists.not_mem_of_find found)
    | some k => exact congrArg some (links.unique (KeyedLists.mem_of_find found) listed rfl)

theorem Links.injective (links : Links nowhere s) : Injective s.place := by
  intro n m q first second
  exact Option.some.inj
    ((links.childbyname_iff.mpr first).symm.trans (links.childbyname_iff.mpr second))

/-- A node without an entry gets one. -/
theorem Links.insertChild (links : Links (· = r) t) (above : t.parent r = some p)
    (named : t.localname r = name) (free : ∀ entry ∈ t.children p, entry.1 ≠ name) :
    Links nowhere (t.insertChild p name r) where
  acyclic := links.acyclic
  bound := links.bound
  listed {k entry} member := by
    rcases (mem_insertChild_children free k entry).mp member with ⟨rfl, rfl⟩ | old
    · exact ⟨named.symm, above⟩
    · exact links.listed old
  linked {k q} _ edge := by
    have edge : t.parent k = some q := edge
    rw [mem_insertChild_children free]
    by_cases here : k = r
    · subst here
      exact .inl ⟨Option.some.inj (edge.symm.trans above), by rw [← named]; rfl⟩
    · exact .inr (links.linked here edge)
  missing _ := id
  unique {k e e'} first second same := by
    rcases (mem_insertChild_children free k e).mp first with ⟨rfl, rfl⟩ | old
    · rcases (mem_insertChild_children free k e').mp second with ⟨-, rfl⟩ | old'
      · rfl
      · exact absurd same.symm (free e' old')
    · rcases (mem_insertChild_children free k e').mp second with ⟨rfl, rfl⟩ | old'
      · exact absurd same (free e old)
      · exact links.unique old old' same

/-- A node that is out of its folder gets a name. -/
theorem Links.rename (links : Links (· = r) t) (name : Bytes) : Links (· = r) (t.rename r name) ∧
    (t.rename r name).parent = t.parent ∧ (t.rename r name).children = t.children ∧
    (t.rename r name).localname = Function.update t.localname r name ∧
    (t.rename r name).next = t.next := by
  by_cases loud : Renames t r name
  · rw [rename_loud loud]
    have shape := treestate_shape { t with
      localname := Function.update t.localname r name
      node := Function.update t.node r (some (local2name name)) } r .syncing
    exact ⟨(links.setName name _).of_shape shape, shape.parent, shape.children, shape.localname,
      shape.next⟩
  · rw [rename_quiet loud]
    exact ⟨links.setName name t.node, rfl, rfl, rfl, rfl⟩

theorem oldReports_shape (t : Forest) (r : LocalRef) : SameShape t (t.oldReports r) := by
  rw [oldReports]
  split
  · exact .refl t
  · exact treestate_shape t _ .none

/-- And a parent. -/
theorem Links.reparent (links : Links (· = r) t) (newnode : Bool) (apart : ¬AtOrAbove t.parent r p)
    (bounds : r < t.next ∧ p < t.next) : Links (· = r) (t.reparent r p newnode) ∧
    (t.reparent r p newnode).parent = Function.update t.parent r (some p) ∧
    (t.reparent r p newnode).children = t.children ∧
    (t.reparent r p newnode).localname = t.localname ∧
    (t.reparent r p newnode).next = t.next := by
  by_cases here : t.parent r = some p
  · rw [reparent_same newnode here, ← here, Function.update_eq_self]
    exact ⟨links, rfl, rfl, rfl, rfl⟩
  · have shape := oldReports_shape t r
    have placed : Links (· = r) ((t.oldReports r).setParent r p) :=
      (links.of_shape shape).setParent (shape.parent ▸ apart) (shape.next ▸ bounds)
    have parent : ((t.oldReports r).setParent r p).parent =
      Function.update t.parent r (some p) := by rw [Forest.setParent, shape.parent]
    rw [reparent_other newnode here]
    split
    · have after := treestate_shape ((t.oldReports r).setParent r p) r .syncing
      exact ⟨placed.of_shape after, after.parent.trans parent,
        after.children.trans shape.children, after.localname.trans shape.localname,
        after.next.trans shape.next⟩
    · exact ⟨placed, parent, shape.children, shape.localname, shape.next⟩

/-- A move to a free name, not into the node itself. -/
theorem Links.setnameparent (links : Links nowhere s) (bounds : r < s.next ∧ p < s.next)
    (apart : ¬AtOrAbove s.parent r p) (free : ∀ k, k ≠ r → s.place k ≠ some (p, name)) :
    Links nowhere (s.setnameparent r (some p) (some name)) ∧
      (s.setnameparent r (some p) (some name)).place =
        Function.update s.place r (some (p, name)) ∧
      (s.setnameparent r (some p) (some name)).next = s.next := by
  have unlinked := unlinked_unlink links r
  have out := unlinked.links links
  rw [Forest.setnameparent]
  generalize decide (s.localname r = []) = newnode
  obtain ⟨renamed, parent, children, localname, next⟩ := out.rename name
  generalize (s.unlink r).rename r name = u at renamed parent children localname next
  have sameParent : u.parent = s.parent := parent.trans unlinked.parent
  obtain ⟨placed, parent', children', localname', next'⟩ := renamed.reparent newnode
    (sameParent ▸ apart) (by rwa [next, unlinked.next])
  generalize u.reparent r p newnode = v at placed parent' children' localname' next'
  have named : v.localname r = name := by rw [localname', localname, Function.update_self]
  have vacant : ∀ entry ∈ v.children p, entry.1 ≠ v.localname r := by
    intro entry member same
    rw [children', children, unlinked.children, mem_others] at member
    obtain ⟨listed, above⟩ := links.listed member.1
    exact free entry.2 member.2 (place_eq_some.mpr ⟨above, listed.symm.trans (same.trans named)⟩)
  have above : v.parent r = some p := by rw [parent', Function.update_self]
  have shape := treestate_shape (v.insertChild p (v.localname r) r) p .none
  refine ⟨(placed.insertChild above rfl vacant).of_shape shape, ?_, ?_⟩
  · rw [shape.place]
    refine place_update (parent'.trans (by rw [sameParent])) named fun k other _ => ?_
    change v.localname k = s.localname k
    rw [localname', localname, Function.update_of_ne other, unlinked.localname]
  · exact shape.next.trans (next'.trans (next.trans unlinked.next))

/-- A new node is not in a folder yet. -/
theorem Links.new (links : Links nowhere s) (name : Bytes) : Links (· = s.next) (s.new name) := by
  have fresh := new_fresh s name
  have child_old : ∀ {k entry}, entry ∈ s.children k → entry.2 ≠ s.next := fun member =>
    Nat.ne_of_lt (links.bound (links.listed member).2).1
  have edge_old : ∀ {k q}, (s.new name).parent k = some q → k ≠ s.next := by
    rintro k q edge rfl
    rw [fresh.1] at edge
    cases edge
  have member_old : ∀ {k entry}, entry ∈ (s.new name).children k →
      k ≠ s.next ∧ entry ∈ s.children k := by
    intro k entry member
    have old : k ≠ s.next := by
      rintro rfl
      rw [fresh.2.1] at member
      cases member
    rw [(new_old old name).2.1] at member
    exact ⟨old, member⟩
  refine ⟨links.acyclic.mono fun k q edge => ?_, ?bound, ?listed, ?linked,
    fun member => child_old (member_old member).2,
    fun first second => links.unique (member_old first).2 (member_old second).2⟩
  · rwa [(new_old (edge_old edge) name).1] at edge
  case bound =>
    intro k q edge
    rw [(new_old (edge_old edge) name).1] at edge
    have bounds := links.bound edge
    exact ⟨Nat.lt_succ_of_lt bounds.1, Nat.lt_succ_of_lt bounds.2⟩
  case listed =>
    intro k entry member
    have before := (member_old member).2
    have old := new_old (child_old before) name
    rw [old.1, old.2.2.1]
    exact links.listed before
  case linked =>
    intro k q other edge
    have old := new_old other name
    rw [old.1] at edge
    rw [old.2.2.1, (new_old (Nat.ne_of_lt (links.bound edge).2) name).2.1]
    exact links.linked id edge

theorem new_not_above (links : Links nowhere s) (known : p < s.next) :
    ¬AtOrAbove (s.new name).parent s.next p := by
  intro higher
  rcases Relation.ReflTransGen.cases_tail higher with same | ⟨c, -, edge⟩
  · exact Nat.ne_of_lt known same.symm
  · have edge : (s.new name).parent c = some s.next := edge
    by_cases here : c = s.next
    · rw [here, (new_fresh s name).1] at edge
      cases edge
    · rw [(new_old here name).1] at edge
      exact Nat.lt_irrefl _ (links.bound edge).2

/-- `init` with a free name. -/
theorem Links.init (links : Links nowhere s) (known : p < s.next)
    (free : ∀ k, s.place k ≠ some (p, name)) :
    Links nowhere (s.init (some p) name) ∧
      (s.init (some p) name).place = Function.update s.place s.next (some (p, name)) ∧
      (s.init (some p) name).next = s.next + 1 := by
  have placed : Links (· = s.next) ((s.new name).setParent s.next p) :=
    (links.new name).setParent (new_not_above links known)
      ⟨Nat.lt_succ_self _, Nat.lt_succ_of_lt known⟩
  have above : ((s.new name).setParent s.next p).parent s.next = some p := by
    rw [setParent_parent, if_pos rfl]
  have named : ((s.new name).setParent s.next p).localname s.next = name :=
    (new_fresh s name).2.2.1
  have vacant : ∀ entry ∈ ((s.new name).setParent s.next p).children p, entry.1 ≠ name := by
    intro entry member same
    have member : entry ∈ (s.new name).children p := member
    rw [(new_old (Nat.ne_of_lt known) name).2.1] at member
    obtain ⟨listed, up⟩ := links.listed member
    exact free entry.2 (place_eq_some.mpr ⟨up, listed.symm.trans same⟩)
  have shape := treestate_shape
    (((s.new name).setParent s.next p).insertChild p name s.next) p .none
  rw [init_child]
  refine ⟨(placed.insertChild above named vacant).of_shape shape, ?_, shape.next⟩
  rw [shape.place]
  refine place_update ?_ named fun k other _ => (new_old other name).2.2.1
  change Function.update (s.new name).parent s.next (some p) = _
  rw [Forest.new, Function.update_idem]

/-- A node that was deleted, or is below one, has no place any more. -/
theorem delete_place (links : Links nowhere s) (r k : LocalRef) :
    (AtOrAbove s.parent r k → (s.delete r).place k = none) ∧
      (¬AtOrAbove s.parent r k → (s.delete r).place k = s.place k) := by
  have unlinked := unlinked_unlink links r
  constructor
  · intro inside
    have gone : (s.delete r).parent k = none := if_pos (links.below_iff.mpr inside)
    rw [place, gone, Option.map_none]
  · intro outside
    have kept : (s.delete r).parent k = s.parent k :=
      (if_neg fun below => outside (links.below_iff.mp below)).trans (congrFun unlinked.parent k)
    exact place_congr kept fun _ => congrFun unlinked.localname k

theorem delete_leaf (links : Links nowhere s) (leaf : ∀ k, AtOrAbove s.parent r k → k = r) :
    (s.delete r).place = Function.update s.place r none := by
  funext k
  by_cases here : k = r
  · subst here
    rw [Function.update_self]
    exact (delete_place links k k).1 (atOrAbove_refl _ _)
  · rw [Function.update_of_ne here]
    exact (delete_place links r k).2 fun higher => here (leaf k higher)

end Places

end Forest

end MegaSdk.Sync.States
