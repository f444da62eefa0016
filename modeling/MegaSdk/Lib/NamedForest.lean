import MegaSdk.Lib.ParentForest
import Mathlib.Data.List.Induction

/-!
# Forests of named nodes

Every node but the roots has a place: a parent, and a name among its children. A path of names
leads from a node down to another one.
-/

namespace NamedForest

open ParentForest

universe u v
variable {Node : Type u} {Name : Type v}

def parentOf (place : Node → Option (Node × Name)) (n : Node) : Option Node :=
  (place n).map Prod.fst

/-- The names of the path are those of the nodes on the way from `top` to `n`. -/
def Leads (place : Node → Option (Node × Name)) : Node → List Name → Node → Prop
  | top, [], n => top = n
  | top, name :: rest, n => ∃ child, place child = some (top, name) ∧ Leads place child rest n

/-- No two children of a node have the same name. -/
def Injective (place : Node → Option (Node × Name)) : Prop :=
  ∀ {n m q}, place n = some q → place m = some q → n = m

section Paths
variable {place after : Node → Option (Node × Name)} {top n m p : Node} {path other : List Name}
  {name : Name}

theorem parentOf_of_place (here : place n = some (p, name)) : parentOf place n = some p := by
  rw [parentOf, here, Option.map_some]

theorem place_of_parentOf (above : parentOf place n = some p) :
    ∃ name, place n = some (p, name) := by
  obtain ⟨q, here, rfl⟩ := Option.map_eq_some_iff.mp above
  exact ⟨q.2, here⟩

theorem parentOf_update [DecidableEq Node] (place : Node → Option (Node × Name)) (n p : Node)
    (name : Name) : parentOf (Function.update place n (some (p, name))) =
      Function.update (parentOf place) n (some p) := by
  funext m
  by_cases here : m = n
  · rw [parentOf, here, Function.update_self, Function.update_self, Option.map_some]
  · rw [parentOf, Function.update_of_ne here, Function.update_of_ne here, parentOf]

theorem leads_append : Leads place top (path ++ other) n ↔
    ∃ m, Leads place top path m ∧ Leads place m other n := by
  induction path generalizing top with
  | nil =>
    constructor
    · intro leads
      exact ⟨top, rfl, leads⟩
    · rintro ⟨m, rfl, leads⟩
      exact leads
  | cons first rest ih =>
    constructor
    · rintro ⟨child, here, leads⟩
      obtain ⟨m, upper, lower⟩ := ih.mp leads
      exact ⟨m, ⟨child, here, upper⟩, lower⟩
    · rintro ⟨m, ⟨child, here, upper⟩, lower⟩
      exact ⟨child, here, ih.mpr ⟨m, upper, lower⟩⟩

theorem leads_snoc : Leads place top (path ++ [name]) n ↔
    ∃ p, Leads place top path p ∧ place n = some (p, name) := by
  rw [leads_append]
  constructor
  · rintro ⟨p, leads, child, here, same⟩
    have same : child = n := same
    exact ⟨p, leads, same ▸ here⟩
  · rintro ⟨p, leads, here⟩
    exact ⟨p, leads, n, here, rfl⟩

theorem Leads.live (leads : Leads place top path n) (inner : n ≠ top) : (place n).isSome := by
  rcases List.eq_nil_or_concat path with rfl | ⟨upper, last, rfl⟩
  · exact absurd (Eq.symm leads) inner
  · rw [List.concat_eq_append, leads_snoc] at leads
    obtain ⟨p, -, here⟩ := leads
    rw [here]
    rfl

/-- A path leads to one node only. -/
theorem Leads.unique (injective : Injective place) (leads : Leads place top path n)
    (again : Leads place top path m) : n = m := by
  induction path generalizing top with
  | nil => exact Eq.trans (Eq.symm leads) again
  | cons first rest ih =>
    obtain ⟨child, here, leads⟩ := leads
    obtain ⟨child', here', again⟩ := again
    obtain rfl := injective here here'
    exact ih leads again

/-- Only one path leads from a root to a node. -/
theorem Leads.path_unique (root : place top = none) (leads : Leads place top path n)
    (again : Leads place top other n) : path = other := by
  induction path using List.reverseRecOn generalizing n other with
  | nil =>
    obtain rfl : top = n := leads
    rcases List.eq_nil_or_concat other with rfl | ⟨rest, last, rfl⟩
    · rfl
    · rw [List.concat_eq_append, leads_snoc] at again
      obtain ⟨p, -, here⟩ := again
      rw [root] at here
      cases here
  | append_singleton path name ih =>
    obtain ⟨p, leads, here⟩ := leads_snoc.mp leads
    rcases List.eq_nil_or_concat other with rfl | ⟨rest, last, rfl⟩
    · obtain rfl : top = n := again
      rw [root] at here
      cases here
    · rw [List.concat_eq_append, leads_snoc] at again
      obtain ⟨p', again, here'⟩ := again
      obtain ⟨rfl, rfl⟩ := Prod.mk.inj (Option.some.inj (here.symm.trans here'))
      rw [List.concat_eq_append, ih leads again]

theorem Leads.above (leads : Leads place top path n) : AtOrAbove (parentOf place) top n := by
  induction path using List.reverseRecOn generalizing n with
  | nil =>
    obtain rfl : top = n := leads
    exact atOrAbove_refl _ _
  | append_singleton path name ih =>
    obtain ⟨p, leads, here⟩ := leads_snoc.mp leads
    exact atOrAbove_of_parent (parentOf_of_place here) (ih leads)

/-- A path is as before where no node on it has moved. -/
theorem Leads.congr (leads : Leads place top path n)
    (same : ∀ m, AtOrAbove (parentOf place) m n → after m = place m) :
    Leads after top path n := by
  induction path using List.reverseRecOn generalizing n with
  | nil => exact leads
  | append_singleton path name ih =>
    obtain ⟨p, leads, here⟩ := leads_snoc.mp leads
    refine leads_snoc.mpr ⟨p, ih leads fun m above => same m ?_, ?_⟩
    · exact atOrAbove_of_parent (parentOf_of_place here) above
    · exact (same n (atOrAbove_refl _ _)).trans here

/-- Removing links adds no ancestors. -/
theorem atOrAbove_mono {parent fewer : Node → Option Node} (higher : AtOrAbove fewer m n)
    (kept : ∀ a b, fewer a = some b → parent a = some b) : AtOrAbove parent m n := by
  induction higher with
  | refl => exact atOrAbove_refl _ _
  | tail _ edge ih => exact Relation.ReflTransGen.tail ih (kept _ _ edge)

/-- Removing nodes adds no paths. -/
theorem Leads.mono (leads : Leads after top path n)
    (fewer : ∀ m q, after m = some q → place m = some q) : Leads place top path n := by
  induction path generalizing top with
  | nil => exact leads
  | cons first rest ih =>
    obtain ⟨child, here, leads⟩ := leads
    exact ⟨child, fewer child _ here, ih leads⟩

end Paths

end NamedForest
