import Mathlib.Logic.Relation
import Mathlib.Logic.Function.Basic
import Mathlib.Order.Basic
import Mathlib.Data.Finset.Card
import Mathlib.Data.Finset.Lattice.Fold

/-!
# Parent pointers and acyclic forests

A forest is given by one partial parent function. Acyclicity is a rank that
drops along every parent edge, so an upward walk with fuel above the rank of
its start never runs out. Walks stop at a root or at a chosen node.
-/

namespace ParentForest

universe u
variable {Node : Type u}

def Up (parent : Node → Option Node) (n p : Node) : Prop := parent n = some p

/-- `a` is `n` or one of its ancestors. -/
def AtOrAbove (parent : Node → Option Node) (a n : Node) : Prop :=
  Relation.ReflTransGen (Up parent) n a

/-- The parent relation has no cycle: some rank drops at every step up. -/
def Acyclic (parent : Node → Option Node) : Prop :=
  ∃ rank : Node → Nat, ∀ n p, parent n = some p → rank p < rank n

/-- Walk up until `stop` holds or a root is reached, and return the last node. -/
def climb (parent : Node → Option Node) (stop : Node → Bool) : Nat → Node → Node
  | 0, n => n
  | fuel + 1, n =>
    if stop n then n else
      match parent n with
      | none => n
      | some p => climb parent stop fuel p

/-- The same walk, abandoned with `none` as soon as it meets `bad`. -/
def climbAvoiding [DecidableEq Node] (parent : Node → Option Node) (stop : Node → Bool)
    (bad : Node) : Nat → Node → Option Node
  | 0, n => if n = bad then none else some n
  | fuel + 1, n =>
    if n = bad then none else
      if stop n then some n else
        match parent n with
        | none => some n
        | some p => climbAvoiding parent stop bad fuel p

theorem atOrAbove_refl (parent : Node → Option Node) (n : Node) : AtOrAbove parent n n :=
  Relation.ReflTransGen.refl

theorem atOrAbove_trans {parent : Node → Option Node} {a b c : Node}
    (hab : AtOrAbove parent a b) (hbc : AtOrAbove parent b c) : AtOrAbove parent a c :=
  Relation.ReflTransGen.trans hbc hab

theorem atOrAbove_of_parent {parent : Node → Option Node} {n p a : Node}
    (hp : parent n = some p) (ha : AtOrAbove parent a p) : AtOrAbove parent a n :=
  Relation.ReflTransGen.head hp ha

/-- An ancestor of a node with a parent is the node or an ancestor of the parent. -/
theorem atOrAbove_parent {parent : Node → Option Node} {n p a : Node}
    (hp : parent n = some p) (ha : AtOrAbove parent a n) : a = n ∨ AtOrAbove parent a p := by
  rcases Relation.ReflTransGen.cases_head ha with heq | ⟨q, hq, rest⟩
  · exact Or.inl heq.symm
  · have same : q = p := Option.some.inj (hq.symm.trans hp)
    exact Or.inr (same ▸ rest)

theorem atOrAbove_root {parent : Node → Option Node} {n a : Node}
    (hp : parent n = none) (ha : AtOrAbove parent a n) : a = n := by
  rcases Relation.ReflTransGen.cases_head ha with heq | ⟨q, hq, _⟩
  · exact heq.symm
  · change parent n = some q at hq
    rw [hp] at hq
    cases hq

theorem rank_le_of_atOrAbove {parent : Node → Option Node} {rank : Node → Nat}
    (drops : ∀ n p, parent n = some p → rank p < rank n) {a n : Node}
    (ha : AtOrAbove parent a n) : rank a ≤ rank n := by
  induction ha with
  | refl => exact Nat.le_refl _
  | tail _ step ih => exact Nat.le_trans (Nat.le_of_lt (drops _ _ step)) ih

/-- Ancestors of one node lie on one chain. -/
theorem atOrAbove_linear {parent : Node → Option Node} {a b n : Node}
    (ha : AtOrAbove parent a n) (hb : AtOrAbove parent b n) :
    AtOrAbove parent a b ∨ AtOrAbove parent b a := by
  induction ha using Relation.ReflTransGen.head_induction_on with
  | refl => exact Or.inr hb
  | head step _ ih =>
    rcases atOrAbove_parent step hb with heq | above
    · subst heq
      exact Or.inl (Relation.ReflTransGen.head step (by assumption))
    · exact ih above

theorem eq_of_atOrAbove_both {parent : Node → Option Node} (acyclic : Acyclic parent)
    {a b : Node} (hab : AtOrAbove parent a b) (hba : AtOrAbove parent b a) : a = b := by
  obtain ⟨rank, drops⟩ := acyclic
  rcases Relation.ReflTransGen.cases_head hab with heq | ⟨q, hq, rest⟩
  · exact heq.symm
  · have lower := drops _ _ hq
    have upper := rank_le_of_atOrAbove drops rest
    have back := rank_le_of_atOrAbove drops hba
    omega

/-- Fewer edges keep the forest. -/
theorem Acyclic.mono {parent fewer : Node → Option Node} (acyclic : Acyclic parent)
    (kept : ∀ n p, fewer n = some p → parent n = some p) : Acyclic fewer := by
  obtain ⟨rank, drops⟩ := acyclic
  exact ⟨rank, fun n p edge => drops n p (kept n p edge)⟩

/-- With finitely many parents the ranks are bounded by their number. -/
theorem Acyclic.bounded {parent : Node → Option Node} (acyclic : Acyclic parent)
    {parents : Finset Node} (finite : ∀ n p, parent n = some p → p ∈ parents) :
    ∃ rank : Node → Nat, (∀ n p, parent n = some p → rank p < rank n) ∧
      ∀ n, rank n ≤ parents.card := by
  obtain ⟨rank, drops⟩ := acyclic
  refine ⟨fun n => (parents.filter fun q => rank q < rank n).card, ?_, ?_⟩
  · intro n p edge
    have lower := drops n p edge
    refine Finset.card_lt_card ((Finset.ssubset_iff_of_subset ?_).mpr ⟨p, ?_, ?_⟩)
    · intro q mem
      rw [Finset.mem_filter] at mem ⊢
      exact ⟨mem.1, mem.2.trans lower⟩
    · exact Finset.mem_filter.mpr ⟨finite n p edge, lower⟩
    · exact fun mem => Nat.lt_irrefl _ (Finset.mem_filter.mp mem).2
  · exact fun n => Finset.card_filter_le _ _

/-- New nodes hung onto a forest, where the old links avoid the new nodes. -/
theorem Acyclic.graft {old new : Node → Option Node} (base : Acyclic old) (added : Acyclic new)
    {parents : Finset Node} (finite : ∀ n p, new n = some p → p ∈ parents)
    (apart : ∀ n p, old n = some p → new p = none) : Acyclic fun n => (new n).or (old n) := by
  obtain ⟨rank, drops⟩ := base
  obtain ⟨height, falls⟩ := added
  -- The new nodes rank above everything that one of them hangs on.
  refine ⟨fun n => if (new n).isSome then parents.sup rank + 1 + height n else rank n, ?_⟩
  intro n p edge
  dsimp only
  cases above : new n with
  | some q =>
    have same : q = p := by simpa [above] using edge
    subst same
    have lower := falls n q above
    have bound : rank q ≤ parents.sup rank := Finset.le_sup (finite n q above)
    rw [Option.isSome_some, if_pos rfl]
    split <;> omega
  | none =>
    have kept : old n = some p := by simpa [above] using edge
    rw [apart n p kept, Option.isSome_none, if_neg Bool.false_ne_true]
    exact drops n p kept

section Walks
variable {parent : Node → Option Node} (stop : Node → Bool)

/-- Nothing strictly below the end of a walk stops it. -/
theorem climb_spec {rank : Node → Nat} (drops : ∀ n p, parent n = some p → rank p < rank n)
    {fuel : Nat} {n : Node} (enough : rank n < fuel) :
    AtOrAbove parent (climb parent stop fuel n) n ∧
      (stop (climb parent stop fuel n) = true ∨ parent (climb parent stop fuel n) = none) ∧
      ∀ a, AtOrAbove parent a n → stop a = true →
        AtOrAbove parent a (climb parent stop fuel n) := by
  induction fuel generalizing n with
  | zero => omega
  | succ fuel ih =>
    rw [climb]
    by_cases hs : stop n = true
    · rw [if_pos hs]
      exact ⟨atOrAbove_refl _ _, Or.inl hs, fun a ha _ => ha⟩
    · rw [if_neg hs]
      cases hp : parent n with
      | none => exact ⟨atOrAbove_refl _ _, Or.inr hp, fun a ha _ => ha⟩
      | some p =>
        obtain ⟨above, ended, first⟩ := ih (n := p) (by have := drops n p hp; omega)
        refine ⟨atOrAbove_of_parent hp above, ended, ?_⟩
        intro a ha stops
        rcases atOrAbove_parent hp ha with heq | ha
        · subst heq
          exact absurd stops hs
        · exact first a ha stops

/-- The abandoned walk is the plain one unless it meets `bad` on its way. -/
theorem climbAvoiding_eq [DecidableEq Node] {rank : Node → Nat}
    (drops : ∀ n p, parent n = some p → rank p < rank n)
    (bad : Node) {fuel : Nat} {n : Node} (enough : rank n < fuel) :
    (climbAvoiding parent stop bad fuel n = none ∧ AtOrAbove parent bad n ∧
        AtOrAbove parent (climb parent stop fuel n) bad) ∨
      (climbAvoiding parent stop bad fuel n = some (climb parent stop fuel n) ∧
        (AtOrAbove parent bad n →
          AtOrAbove parent bad (climb parent stop fuel n) ∧ climb parent stop fuel n ≠ bad)) := by
  induction fuel generalizing n with
  | zero => omega
  | succ fuel ih =>
    rw [climb, climbAvoiding]
    by_cases hb : n = bad
    · subst hb
      left
      rw [if_pos rfl]
      refine ⟨rfl, atOrAbove_refl _ _, ?_⟩
      have whole := (climb_spec stop drops enough).1
      rwa [climb] at whole
    · rw [if_neg hb]
      by_cases hs : stop n = true
      · rw [if_pos hs, if_pos hs]
        exact Or.inr ⟨rfl, fun above => ⟨above, hb⟩⟩
      · rw [if_neg hs, if_neg hs]
        cases hp : parent n with
        | none => exact Or.inr ⟨rfl, fun above => ⟨above, hb⟩⟩
        | some p =>
          rcases ih (n := p) (by have := drops n p hp; omega) with met | passed
          · exact Or.inl ⟨met.1, atOrAbove_of_parent hp met.2.1, met.2.2⟩
          · refine Or.inr ⟨passed.1, fun above => ?_⟩
            rcases atOrAbove_parent hp above with heq | above
            · exact absurd heq.symm hb
            · exact passed.2 above

end Walks

section Reparent
variable [DecidableEq Node]

/-- Once a node is moved below itself, nothing below it has a root any more. -/
theorem exists_parent_update {parent : Node → Option Node} {n p : Node}
    (below : AtOrAbove parent n p) {b : Node} (under : AtOrAbove parent n b) :
    ∃ q, Function.update parent n (some p) b = some q ∧ AtOrAbove parent n q := by
  by_cases same : b = n
  · subst same
    exact ⟨p, Function.update_self _ _ _, below⟩
  · rcases Relation.ReflTransGen.cases_head under with heq | ⟨q, step, rest⟩
    · exact absurd heq same
    · exact ⟨q, (Function.update_of_ne same _ _).trans step, rest⟩

/-- Moving a node below itself or below one of its descendants closes a cycle. -/
theorem not_acyclic_update {parent : Node → Option Node} {n p : Node}
    (below : AtOrAbove parent n p) : ¬ Acyclic (Function.update parent n (some p)) := by
  rintro ⟨rank, drops⟩
  -- Above a descendant of `n` the walk keeps its old edges until it arrives at `n`.
  have rises : ∀ b, AtOrAbove parent n b → rank n ≤ rank b := by
    intro b hb
    induction hb using Relation.ReflTransGen.head_induction_on with
    | refl => exact Nat.le_refl _
    | @head b c step _ ih =>
      by_cases heq : b = n
      · exact Nat.le_of_eq (congrArg rank heq.symm)
      · have kept := drops b c (by rw [Function.update_of_ne heq]; exact step)
        omega
  have edge := drops n p (by simp)
  have := rises p below
  omega

/-- A walk that does not meet a node is the same after this node has moved. -/
theorem atOrAbove_update {parent : Node → Option Node} {n p a : Node} (target : Option Node)
    (apart : ¬AtOrAbove parent n p) (above : AtOrAbove parent a p) :
    AtOrAbove (Function.update parent n target) a p := by
  induction above with
  | refl => exact Relation.ReflTransGen.refl
  | @tail b c walked step ih =>
    have other : b ≠ n := fun same => apart (same ▸ walked)
    exact ih.tail ((Function.update_of_ne other _ _).trans step)

/-- Moving a node anywhere else keeps the forest: its subtree is lifted above
the rank of the new parent. -/
theorem acyclic_update {parent : Node → Option Node} (acyclic : Acyclic parent) {n p : Node}
    (apart : ¬ AtOrAbove parent n p) : Acyclic (Function.update parent n (some p)) := by
  classical
  obtain ⟨rank, drops⟩ := acyclic
  refine ⟨fun m => if AtOrAbove parent n m then rank m + rank p + 1 else rank m, ?_⟩
  intro m q hq
  dsimp only
  by_cases hm : m = n
  · subst hm
    have same : p = q := Option.some.inj (by simpa using hq)
    subst same
    rw [if_pos (atOrAbove_refl _ _), if_neg apart]
    omega
  · rw [Function.update_of_ne hm] at hq
    have lower := drops m q hq
    by_cases below : AtOrAbove parent n m
    · have belowParent : AtOrAbove parent n q := by
        rcases atOrAbove_parent hq below with heq | above
        · exact absurd heq.symm hm
        · exact above
      rw [if_pos below, if_pos belowParent]
      omega
    · rw [if_neg below, if_neg (fun above => below (atOrAbove_of_parent hq above))]
      exact lower

theorem acyclic_update_iff {parent : Node → Option Node} (acyclic : Acyclic parent) (n p : Node) :
    Acyclic (Function.update parent n (some p)) ↔ ¬ AtOrAbove parent n p :=
  ⟨fun kept below => not_acyclic_update below kept, acyclic_update acyclic⟩

end Reparent

end ParentForest
