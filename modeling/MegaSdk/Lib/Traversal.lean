import MegaSdk.Lib.ParentForest
import Mathlib.Data.List.Nodup

/-!
# Traversals of a forest

The way up from a node, and the nodes below it with the children in front of their parent.
`children` may leave out children that a traversal does not go to.
-/

namespace ParentForest

universe u
variable {Node : Type u}

def upward (parent : Node → Option Node) : Nat → Node → List Node
  | 0, _ => []
  | fuel + 1, n =>
    n :: match parent n with
      | none => []
      | some p => upward parent fuel p

def postorder (children : Node → List Node) : Nat → Node → List Node
  | 0, _ => []
  | fuel + 1, n => (children n).flatMap (postorder children fuel) ++ [n]

def Down (children : Node → List Node) (n c : Node) : Prop := c ∈ children n

/-- `m` is `n` or a node that a traversal from `n` gets to. -/
def Reached (children : Node → List Node) (n m : Node) : Prop :=
  Relation.ReflTransGen (Down children) n m

section Upward
variable {parent : Node → Option Node} {rank : Node → Nat}
  (drops : ∀ n p, parent n = some p → rank p < rank n)
include drops

theorem mem_upward_iff {fuel : Nat} {a n : Node} (enough : rank n < fuel) :
    a ∈ upward parent fuel n ↔ AtOrAbove parent a n := by
  induction fuel generalizing n with
  | zero => exact absurd enough (Nat.not_lt_zero _)
  | succ fuel ih =>
    rw [upward, List.mem_cons]
    cases above : parent n with
    | none =>
      constructor
      · rintro (rfl | absent)
        · exact atOrAbove_refl _ _
        · exact absurd absent List.not_mem_nil
      · exact fun up => Or.inl (atOrAbove_root above up)
    | some p =>
      have lower := drops n p above
      dsimp only
      rw [ih (by omega)]
      constructor
      · rintro (rfl | up)
        · exact atOrAbove_refl _ _
        · exact atOrAbove_of_parent above up
      · exact atOrAbove_parent above

theorem nodup_upward {fuel : Nat} {n : Node} (enough : rank n < fuel) :
    (upward parent fuel n).Nodup := by
  induction fuel generalizing n with
  | zero => exact List.nodup_nil
  | succ fuel ih =>
    rw [upward]
    cases above : parent n with
    | none => exact List.nodup_singleton n
    | some p =>
      have lower := drops n p above
      have enoughAbove : rank p < fuel := by omega
      refine List.nodup_cons.mpr ⟨fun again => ?_, ih enoughAbove⟩
      -- A node that comes again would be above itself.
      have cycle := rank_le_of_atOrAbove drops ((mem_upward_iff drops enoughAbove).mp again)
      omega

end Upward

section Downward
variable {parent : Node → Option Node} {children : Node → List Node}
  (linked : ∀ n c, c ∈ children n → parent c = some n)
include linked

theorem atOrAbove_of_reached {n m : Node} (reached : Reached children n m) :
    AtOrAbove parent n m := by
  induction reached with
  | refl => exact atOrAbove_refl _ _
  | tail _ step ih => exact atOrAbove_of_parent (linked _ _ step) ih

variable {rank : Node → Nat} (drops : ∀ n p, parent n = some p → rank p < rank n)
include drops

/-- Two children of one node have nothing below them in common. -/
theorem child_eq_of_reached {n c d m : Node} (first : c ∈ children n) (second : d ∈ children n)
    (below : Reached children c m) (other : Reached children d m) : c = d := by
  have aside : ∀ x ∈ children n, ∀ y ∈ children n, AtOrAbove parent x y → x = y := by
    intro x memX y memY above
    rcases atOrAbove_parent (linked n y memY) above with same | up
    · exact same
    · have lower := drops x n (linked n x memX)
      have upper := rank_le_of_atOrAbove drops up
      omega
  rcases atOrAbove_linear (atOrAbove_of_reached linked below) (atOrAbove_of_reached linked other)
    with above | above
  · exact aside c first d second above
  · exact (aside d second c first above).symm

variable {bound : Nat} (bounded : ∀ n, rank n ≤ bound)
include bounded

/-- Down a forest the ranks rise to the bound. -/
theorem mem_postorder_iff {fuel : Nat} {n m : Node} (enough : bound < rank n + fuel) :
    m ∈ postorder children fuel n ↔ Reached children n m := by
  induction fuel generalizing n with
  | zero =>
    have := bounded n
    omega
  | succ fuel ih =>
    have below : ∀ c ∈ children n, bound < rank c + fuel := by
      intro c mem
      have lower := drops c n (linked n c mem)
      omega
    rw [postorder, List.mem_append, List.mem_flatMap, List.mem_singleton]
    constructor
    · rintro (⟨c, mem, visited⟩ | rfl)
      · exact Relation.ReflTransGen.head mem ((ih (below c mem)).mp visited)
      · exact Relation.ReflTransGen.refl
    · intro reached
      rcases Relation.ReflTransGen.cases_head reached with same | ⟨c, mem, rest⟩
      · exact Or.inr same.symm
      · exact Or.inl ⟨c, mem, (ih (below c mem)).mpr rest⟩

/-- Every node is visited once. -/
theorem nodup_postorder (once : ∀ n, (children n).Nodup) {fuel : Nat} {n : Node}
    (enough : bound < rank n + fuel) : (postorder children fuel n).Nodup := by
  induction fuel generalizing n with
  | zero => exact List.nodup_nil
  | succ fuel ih =>
    have below : ∀ c ∈ children n, bound < rank c + fuel := by
      intro c mem
      have lower := drops c n (linked n c mem)
      omega
    have reached : ∀ c ∈ children n, ∀ m ∈ postorder children fuel c, Reached children c m :=
      fun c mem m => (mem_postorder_iff linked drops bounded (below c mem)).mp
    rw [postorder]
    refine List.nodup_append.mpr ⟨List.nodup_flatMap.mpr ⟨?_, ?_⟩, List.nodup_singleton n, ?_⟩
    · exact fun c mem => ih (below c mem)
    · refine (once n).imp_of_mem fun {c d} memC memD apart => ?_
      intro m inC inD
      exact apart (child_eq_of_reached linked drops memC memD (reached c memC m inC)
        (reached d memD m inD))
    · rintro m visited last mem rfl
      obtain ⟨c, memC, inC⟩ := List.mem_flatMap.mp visited
      -- The node itself is not below one of its children.
      have above := rank_le_of_atOrAbove drops (atOrAbove_of_reached linked (reached c memC m inC))
      rw [List.mem_singleton.mp mem] at above
      have lower := drops c n (linked n c memC)
      omega

end Downward

end ParentForest
