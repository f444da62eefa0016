import MegaSdk.Tree.Heap
import MegaSdk.Crypto.SymmCipher
import MegaSdk.Lib.ParentForest

/-!
# Nodes, share keys and ancestry

The part of a `Node` that key requests and key distribution read: its keys, its
type, and its place in the tree. A tree carries a depth that drops at every step
up, so a walk over the parents ends.
-/

namespace MegaSdk.Nodes

open Crypto ParentForest MegaSdk.Tree

/-- `FILENODEKEYLENGTH` and `FOLDERNODEKEYLENGTH`. -/
def keyLength (type : NodeType) : Nat := if type = fileNode then 32 else 16

/-- The keys of a node. A node key has the length that `setkey` gives it, or is missing. -/
structure NodeKeys where
  nodehandle : UInt64
  type : NodeType
  inshare : Bool
  sharekey : Option Block
  nodekey : Bytes
  sized : nodekey = [] ∨ nodekey.length = keyLength type

/-- `ProcessData` of a block cipher on whole blocks. -/
def ecbBlocks (cipher : Block → Block) : Nat → Bytes → Bytes
  | 0, _ => []
  | blocks + 1, data =>
    (cipher (load data)).toList ++ ecbBlocks cipher blocks (data.drop blockSize)

/-- `ecb_encrypt` or `ecb_decrypt` of a buffer. -/
def ecbData (cipher : Block → Block) (data : Bytes) : Bytes :=
  ecbBlocks cipher (data.length / blockSize) data

theorem length_ecbBlocks (cipher : Block → Block) (blocks : Nat) (data : Bytes) :
    (ecbBlocks cipher blocks data).length = blocks * blockSize := by
  induction blocks generalizing data with
  | zero => simp [ecbBlocks]
  | succ blocks ih =>
    rw [ecbBlocks, List.length_append, ih, Vector.length_toList, Nat.succ_mul, Nat.add_comm]
    rfl

structure KeyTree where
  keys : Ref → NodeKeys
  parent : Ref → Option Ref
  depth : Ref → Nat
  drops : ∀ n p, parent n = some p → depth p < depth n

namespace KeyTree
variable (t : KeyTree)

/-- The walk of `isbelow`. -/
def isbelowFrom (p : Ref) : Nat → Ref → Bool
  | 0, _ => false
  | fuel + 1, n =>
    if n = p then true
    else
      match t.parent n with
      | none => false
      | some above => isbelowFrom p fuel above

def isbelow (n p : Ref) : Bool := t.isbelowFrom p (t.depth n + 1) n

theorem isbelowFrom_iff {p n : Ref} {fuel : Nat} (enough : t.depth n < fuel) :
    t.isbelowFrom p fuel n = true ↔ AtOrAbove t.parent p n := by
  induction fuel generalizing n with
  | zero => exact absurd enough (Nat.not_lt_zero _)
  | succ fuel ih =>
    rw [isbelowFrom]
    by_cases here : n = p
    · subst here
      simp [atOrAbove_refl]
    · rw [if_neg here]
      cases up : t.parent n with
      | none =>
        refine iff_of_false Bool.false_ne_true fun above => ?_
        exact here (atOrAbove_root up above).symm
      | some q =>
        have lower := t.drops n q up
        refine (ih (by omega)).trans ⟨atOrAbove_of_parent up, fun above => ?_⟩
        exact (atOrAbove_parent up above).resolve_left fun same => here same.symm

/-- `isbelow` tells whether `p` is the node or one of its ancestors. -/
theorem isbelow_iff {n p : Ref} : t.isbelow n p = true ↔ AtOrAbove t.parent p n :=
  t.isbelowFrom_iff (Nat.lt_succ_self _)

end KeyTree

end MegaSdk.Nodes
