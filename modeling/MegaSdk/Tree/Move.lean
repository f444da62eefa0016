import MegaSdk.Types
import MegaSdk.Lib.ParentForest

/-!
# Permission checks and moves in the node tree

`checkmove` and `rename` of megaclient.cpp over the parent pointers and inbound
shares of the nodes. The upward walk of the circularity test ends at the first
inbound share, so it can miss the moved node; the exact inputs on which it does
are determined below.
-/

namespace MegaSdk.Tree

open ParentForest

universe u v
variable {Ref : Type u} {User : Type v}

structure Share (User : Type v) where
  user : User
  access : AccessLevel

/-- The tree part of a `Node`; `Ref` stands for node pointers. -/
structure Node (Ref : Type u) (User : Type v) where
  type : NodeType
  parent : Option Ref
  children : List Ref
  inshare : Option (Share User)

/-- An acyclic node forest with the login state that access checks consult. -/
structure Forest (Ref : Type u) (User : Type v) where
  node : Ref → Node Ref User
  loggedIn : Bool
  rank : Ref → Nat
  drops : ∀ n p, (node n).parent = some p → rank p < rank n

namespace Forest
variable (F : Forest Ref User)

def parent (n : Ref) : Option Ref := (F.node n).parent

/-- Upward walks end at an inbound share or at a top-level node. -/
def shared (n : Ref) : Bool := (F.node n).inshare.isSome

theorem rank_drops (n p : Ref) (hp : F.parent n = some p) : F.rank p < F.rank n := F.drops n p hp

theorem acyclic : Acyclic F.parent := ⟨F.rank, F.rank_drops⟩

/-- Trace back to a share node or to a root node (always full access). -/
def traceAccess (a : AccessLevel) (n : Ref) : Bool :=
  let top := climb F.parent F.shared (F.rank n + 1) n
  match (F.node top).inshare with
  | some s => s.access ≥ a
  | none => (F.node top).type > folderNode

/-- `checkaccess`: folder link access is read-only, otherwise the trace decides. -/
def checkAccess (n : Ref) (a : AccessLevel) : Bool :=
  if a < ownerPreLogin ∧ F.loggedIn = false then a = rdOnly else F.traceAccess a n

variable [DecidableEq Ref] [DecidableEq User]

/-- Condition #5: same ultimate parent, own trees, or shares of one user. -/
def sameTree (fn tn : Ref) : ApiError :=
  if fn = tn ∨ ((F.node fn).inshare.isNone ∧ (F.node tn).inshare.isNone) then .ok
  else
    match (F.node fn).inshare, (F.node tn).inshare with
    | some f, some t => if f.user = t.user then .ok else .access
    | _, _ => .access

/-- `checkmove`: conditions #1 to #5 in the source's order. -/
def checkMove (fn tn : Ref) : ApiError :=
  match F.parent fn with
  | none => .access
  | some p =>
    if F.checkAccess p full = false then .access
    else if (F.node tn).type = fileNode then .access
    else if F.checkAccess tn rdWr = false then .access
    else
      match climbAvoiding F.parent F.shared fn (F.rank tn + 1) tn with
      | none => .circular
      | some top => F.sameTree (climb F.parent F.shared (F.rank fn + 1) fn) top

/-- `Node::setparent` on the links; returns whether the node was moved. -/
def setParent (n p : Ref) : Bool × (Ref → Node Ref User) :=
  if F.parent n = some p then (false, F.node)
  else
    let unlinked : Ref → Node Ref User :=
      match F.parent n with
      | none => F.node
      | some q => Function.update F.node q
          { F.node q with children := (F.node q).children.erase n }
    let moved := Function.update unlinked n { unlinked n with parent := some p }
    (true, Function.update moved p { moved p with children := (moved p).children ++ [n] })

/-- `rename`: the links after a permitted move, unchanged links after a refused one. -/
def rename (n p : Ref) : ApiError × (Ref → Node Ref User) :=
  match F.checkMove n p with
  | .ok => (.ok, (F.setParent n p).2)
  | e => (e, F.node)

omit [DecidableEq User] in
theorem setParent_parent (n p : Ref) :
    (fun m => ((F.setParent n p).2 m).parent) = Function.update F.parent n (some p) := by
  funext m
  rw [setParent]
  split
  · rename_i same
    by_cases hm : m = n
    · subst hm
      simpa [parent] using same
    · rw [Function.update_of_ne hm]
      rfl
  · cases hq : F.parent n with
    | none =>
      by_cases hm : m = n <;> by_cases hp : m = p <;> simp_all [Function.update, parent]
    | some q =>
      by_cases hm : m = n <;> by_cases hp : m = p <;> by_cases hmq : m = q <;>
        simp_all [Function.update, parent]

/-- Where the share walk of `n` ends: an inbound share or a root, below every
other inbound share above `n`. -/
def top (n : Ref) : Ref := climb F.parent F.shared (F.rank n + 1) n

omit [DecidableEq Ref] [DecidableEq User] in
theorem top_spec (n : Ref) :
    AtOrAbove F.parent (F.top n) n ∧
      (F.shared (F.top n) = true ∨ F.parent (F.top n) = none) ∧
      ∀ a, AtOrAbove F.parent a n → F.shared a = true → AtOrAbove F.parent a (F.top n) :=
  climb_spec F.shared F.rank_drops (Nat.lt_succ_self _)

/-- `s` is the first inbound share met on the way up from `n`, from `user`. -/
def NearestShare (n s : Ref) (user : User) : Prop :=
  AtOrAbove F.parent s n ∧ (∃ share, (F.node s).inshare = some share ∧ share.user = user) ∧
    ∀ a, AtOrAbove F.parent a n → F.shared a = true → AtOrAbove F.parent a s

omit [DecidableEq Ref] [DecidableEq User] in
theorem nearestShare_eq_top {n s : Ref} {user : User} (near : F.NearestShare n s user) :
    s = F.top n := by
  obtain ⟨above, ⟨share, hs, _⟩, first⟩ := near
  have shares : F.shared s = true := by simp [shared, hs]
  obtain ⟨topAbove, ended, topFirst⟩ := F.top_spec n
  have low := topFirst s above shares
  rcases ended with topShared | root
  · exact eq_of_atOrAbove_both F.acyclic low (first _ topAbove topShared)
  · exact atOrAbove_root root low

omit [DecidableEq Ref] [DecidableEq User] in
theorem nearestShare_top {n : Ref} {share : Share User}
    (hs : (F.node (F.top n)).inshare = some share) : F.NearestShare n (F.top n) share.user :=
  ⟨(F.top_spec n).1, ⟨share, hs, rfl⟩, (F.top_spec n).2.2⟩

def Allowed (fn tn : Ref) : Prop :=
  (∃ p, F.parent fn = some p ∧ F.checkAccess p full = true) ∧
    (F.node tn).type ≠ fileNode ∧ F.checkAccess tn rdWr = true

/-- An inbound share lies between `tn` and `fn`, and it comes from the same user
as the inbound share that `fn` itself belongs to. -/
def NestedShare (fn tn : Ref) : Prop :=
  ∃ s q user, AtOrAbove F.parent fn s ∧ s ≠ fn ∧
    F.NearestShare tn s user ∧ F.NearestShare fn q user

/-- What a permitted move promises: `tn` is not `fn` or below it, and the moved
tree is a forest again. -/
def MoveSafe (fn tn : Ref) : Prop :=
  F.checkMove fn tn = .ok →
    ¬ AtOrAbove F.parent fn tn ∧ Acyclic (fun m => ((F.rename fn tn).2 m).parent)

theorem sameTree_ok_iff (fn tn : Ref) :
    F.sameTree fn tn = .ok ↔
      fn = tn ∨ ((F.node fn).inshare = none ∧ (F.node tn).inshare = none) ∨
        ∃ f t, (F.node fn).inshare = some f ∧ (F.node tn).inshare = some t ∧ f.user = t.user := by
  rw [sameTree]
  split
  · rename_i same
    simp only [Option.isNone_iff_eq_none] at same
    exact ⟨fun _ => same.imp_right Or.inl, fun _ => rfl⟩
  · rename_i differ
    simp only [Option.isNone_iff_eq_none, not_or] at differ
    cases hf : (F.node fn).inshare <;> cases ht : (F.node tn).inshare <;> simp_all

theorem checkMove_ok_iff (fn tn : Ref) :
    F.checkMove fn tn = .ok ↔
      F.Allowed fn tn ∧
        climbAvoiding F.parent F.shared fn (F.rank tn + 1) tn = some (F.top tn) ∧
        F.sameTree (F.top fn) (F.top tn) = .ok := by
  have walk := climbAvoiding_eq F.shared F.rank_drops fn (Nat.lt_succ_self (F.rank tn))
  rw [checkMove, Allowed]
  cases hp : F.parent fn with
  | none => simp
  | some p =>
    by_cases hfull : F.checkAccess p full = true
    · by_cases hfile : (F.node tn).type = fileNode
      · simp [hfull, hfile]
      · by_cases hwrite : F.checkAccess tn rdWr = true
        · rcases walk with ⟨met, _⟩ | ⟨passed, _⟩
          · simp [hfull, hfile, hwrite, met]
          · simp [hfull, hfile, hwrite, passed, top]
        · simp [hfull, hfile, hwrite]
    · simp [hfull]

omit [DecidableEq User] in
/-- A walk from below `fn` misses `fn` exactly when it ends strictly below it. -/
theorem walk_passes_iff {fn tn : Ref} (below : AtOrAbove F.parent fn tn) :
    climbAvoiding F.parent F.shared fn (F.rank tn + 1) tn = some (F.top tn) ↔
      AtOrAbove F.parent fn (F.top tn) ∧ F.top tn ≠ fn := by
  rcases climbAvoiding_eq F.shared F.rank_drops fn (Nat.lt_succ_self (F.rank tn))
    with ⟨met, _, topAbove⟩ | ⟨passed, free⟩
  · rw [met]
    constructor
    · intro impossible
      cases impossible
    · rintro ⟨above, apart⟩
      exact absurd (eq_of_atOrAbove_both F.acyclic topAbove above) apart
  · exact ⟨fun _ => free below, fun _ => passed⟩

omit [DecidableEq Ref] [DecidableEq User] in
/-- A walk that ends strictly below another node ends at an inbound share. -/
theorem shared_top_of_below {fn tn : Ref} (above : AtOrAbove F.parent fn (F.top tn))
    (apart : F.top tn ≠ fn) : ∃ share, (F.node (F.top tn)).inshare = some share := by
  rcases (F.top_spec tn).2.1 with shares | root
  · exact Option.isSome_iff_exists.mp shares
  · exact absurd (atOrAbove_root root above).symm apart

/-- Below `fn` the check accepts exactly the moves across a nested share. -/
theorem checkMove_below_iff {fn tn : Ref} (below : AtOrAbove F.parent fn tn) :
    F.checkMove fn tn = .ok ↔ F.Allowed fn tn ∧ F.NestedShare fn tn := by
  rw [checkMove_ok_iff, walk_passes_iff F below, sameTree_ok_iff]
  constructor
  · rintro ⟨allowed, ⟨above, apart⟩, same⟩
    refine ⟨allowed, ?_⟩
    obtain ⟨share, hs⟩ := F.shared_top_of_below above apart
    rcases same with heq | ⟨_, hn⟩ | ⟨f, t, hf, ht, user⟩
    · have topAbove : AtOrAbove F.parent (F.top tn) fn := heq ▸ (F.top_spec fn).1
      exact absurd (eq_of_atOrAbove_both F.acyclic topAbove above) apart
    · rw [hs] at hn
      cases hn
    · refine ⟨F.top tn, F.top fn, t.user, above, apart, F.nearestShare_top ht, ?_⟩
      exact user ▸ F.nearestShare_top hf
  · rintro ⟨allowed, s, q, user, above, apart, nearT, nearF⟩
    have hs := F.nearestShare_eq_top nearT
    have hq := F.nearestShare_eq_top nearF
    subst hs
    subst hq
    obtain ⟨_, ⟨t, ht, hut⟩, _⟩ := nearT
    obtain ⟨_, ⟨f, hf, huf⟩, _⟩ := nearF
    exact ⟨allowed, ⟨above, apart⟩, Or.inr (Or.inr ⟨f, t, hf, ht, huf.trans hut.symm⟩)⟩

theorem rename_ok_parent {fn tn : Ref} (ok : F.checkMove fn tn = .ok) :
    (fun m => ((F.rename fn tn).2 m).parent) = Function.update F.parent fn (some tn) := by
  rw [rename, ok]
  exact F.setParent_parent fn tn

/-- A permitted move keeps the forest unless it crosses a nested share of the
same user on its way down. -/
theorem moveSafe_iff (fn tn : Ref) :
    F.MoveSafe fn tn ↔
      ¬ (AtOrAbove F.parent fn tn ∧ F.Allowed fn tn ∧ F.NestedShare fn tn) := by
  constructor
  · rintro safe ⟨below, allowed, nested⟩
    exact (safe ((F.checkMove_below_iff below).mpr ⟨allowed, nested⟩)).1 below
  · intro clear ok
    have apart : ¬ AtOrAbove F.parent fn tn := fun below =>
      clear ⟨below, (F.checkMove_below_iff below).mp ok⟩
    rw [F.rename_ok_parent ok]
    exact ⟨apart, acyclic_update F.acyclic apart⟩

end Forest

/-- Folder 2 is a read-write share of user 7 inside folder 1 of another share of 7. -/
def nestedShares : Forest (Fin 3) Nat where
  node n :=
    if n = 0 then ⟨folderNode, none, [1], some ⟨7, full⟩⟩
    else if n = 1 then ⟨folderNode, some 0, [2], none⟩
    else ⟨folderNode, some 1, [], some ⟨7, rdWr⟩⟩
  loggedIn := true
  rank n := n.val
  drops := by decide

/-- Moving folder 1 into its own child 2 is permitted. -/
theorem nestedShares_move_unsafe : ¬ nestedShares.MoveSafe 1 2 := by
  intro safe
  refine (safe (by decide)).1 ?_
  exact atOrAbove_of_parent (p := 1) (by decide) (atOrAbove_refl _ _)

end MegaSdk.Tree
