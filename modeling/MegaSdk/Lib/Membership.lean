import Mathlib.Data.List.Nodup
import Mathlib.Data.List.Perm.Basic
import Mathlib.Logic.Function.Basic

/-!
# Members that know their owner

A relation kept twice: every member points to its owner, if it has one, and stores its
position in the list of that owner; every owner has a list of its members. Positions are
list cells, which keep their identity while other cells come and go.
-/

namespace Membership

universe u v

structure Links (Member : Type u) (Owner : Type v) where
  owner : Member → Option Owner
  position : Member → Nat
  list : Owner → List (Nat × Member)
  fresh : Nat

namespace Links
variable {Member : Type u} {Owner : Type v}

def members (l : Links Member Owner) (o : Owner) : List Member := (l.list o).map Prod.snd

def empty : Links Member Owner := ⟨fun _ => none, fun _ => 0, fun _ => [], 0⟩

/-- Both sides say the same, a member is listed once, and its position is where it is listed. -/
structure Linked (l : Links Member Owner) : Prop where
  mem_iff : ∀ m o, l.owner m = some o ↔ m ∈ l.members o
  once : ∀ o, (l.members o).Nodup
  designates : ∀ m o, l.owner m = some o → (l.position m, m) ∈ l.list o
  distinct : ∀ o, ((l.list o).map Prod.fst).Nodup
  bounded : ∀ o, ∀ e ∈ l.list o, e.1 < l.fresh

theorem linked_empty : (empty : Links Member Owner).Linked where
  mem_iff m o := by simp [empty, members]
  once o := List.nodup_nil
  designates m o owned := by simp [empty] at owned
  distinct o := List.nodup_nil
  bounded o e mem := by simp [empty] at mem

theorem mem_members {l : Links Member Owner} {o : Owner} {e : Nat × Member} (mem : e ∈ l.list o) :
    e.2 ∈ l.members o := List.mem_map_of_mem mem

/-- The only place of a member in a list is its position. -/
theorem Linked.position_eq {l : Links Member Owner} (linked : l.Linked) {o : Owner}
    {e : Nat × Member} (mem : e ∈ l.list o) : l.position e.2 = e.1 := by
  have owned := (linked.mem_iff e.2 o).mpr (mem_members mem)
  have there := linked.designates e.2 o owned
  have same := List.inj_on_of_nodup_map (linked.once o) there mem rfl
  exact congrArg Prod.fst same

/-- The cells of one list are distinct, and a member's position is where it is listed. -/
structure Placed (l : Links Member Owner) (o : Owner) : Prop where
  distinct : ((l.list o).map Prod.fst).Nodup
  position : ∀ e ∈ l.list o, l.position e.2 = e.1

theorem Linked.placed {l : Links Member Owner} (linked : l.Linked) (o : Owner) : l.Placed o :=
  ⟨linked.distinct o, fun _ mem => linked.position_eq mem⟩

variable [DecidableEq Member] [DecidableEq Owner] (l : Links Member Owner)

/-- The cell at the position of `m` is erased from the list of `o`. -/
def erase (o : Owner) (m : Member) : Links Member Owner :=
  { l with list := Function.update l.list o ((l.list o).filter fun e => e.1 ≠ l.position m) }

def setOwner (m : Member) (o : Option Owner) : Links Member Owner :=
  { l with owner := Function.update l.owner m o }

/-- `m` leaves the list of its owner and forgets it. -/
def leave (m : Member) : Links Member Owner :=
  match l.owner m with
  | none => l
  | some o => (l.erase o m).setOwner m none

/-- `m` gets a new cell in the list of `o`, which becomes `cells`. -/
def attach (m : Member) (o : Owner) (cells : List (Nat × Member)) : Links Member Owner where
  owner := Function.update l.owner m (some o)
  position := Function.update l.position m l.fresh
  list := Function.update l.list o cells
  fresh := l.fresh + 1

def pushFront (m : Member) (o : Owner) : Links Member Owner :=
  l.attach m o ((l.fresh, m) :: l.list o)

def pushBack (m : Member) (o : Owner) : Links Member Owner :=
  l.attach m o (l.list o ++ [(l.fresh, m)])

def release (o : Owner) : Links Member Owner :=
  { l with
    owner := fun m => if m ∈ l.members o then none else l.owner m
    list := Function.update l.list o [] }

variable {l}

omit [DecidableEq Member] [DecidableEq Owner] in
theorem Linked.unowned_iff (linked : l.Linked) (m : Member) :
    l.owner m = none ↔ ∀ o, m ∉ l.members o := by
  constructor
  · intro none o mem
    rw [(linked.mem_iff m o).mpr mem] at none
    cases none
  · intro absent
    cases owned : l.owner m with
    | none => rfl
    | some o => exact absurd ((linked.mem_iff m o).mp owned) (absent o)

omit [DecidableEq Member] in
theorem erase_list_self (o : Owner) (m : Member) :
    (l.erase o m).list o = (l.list o).filter fun e => e.1 ≠ l.position m := by
  simp [erase]

omit [DecidableEq Member] in
theorem erase_list_of_ne {o other : Owner} (apart : other ≠ o) (m : Member) :
    (l.erase o m).list other = l.list other := by
  simp [erase, Function.update_of_ne apart]

omit [DecidableEq Member] in
/-- Erasing takes one member out. -/
theorem Linked.mem_erase (linked : l.Linked) {o : Owner} {m : Member} (owned : l.owner m = some o)
    (k : Member) : k ∈ (l.erase o m).members o ↔ k ∈ l.members o ∧ k ≠ m := by
  rw [members, erase_list_self, members]
  simp only [List.mem_map, List.mem_filter, decide_eq_true_eq]
  constructor
  · rintro ⟨e, ⟨mem, other⟩, rfl⟩
    refine ⟨⟨e, mem, rfl⟩, ?_⟩
    intro same
    exact other (by rw [← linked.position_eq mem, same])
  · rintro ⟨⟨e, mem, rfl⟩, apart⟩
    refine ⟨e, ⟨mem, fun same => apart ?_⟩, rfl⟩
    have there := linked.designates m o owned
    have heq := List.inj_on_of_nodup_map (linked.distinct o) mem there same
    exact congrArg Prod.snd heq

omit [DecidableEq Member] in
theorem erase_sublist (o other : Owner) (m : Member) :
    List.Sublist ((l.erase o m).list other) (l.list other) := by
  by_cases same : other = o
  · subst same
    rw [erase_list_self]
    exact List.filter_sublist
  · rw [erase_list_of_ne same]

omit [DecidableEq Member] in
theorem Placed.erase {o : Owner} (placed : l.Placed o) (m : Member) : (l.erase o m).Placed o where
  distinct := placed.distinct.sublist ((erase_sublist o o m).map _)
  position e mem := placed.position e ((erase_sublist o o m).subset mem)

/-- What is left of a list from which one of its members is erased. -/
theorem Placed.members_erase {o : Owner} (placed : l.Placed o) {m : Member}
    (listed : m ∈ l.members o) : (l.erase o m).members o = (l.members o).filter (· ≠ m) := by
  obtain ⟨cell, here, rfl⟩ := List.mem_map.mp listed
  rw [members, erase_list_self, members, List.filter_map]
  refine congrArg _ (List.filter_congr fun e mem => ?_)
  have same : e.1 = l.position cell.2 ↔ e.2 = cell.2 := by
    rw [placed.position cell here]
    constructor
    · intro equal
      exact congrArg Prod.snd (List.inj_on_of_nodup_map placed.distinct mem here equal)
    · intro equal
      rw [← placed.position e mem, equal, placed.position cell here]
  simp [same]

theorem linked_leave (linked : l.Linked) (m : Member) : (l.leave m).Linked := by
  rw [leave]
  cases owned : l.owner m with
  | none => exact linked
  | some o =>
    have others : ∀ {k}, k ≠ m → ((l.erase o m).setOwner m none).owner k = l.owner k :=
      fun apart => Function.update_of_ne apart _ _
    have self : ((l.erase o m).setOwner m none).owner m = none := Function.update_self _ _ _
    constructor
    · intro k p
      change _ ↔ k ∈ (l.erase o m).members p
      by_cases same : p = o
      · subst same
        rw [linked.mem_erase owned]
        by_cases gone : k = m
        · subst gone
          rw [self]
          simp
        · rw [others gone, linked.mem_iff]
          simp [gone]
      · rw [members, erase_list_of_ne same, ← members]
        by_cases gone : k = m
        · subst gone
          rw [self, ← linked.mem_iff, owned]
          simp [Ne.symm same]
        · rw [others gone, linked.mem_iff]
    · exact fun p => (linked.once p).sublist ((erase_sublist o p m).map _)
    · intro k p owner
      have apart : k ≠ m := by
        rintro rfl
        rw [self] at owner
        cases owner
      rw [others apart] at owner
      have there := linked.designates k p owner
      change (l.position k, k) ∈ (l.erase o m).list p
      by_cases same : p = o
      · subst same
        rw [erase_list_self, List.mem_filter, decide_eq_true_eq]
        refine ⟨there, fun cell => apart ?_⟩
        have heq := List.inj_on_of_nodup_map (linked.distinct p) there
          (linked.designates m p owned) cell
        exact congrArg Prod.snd heq
      · rwa [erase_list_of_ne same]
    · exact fun p => (linked.distinct p).sublist ((erase_sublist o p m).map _)
    · exact fun p e mem => linked.bounded p e ((erase_sublist o p m).subset mem)

/-- The entries of the new list, and of every other one. -/
theorem mem_attach_list {m : Member} {o p : Owner} {cells : List (Nat × Member)}
    (perm : cells.Perm ((l.fresh, m) :: l.list o)) (e : Nat × Member) :
    e ∈ (l.attach m o cells).list p ↔ (p = o ∧ e = (l.fresh, m)) ∨ e ∈ l.list p := by
  by_cases same : p = o
  · subst same
    have here : (l.attach m p cells).list p = cells := Function.update_self _ _ _
    rw [here, perm.mem_iff, List.mem_cons]
    simp
  · have elsewhere : (l.attach m o cells).list p = l.list p := Function.update_of_ne same _ _
    rw [elsewhere]
    simp [same]

theorem linked_attach (linked : l.Linked) {m : Member} (free : l.owner m = none) {o : Owner}
    {cells : List (Nat × Member)} (perm : cells.Perm ((l.fresh, m) :: l.list o)) :
    (l.attach m o cells).Linked := by
  have here : (l.attach m o cells).list o = cells := Function.update_self _ _ _
  have elsewhere : ∀ {p}, p ≠ o → (l.attach m o cells).list p = l.list p :=
    fun apart => Function.update_of_ne apart _ _
  have absent := (linked.unowned_iff m).mp free
  have listed : (cells.map Prod.snd).Perm (m :: l.members o) := perm.map Prod.snd
  constructor
  · intro k p
    by_cases same : p = o
    · subst same
      rw [members, here, listed.mem_iff, List.mem_cons, ← linked.mem_iff]
      by_cases new : k = m
      · subst new
        simp [attach]
      · simp [attach, new]
    · rw [members, elsewhere same, ← members, ← linked.mem_iff]
      by_cases new : k = m
      · subst new
        simp [attach, free, Ne.symm same]
      · simp [attach, new]
  · intro p
    by_cases same : p = o
    · subst same
      rw [members, here, listed.nodup_iff, List.nodup_cons]
      exact ⟨absent p, linked.once p⟩
    · rw [members, elsewhere same]
      exact linked.once p
  · intro k p owner
    by_cases new : k = m
    · subst new
      have same : o = p := by simpa [attach] using owner
      have position : (l.attach k o cells).position k = l.fresh := Function.update_self _ _ _
      rw [position, mem_attach_list perm]
      exact .inl ⟨same.symm, rfl⟩
    · have old : l.owner k = some p := by simpa [attach, new] using owner
      have there := linked.designates k p old
      have position : (l.attach m o cells).position k = l.position k :=
        Function.update_of_ne new _ _
      rw [position, mem_attach_list perm]
      exact .inr there
  · intro p
    by_cases same : p = o
    · subst same
      have cellsPerm : (cells.map Prod.fst).Perm (l.fresh :: (l.list p).map Prod.fst) :=
        perm.map Prod.fst
      rw [here, cellsPerm.nodup_iff, List.nodup_cons]
      refine ⟨fun mem => ?_, linked.distinct p⟩
      obtain ⟨e, listed, cell⟩ := List.mem_map.mp mem
      exact absurd (linked.bounded p e listed) (by omega)
    · rw [elsewhere same]
      exact linked.distinct p
  · intro p e mem
    change e.1 < l.fresh + 1
    rcases (mem_attach_list perm e).mp mem with ⟨-, rfl⟩ | old
    · exact Nat.lt_succ_self _
    · exact Nat.lt_succ_of_lt (linked.bounded p e old)

theorem linked_pushFront (linked : l.Linked) {m : Member} (free : l.owner m = none) (o : Owner) :
    (l.pushFront m o).Linked := linked_attach linked free (List.Perm.refl _)

theorem linked_pushBack (linked : l.Linked) {m : Member} (free : l.owner m = none) (o : Owner) :
    (l.pushBack m o).Linked := linked_attach linked free (List.perm_append_singleton _ _)

theorem Linked.release_owner_iff (linked : l.Linked) (o : Owner) (k : Member) (p : Owner) :
    (l.release o).owner k = some p ↔ l.owner k = some p ∧ p ≠ o := by
  change (if k ∈ l.members o then none else l.owner k) = some p ↔ _
  split
  · rename_i mem
    rw [(linked.mem_iff k o).mpr mem]
    simp [eq_comm]
  · rename_i absent
    refine ⟨fun owned => ⟨owned, ?_⟩, fun both => both.1⟩
    rintro rfl
    exact absent ((linked.mem_iff k p).mp owned)

theorem linked_release (linked : l.Linked) (o : Owner) : (l.release o).Linked := by
  have here : (l.release o).list o = [] := Function.update_self _ _ _
  have elsewhere : ∀ {p}, p ≠ o → (l.release o).list p = l.list p :=
    fun apart => Function.update_of_ne apart _ _
  constructor
  · intro k p
    rw [linked.release_owner_iff, linked.mem_iff]
    by_cases same : p = o
    · subst same
      simp [members, here]
    · simp [members, elsewhere same, same]
  · intro p
    by_cases same : p = o
    · subst same
      simp [members, here]
    · rw [members, elsewhere same]
      exact linked.once p
  · intro k p owned
    obtain ⟨old, apart⟩ := (linked.release_owner_iff o k p).mp owned
    rw [elsewhere apart]
    exact linked.designates k p old
  · intro p
    by_cases same : p = o
    · subst same
      simp [here]
    · rw [elsewhere same]
      exact linked.distinct p
  · intro p e mem
    by_cases same : p = o
    · subst same
      simp [here] at mem
    · rw [elsewhere same] at mem
      exact linked.bounded p e mem

theorem release_setOwner_none (o : Owner) (m : Member) :
    (l.setOwner m none).release o = (l.release o).setOwner m none := by
  have owners : ((l.setOwner m none).release o).owner = ((l.release o).setOwner m none).owner := by
    funext k
    change (if k ∈ l.members o then none else Function.update l.owner m none k) =
      Function.update (fun k => if k ∈ l.members o then none else l.owner k) m none k
    by_cases same : k = m
    · subst same
      rw [Function.update_self, Function.update_self, ite_self]
    · rw [Function.update_of_ne same, Function.update_of_ne same]
  simp only [release, setOwner] at owners ⊢
  rw [owners]

/-- `m` leaves the list it is on. -/
theorem leave_of_owner {m : Member} {o : Owner} (owned : l.owner m = some o) :
    l.leave m = (l.erase o m).setOwner m none := by
  rw [leave, owned]

theorem leave_owner_iff (m k : Member) (p : Owner) :
    (l.leave m).owner k = some p ↔ l.owner k = some p ∧ k ≠ m := by
  rw [leave]
  by_cases same : k = m
  · subst same
    cases owned : l.owner k with
    | none => simp [owned]
    | some o => simp [setOwner]
  · cases l.owner m with
    | none => simp [same]
    | some o => simp [setOwner, erase, same]

theorem attach_owner_iff (m k : Member) (o p : Owner) (cells : List (Nat × Member)) :
    (l.attach m o cells).owner k = some p ↔ k = m ∧ p = o ∨ k ≠ m ∧ l.owner k = some p := by
  by_cases same : k = m
  · subst same
    simp [attach, eq_comm]
  · simp [attach, same]

end Links

end Membership
