import Mathlib.Data.List.Nodup
import Mathlib.Data.List.TakeWhile
import Mathlib.Order.Lattice

/-!
# Ordered containers of pointers

Maps and sets of pointers that are ordered by keys in the elements themselves, outside of the
container, which is the list of its elements in order. Searching relies on the order of the keys;
an element is erased where it is; and a key that is rewritten moves nothing, so that the order
survives exactly if the new key fits between the neighbours.
-/

namespace OrderedPointers

universe u v
variable {Ref : Type u} {K : Type v} [LinearOrder K]

/-- The element at the lower bound, unless its key is greater. -/
def find (key : Ref → K) (k : K) (order : List Ref) : Option Ref :=
  match order.dropWhile fun r => key r < k with
  | [] => none
  | r :: _ => if k < key r then none else some r

def insert (key : Ref → K) (r : Ref) (order : List Ref) : List Ref :=
  (order.takeWhile fun a => key a ≤ key r) ++ r :: order.dropWhile fun a => key a ≤ key r

def Ascending (key : Ref → K) (order : List Ref) : Prop := order.Pairwise fun a b => key a < key b

def Sorted (key : Ref → K) (order : List Ref) : Prop := order.Pairwise fun a b => key a ≤ key b

variable {key : Ref → K} {order : List Ref} {r : Ref} {k : K}

theorem Sorted.congr {key' : Ref → K} (sorted : Sorted key order)
    (same : ∀ a ∈ order, key' a = key a) : Sorted key' order := by
  refine List.Pairwise.imp_of_mem (fun {a b} first second le => ?_) sorted
  rwa [same a first, same b second]

theorem Ascending.sorted (ascending : Ascending key order) : Sorted key order :=
  List.Pairwise.imp le_of_lt ascending

/-- In order, nothing behind the first element without a downward closed property has it. -/
theorem not_of_mem_dropWhile {R : Ref → Ref → Prop} {p : Ref → Bool}
    (down : ∀ a b, R a b → p b → p a) {list : List Ref} (pairwise : list.Pairwise R) :
    ∀ a ∈ list.dropWhile p, ¬p a := by
  induction list with
  | nil =>
    intro a mem
    cases mem
  | cons first rest ih =>
    obtain ⟨below, tail⟩ := List.pairwise_cons.mp pairwise
    rw [List.dropWhile_cons]
    split
    · exact ih tail
    · rename_i stop
      intro a mem holds
      rcases List.mem_cons.mp mem with rfl | later
      · exact stop holds
      · exact stop (down first a (below a later) holds)

theorem mem_of_find (found : find key k order = some r) : r ∈ order ∧ key r = k := by
  rw [find] at found
  split at found
  · cases found
  · rename_i a rest bound
    split_ifs at found with greater
    obtain rfl := Option.some.inj found
    have front : a ∈ order.dropWhile fun r => key r < k := bound ▸ List.mem_cons_self
    have notLess : ¬key a < k := by
      have head := List.head?_dropWhile_not (fun r => decide (key r < k)) order
      rw [bound] at head
      simpa using head
    exact ⟨(List.dropWhile_sublist _).mem front,
      le_antisymm (not_lt.mp greater) (not_lt.mp notLess)⟩

/-- In a sorted container every key that is there is found. -/
theorem Sorted.find_isSome (sorted : Sorted key order) (mem : r ∈ order) :
    ∃ a, find key (key r) order = some a := by
  have inside : r ∈ order.dropWhile fun a => key a < key r := by
    rw [← List.takeWhile_append_dropWhile (p := fun a => decide (key a < key r)) (l := order)]
      at mem
    refine (List.mem_append.mp mem).resolve_left fun front => ?_
    have less := List.mem_takeWhile_imp front
    simp at less
  have tail : (order.dropWhile fun a => key a < key r).Pairwise fun a b => key a ≤ key b :=
    List.Pairwise.sublist (List.dropWhile_sublist _) sorted
  rw [find]
  split
  · rename_i empty
    rw [empty] at inside
    cases inside
  · rename_i a rest bound
    refine ⟨a, if_neg fun greater => ?_⟩
    rw [bound] at inside tail
    rcases List.mem_cons.mp inside with rfl | later
    · exact lt_irrefl _ greater
    · exact absurd ((List.pairwise_cons.mp tail).1 r later) (not_le.mpr greater)

section Range
variable {p : Ref → Prop} [DecidablePred p]

/-- A scan from a lower bound that goes on as long as `p` holds meets all elements with `p`, if
these lie above the bound and next to each other. -/
theorem Sorted.range (sorted : Sorted key order) (above : ∀ a ∈ order, p a → k ≤ key a)
    (convex : ∀ a b, k ≤ key a → key a ≤ key b → p b → p a) :
    ((order.dropWhile fun a => key a < k).takeWhile p = order.filter p) ∧
      (order.takeWhile fun a => key a < k) ++ (order.dropWhile fun a => key a < k).dropWhile p =
        order.filter fun a => ¬p a := by
  have down : ∀ a b, key a ≤ key b → decide (key b < k) → decide (key a < k) := by
    intro a b below less
    exact decide_eq_true (below.trans_lt (of_decide_eq_true less))
  have high : ∀ a ∈ order.dropWhile fun a => key a < k, k ≤ key a := by
    intro a mem
    simpa using not_of_mem_dropWhile down sorted a mem
  have tail : (order.dropWhile fun a => key a < k).Pairwise
      fun a b => k ≤ key a ∧ key a ≤ key b := by
    have part : (order.dropWhile fun a => key a < k).Pairwise fun a b => key a ≤ key b :=
      List.Pairwise.sublist (List.dropWhile_sublist _) sorted
    exact part.imp_of_mem fun {a b} first _ le => ⟨high a first, le⟩
  have low : ∀ a ∈ order.takeWhile fun a => key a < k, ¬p a := by
    intro a front holds
    have less : key a < k := by simpa using List.mem_takeWhile_imp front
    exact absurd (above a ((List.takeWhile_sublist _).mem front) holds) (not_le.mpr less)
  have last : ∀ a ∈ (order.dropWhile fun a => key a < k).dropWhile p, ¬p a := by
    intro a mem
    have next : ∀ a b, (k ≤ key a ∧ key a ≤ key b) → decide (p b) → decide (p a) := by
      rintro a b ⟨least, le⟩ holds
      exact decide_eq_true (convex a b least le (of_decide_eq_true holds))
    simpa using not_of_mem_dropWhile next tail a mem
  have split : order = (order.takeWhile fun a => key a < k) ++
      ((order.dropWhile fun a => key a < k).takeWhile p ++
        (order.dropWhile fun a => key a < k).dropWhile p) := by
    rw [List.takeWhile_append_dropWhile, List.takeWhile_append_dropWhile]
  have middle : ∀ a ∈ (order.dropWhile fun a => key a < k).takeWhile p, p a := by
    intro a mem
    simpa using List.mem_takeWhile_imp mem
  generalize (order.takeWhile fun a => key a < k) = front at low split ⊢
  generalize (order.dropWhile fun a => key a < k).takeWhile p = range at split middle ⊢
  generalize (order.dropWhile fun a => key a < k).dropWhile p = back at last split ⊢
  subst split
  have none {list : List Ref} (without : ∀ a ∈ list, ¬p a) : list.filter p = [] := by
    simpa [List.filter_eq_nil_iff] using without
  have every {list : List Ref} (without : ∀ a ∈ list, ¬p a) : list.filter (¬p ·) = list := by
    simpa [List.filter_eq_self] using without
  have all : range.filter p = range := by simpa [List.filter_eq_self] using middle
  have gone : range.filter (¬p ·) = [] := by simpa [List.filter_eq_nil_iff] using middle
  rw [List.filter_append, List.filter_append, List.filter_append, List.filter_append, none low,
    none last, all, every low, every last, gone]
  exact ⟨by simp, rfl⟩

end Range

theorem Ascending.injective (ascending : Ascending key order) {a b : Ref} (first : a ∈ order)
    (second : b ∈ order) (same : key a = key b) : a = b := by
  have nodup : (order.map key).Nodup := List.pairwise_map.mpr (List.Pairwise.imp ne_of_lt ascending)
  exact List.inj_on_of_nodup_map nodup first second same

/-- In a container in ascending order every element is found under its own key. -/
theorem Ascending.find_self (ascending : Ascending key order) (mem : r ∈ order) :
    find key (key r) order = some r := by
  obtain ⟨a, found⟩ := ascending.sorted.find_isSome mem
  obtain ⟨there, same⟩ := mem_of_find found
  rw [found, ascending.injective there mem same]

theorem Ascending.find_none (ascending : Ascending key order) :
    find key k order = none ↔ ∀ a ∈ order, key a ≠ k := by
  constructor
  · rintro missing a mem rfl
    rw [ascending.find_self mem] at missing
    cases missing
  · intro different
    cases found : find key k order with
    | none => rfl
    | some a =>
      obtain ⟨mem, same⟩ := mem_of_find found
      exact absurd same (different a mem)

theorem mem_insert {a : Ref} : a ∈ insert key r order ↔ a = r ∨ a ∈ order := by
  rw [insert, List.mem_append, List.mem_cons]
  have split := List.takeWhile_append_dropWhile (p := fun a => decide (key a ≤ key r)) (l := order)
  have parts : a ∈ order ↔ a ∈ order.takeWhile (fun a => key a ≤ key r) ∨
      a ∈ order.dropWhile fun a => key a ≤ key r := by
    rw [← List.mem_append, split]
  rw [parts]
  tauto

theorem insert_perm : (insert key r order).Perm (r :: order) := by
  have split := List.takeWhile_append_dropWhile (p := fun a => decide (key a ≤ key r)) (l := order)
  refine List.perm_middle.trans (List.Perm.cons r ?_)
  rw [split]

theorem Sorted.insert (sorted : Sorted key order) (r : Ref) :
    Sorted key (insert key r order) := by
  have low : ∀ a ∈ order.takeWhile fun a => key a ≤ key r, key a ≤ key r := by
    intro a front
    simpa using List.mem_takeWhile_imp front
  have high : ∀ a ∈ order.dropWhile fun a => key a ≤ key r, key r < key a := by
    intro a back
    have down : ∀ a b, key a ≤ key b → decide (key b ≤ key r) → decide (key a ≤ key r) := by
      intro a b below least
      exact decide_eq_true (below.trans (of_decide_eq_true least))
    simpa using not_of_mem_dropWhile down sorted a back
  rw [Sorted, OrderedPointers.insert, List.pairwise_append, List.pairwise_cons]
  refine ⟨List.Pairwise.sublist (List.takeWhile_sublist _) sorted, ⟨fun a back => (high a back).le,
    List.Pairwise.sublist (List.dropWhile_sublist _) sorted⟩, fun a front b back => ?_⟩
  rcases List.mem_cons.mp back with rfl | behind
  · exact low a front
  · exact (low a front).trans (high b behind).le

theorem Ascending.insert (ascending : Ascending key order) (fresh : ∀ a ∈ order, key a ≠ key r) :
    Ascending key (insert key r order) := by
  have low : ∀ a ∈ order.takeWhile fun a => key a ≤ key r, key a < key r := by
    intro a front
    have least : key a ≤ key r := by simpa using List.mem_takeWhile_imp front
    exact lt_of_le_of_ne least (fresh a ((List.takeWhile_sublist _).mem front))
  have high : ∀ a ∈ order.dropWhile fun a => key a ≤ key r, key r < key a := by
    intro a back
    have down : ∀ a b, key a < key b → decide (key b ≤ key r) → decide (key a ≤ key r) := by
      intro a b below least
      exact decide_eq_true (below.le.trans (of_decide_eq_true least))
    simpa using not_of_mem_dropWhile down ascending a back
  rw [Ascending, OrderedPointers.insert, List.pairwise_append, List.pairwise_cons]
  refine ⟨List.Pairwise.sublist (List.takeWhile_sublist _) ascending, ⟨high,
    List.Pairwise.sublist (List.dropWhile_sublist _) ascending⟩, fun a front b back => ?_⟩
  rcases List.mem_cons.mp back with rfl | behind
  · exact low a front
  · exact (low a front).trans (high b behind)

omit [LinearOrder K] in
/-- Rewriting a key keeps the order exactly if the new key fits between the neighbours. -/
theorem pairwise_rekey [DecidableEq Ref] {R : K → K → Prop} {before after : List Ref}
    (nodup : (before ++ r :: after).Nodup)
    (ordered : (before ++ r :: after).Pairwise fun a b => R (key a) (key b)) :
    ((before ++ r :: after).Pairwise fun a b =>
        R (Function.update key r k a) (Function.update key r k b)) ↔
      (∀ a ∈ before, R (key a) k) ∧ ∀ b ∈ after, R k (key b) := by
  obtain ⟨-, tail, apart⟩ := List.nodup_append.mp nodup
  have front : ∀ a ∈ before, Function.update key r k a = key a := fun a mem =>
    Function.update_of_ne (apart a mem r List.mem_cons_self) _ _
  have back : ∀ b ∈ after, Function.update key r k b = key b := by
    intro b mem
    refine Function.update_of_ne ?_ _ _
    rintro rfl
    exact (List.nodup_cons.mp tail).1 mem
  rw [List.pairwise_append, List.pairwise_cons] at ordered ⊢
  obtain ⟨first, ⟨-, last⟩, between⟩ := ordered
  constructor
  · rintro ⟨-, ⟨above, -⟩, below⟩
    refine ⟨fun a mem => ?_, fun b mem => ?_⟩
    · have less := below a mem r List.mem_cons_self
      rwa [front a mem, Function.update_self] at less
    · have more := above b mem
      rwa [back b mem, Function.update_self] at more
  · rintro ⟨below, above⟩
    refine ⟨first.imp_of_mem fun {a b} ha hb related => ?_,
      ⟨fun b mem => ?_, last.imp_of_mem fun {a b} ha hb related => ?_⟩, fun a ha b hb => ?_⟩
    · rwa [front a ha, front b hb]
    · rw [back b mem, Function.update_self]
      exact above b mem
    · rwa [back a ha, back b hb]
    · rw [front a ha]
      rcases List.mem_cons.mp hb with rfl | behind
      · rw [Function.update_self]
        exact below a ha
      · rw [back b behind]
        exact between a ha b hb

/-- Writing one key over those of several elements keeps the order exactly if it fits wherever an
element with the new key and one with its own follow each other. -/
theorem Sorted.overwrite (sorted : Sorted key order) {p : Ref → Prop} [DecidablePred p] :
    Sorted (fun a => if p a then k else key a) order ↔
      ∀ a b, [a, b].Sublist order → (p a → ¬p b → k ≤ key b) ∧ (¬p a → p b → key a ≤ k) := by
  rw [Sorted, List.pairwise_iff_forall_sublist]
  refine forall₂_congr fun a b => forall_congr' fun follows => ?_
  have before : key a ≤ key b := List.pairwise_iff_forall_sublist.mp sorted follows
  by_cases first : p a <;> by_cases second : p b <;> simp [first, second, before]

theorem Ascending.nodup (ascending : Ascending key order) : order.Nodup := by
  refine List.Pairwise.imp (fun {a b} less => ?_) ascending
  rintro rfl
  exact lt_irrefl _ less

/-- A rewritten key compares with every other key as the old one did. -/
theorem Ascending.rekey [DecidableEq Ref] (ascending : Ascending key order) (mem : r ∈ order) :
    Ascending (Function.update key r k) order ↔
      ∀ a ∈ order, (key a < key r → key a < k) ∧ (key r < key a → k < key a) := by
  obtain ⟨before, after, rfl⟩ := List.append_of_mem mem
  obtain ⟨-, tail, between⟩ := List.pairwise_append.mp ascending
  have below : ∀ a ∈ before, key a < key r := fun a front =>
    between a front r List.mem_cons_self
  have above : ∀ a ∈ after, key r < key a := (List.pairwise_cons.mp tail).1
  rw [Ascending, pairwise_rekey ascending.nodup ascending]
  constructor
  · rintro ⟨low, high⟩ a there
    rcases List.mem_append.mp there with front | back
    · exact ⟨fun _ => low a front, fun more => absurd more (below a front).asymm⟩
    · rcases List.mem_cons.mp back with rfl | behind
      · exact ⟨fun less => absurd less (lt_irrefl _), fun more => absurd more (lt_irrefl _)⟩
      · exact ⟨fun less => absurd less (above a behind).asymm, fun _ => high a behind⟩
  · intro fits
    refine ⟨fun a front => ?_, fun a behind => ?_⟩
    · exact (fits a (List.mem_append_left _ front)).1 (below a front)
    · exact (fits a (List.mem_append_right _ (List.mem_cons_of_mem _ behind))).2 (above a behind)

end OrderedPointers
