import Mathlib.Data.List.Induction
import Mathlib.Logic.Function.Basic
import Mathlib.Order.Lattice

/-!
# Tables that keep the greatest item

Items are filed under keys, one after the other, and an item replaces the one that is filed under
its key if it beats it. If beating is the strict order of a rank, then every key has an item of
the greatest rank in the end, whatever the order of arrival.
-/

namespace Champions

universe u v w
variable {Key : Type u} {Item : Type v} {Rank : Type w} [DecidableEq Key]

def file (beats : Item → Item → Bool) (table : Key → Option Item) (k : Key) (x : Item) :
    Key → Option Item := fun key =>
  if key = k then
    match table key with
    | none => some x
    | some old => if beats x old then some x else some old
  else table key

def tableOf (beats : Item → Item → Bool) (items : List (Key × Item)) : Key → Option Item :=
  items.foldl (fun table e => file beats table e.1 e.2) fun _ => none

/-- The champion of a key: an item filed under it that no other one exceeds, and none if there is
no item. -/
def Champion [LE Rank] (rank : Item → Rank) (items : List (Key × Item)) (k : Key) :
    Option Item → Prop
  | none => ∀ y, (k, y) ∉ items
  | some x => (k, x) ∈ items ∧ ∀ y, (k, y) ∈ items → rank y ≤ rank x

variable {beats : Item → Item → Bool} {rank : Item → Rank} {items : List (Key × Item)} {k : Key}

@[simp] theorem tableOf_append (items : List (Key × Item)) (e : Key × Item) :
    tableOf beats (items ++ [e]) = file beats (tableOf beats items) e.1 e.2 := by
  rw [tableOf, tableOf, List.foldl_append, List.foldl_cons, List.foldl_nil]

theorem file_of_ne {table : Key → Option Item} {k key : Key} (other : key ≠ k) (x : Item) :
    file beats table k x key = table key := if_neg other

omit [DecidableEq Key] in
theorem Champion.isSome_iff [LE Rank] {winner : Option Item}
    (champion : Champion rank items k winner) : winner.isSome ↔ ∃ y, (k, y) ∈ items := by
  cases winner with
  | none => simpa [Champion] using champion
  | some x => simpa using ⟨x, champion.1⟩

omit [DecidableEq Key] in
theorem Champion.perm [LE Rank] {items' : List (Key × Item)} (perm : items'.Perm items)
    {winner : Option Item} (champion : Champion rank items' k winner) :
    Champion rank items k winner := by
  cases winner with
  | none => exact fun y mem => champion y (perm.mem_iff.mpr mem)
  | some x =>
    exact ⟨perm.mem_iff.mp champion.1, fun y mem => champion.2 y (perm.mem_iff.mpr mem)⟩

variable [LinearOrder Rank]

/-- One more item: the champion stays, or the new one takes its place. -/
theorem Champion.file {e : Key × Item} {table : Key → Option Item}
    (champion : Champion rank items k (table k))
    (ranked : ∀ old, (e.1, old) ∈ items → (beats e.2 old = true ↔ rank old < rank e.2)) :
    Champion rank (items ++ [e]) k (file beats table e.1 e.2 k) := by
  obtain ⟨key, x⟩ := e
  by_cases here : k = key
  · subst here
    rw [Champions.file, if_pos rfl]
    cases old : table k with
    | none =>
      rw [old] at champion
      refine ⟨by simp, fun y mem => ?_⟩
      rcases List.mem_append.mp mem with earlier | new
      · exact absurd earlier (champion y)
      · simp_all
    | some z =>
      rw [old] at champion
      obtain ⟨filed, greatest⟩ := champion
      have order := ranked z filed
      by_cases beaten : beats x z = true
      · simp only [beaten, if_true]
        have above := order.mp beaten
        refine ⟨by simp, fun y mem => ?_⟩
        rcases List.mem_append.mp mem with earlier | new
        · exact (greatest y earlier).trans above.le
        · simp_all
      · simp only [beaten, Bool.false_eq_true, if_false]
        have below : rank x ≤ rank z := not_lt.mp (order.not.mp beaten)
        refine ⟨by simp [filed], fun y mem => ?_⟩
        rcases List.mem_append.mp mem with earlier | new
        · exact greatest y earlier
        · simp_all
  · have others : ∀ y, (k, y) ∈ items ++ [(key, x)] ↔ (k, y) ∈ items := by
      intro y
      simp [here]
    rw [file_of_ne here]
    cases winner : table k with
    | none =>
      rw [winner] at champion
      exact fun y mem => champion y ((others y).mp mem)
    | some z =>
      rw [winner] at champion
      exact ⟨(others z).mpr champion.1, fun y mem => champion.2 y ((others y).mp mem)⟩

/-- Every key of the table has its champion. -/
theorem champion_tableOf
    (ranked : ∀ e ∈ items, ∀ old ∈ items, (beats e.2 old.2 = true ↔ rank old.2 < rank e.2))
    (k : Key) : Champion rank items k (tableOf beats items k) := by
  induction items using List.reverseRecOn with
  | nil => exact fun y => List.not_mem_nil
  | append_singleton items e ih =>
    rw [tableOf_append]
    have earlier := ih fun a mem b mem' =>
      ranked a (List.mem_append_left _ mem) b (List.mem_append_left _ mem')
    refine Champion.file earlier fun old mem => ?_
    exact ranked e (by simp) (e.1, old) (List.mem_append_left _ mem)

end Champions
