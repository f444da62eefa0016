import Mathlib.Data.List.Basic

/-!
# Segments of a log

A log only grows, and its positions have names. Entries are followed from one named position to
another: all of them, in order, and each of them once.
-/

namespace LogPrefixes

universe u v
variable {Entry : Type u} {Name : Type v} (name : Nat → Name)

def Segment (log : List Entry) (start stop : Name) (entries : List Entry) : Prop :=
  ∃ k m, k ≤ m ∧ m ≤ log.length ∧ start = name k ∧ stop = name m ∧ entries = (log.take m).drop k

/-- The positions that there are have different names. -/
def Named (log : List Entry) : Prop :=
  ∀ k ≤ log.length, ∀ m ≤ log.length, name k = name m → k = m

variable {name} {log entries more : List Entry} {start middle stop : Name}

theorem Segment.append (segment : Segment name log start stop entries) (more : List Entry) :
    Segment name (log ++ more) start stop entries := by
  obtain ⟨k, m, order, inside, rfl, rfl, rfl⟩ := segment
  refine ⟨k, m, order, ?_, rfl, rfl, ?_⟩
  · rw [List.length_append]
    exact Nat.le_add_right_of_le inside
  · rw [List.take_append_of_le_length inside]

/-- A new entry gets a new name. -/
theorem Named.append (named : Named name log) {e : Entry}
    (fresh : ∀ k ≤ log.length, name k ≠ name (log.length + 1)) : Named name (log ++ [e]) := by
  intro k below m below' same
  rw [List.length_append, List.length_singleton] at below below'
  rcases Nat.lt_or_eq_of_le below with old | rfl
  · rcases Nat.lt_or_eq_of_le below' with old' | rfl
    · exact named k (Nat.le_of_lt_succ old) m (Nat.le_of_lt_succ old') same
    · exact absurd same (fresh k (Nat.le_of_lt_succ old))
  · rcases Nat.lt_or_eq_of_le below' with old' | rfl
    · exact absurd same.symm (fresh m (Nat.le_of_lt_succ old'))
    · rfl

/-- Nothing happens between a position and itself. -/
theorem Segment.refl {k : Nat} (inside : k ≤ log.length) :
    Segment name log (name k) (name k) [] := by
  refine ⟨k, k, Nat.le_refl k, inside, rfl, rfl, ?_⟩
  rw [List.drop_eq_nil_of_le (List.length_take_le k log)]

/-- Segments that meet make one. -/
theorem Segment.trans (first : Segment name log start middle entries) (named : Named name log)
    (second : Segment name log middle stop more) :
    Segment name log start stop (entries ++ more) := by
  obtain ⟨k, m, order, inside, rfl, rfl, rfl⟩ := first
  obtain ⟨m', n, order', inside', same, rfl, rfl⟩ := second
  obtain rfl := named m inside m' (Nat.le_trans order' inside') same
  refine ⟨k, n, Nat.le_trans order order', inside', rfl, rfl, ?_⟩
  have split := List.take_append_drop m (log.take n)
  rw [List.take_take, Nat.min_eq_left order'] at split
  have behind : k ≤ (log.take m).length := by
    rw [List.length_take, Nat.min_eq_left inside]
    exact order
  rw [← List.drop_append_of_le_length behind, split]

/-- A segment has entries of the log. -/
theorem Segment.mem (segment : Segment name log start stop entries) {e : Entry}
    (mem : e ∈ entries) : e ∈ log := by
  obtain ⟨k, m, -, -, -, -, rfl⟩ := segment
  exact List.mem_of_mem_take (List.mem_of_mem_drop mem)

end LogPrefixes
