import Mathlib.Data.List.Nodup

/-!
# Variables read from named members

A loop goes through members with distinct names and lets each change the variables it is
meant for. A variable that one member assigns is independent of the order of the members;
one that a member combines with such a variable depends on which of the two comes first.
-/

namespace Registers

section Folds
variable {κ β σ α γ : Type*} {step : σ → κ × β → σ} {x k : κ}

/-- A variable to which one member assigns, and which the others leave alone. -/
structure Register (step : σ → κ × β → σ) (k : κ) (get : σ → α) (f : β → α) : Prop where
  own : ∀ s v, get (step s (k, v)) = f v
  other : ∀ s m, m.1 ≠ k → get (step s m) = get s

/-- A variable that one member sets to its value combined with another variable. -/
structure Combined (step : σ → κ × β → σ) (k : κ) (get : σ → α) (operand : σ → γ)
    (g : γ → β → α) : Prop where
  own : ∀ s v, get (step s (k, v)) = g (operand s) v
  other : ∀ s m, m.1 ≠ k → get (step s m) = get s

variable {get : σ → α} {f : β → α} {operand : σ → γ} {g : γ → β → α} {ms ms' : List (κ × β)}

theorem exists_of_name (listed : k ∈ ms.map Prod.fst) : ∃ v, (k, v) ∈ ms := by
  obtain ⟨m, mem, rfl⟩ := List.mem_map.mp listed
  exact ⟨m.2, mem⟩

/-- What no member of the name comes along for stays as it is. -/
theorem foldl_missing (other : ∀ s m, m.1 ≠ k → get (step s m) = get s)
    (missing : k ∉ ms.map Prod.fst) (s : σ) : get (ms.foldl step s) = get s := by
  induction ms generalizing s with
  | nil => rfl
  | cons m ms ih =>
    rw [List.map_cons, List.mem_cons, not_or] at missing
    rw [List.foldl_cons, ih missing.2, other s m (Ne.symm missing.1)]

theorem Register.foldl_mem (register : Register step k get f)
    (distinct : (ms.map Prod.fst).Nodup) {v : β} (mem : (k, v) ∈ ms) (s : σ) :
    get (ms.foldl step s) = f v := by
  induction ms generalizing s with
  | nil => cases mem
  | cons m ms ih =>
    obtain ⟨fresh, others⟩ := List.nodup_cons.mp distinct
    rcases List.mem_cons.mp mem with rfl | later
    · rw [List.foldl_cons, foldl_missing register.other fresh, register.own]
    · exact ih others later (step s m)

/-- A register does not depend on the order of the members. -/
theorem Register.foldl_perm (register : Register step k get f)
    (distinct : (ms.map Prod.fst).Nodup) (perm : ms.Perm ms') (s : σ) :
    get (ms.foldl step s) = get (ms'.foldl step s) := by
  have distinct' : (ms'.map Prod.fst).Nodup := (perm.map Prod.fst).nodup_iff.mp distinct
  by_cases listed : k ∈ ms.map Prod.fst
  · obtain ⟨v, mem⟩ := exists_of_name listed
    rw [register.foldl_mem distinct mem, register.foldl_mem distinct' (perm.mem_iff.mp mem)]
  · have missing : k ∉ ms'.map Prod.fst := fun mem => listed ((perm.map Prod.fst).mem_iff.mpr mem)
    rw [foldl_missing register.other listed, foldl_missing register.other missing]

section Order
variable {assigned : β → γ} (combined : Combined step k get operand g)
  (register : Register step x operand assigned) (distinct : (ms.map Prod.fst).Nodup) {w v : β}
  (second : (k, v) ∈ ms)
include combined register distinct second

/-- Unless the member that assigns the operand comes first, the combination has what the operand
was at the start. -/
theorem Combined.foldl_of_not_before (behind : ¬[x, k].Sublist (ms.map Prod.fst)) (s : σ) :
    get (ms.foldl step s) = g (operand s) v := by
  induction ms generalizing s with
  | nil => cases second
  | cons m ms ih =>
    obtain ⟨fresh, others⟩ := List.nodup_cons.mp distinct
    rcases List.mem_cons.mp second with rfl | later
    · rw [List.foldl_cons, foldl_missing combined.other fresh, combined.own]
    · have name : k ∈ ms.map Prod.fst := List.mem_map_of_mem later
      rw [List.map_cons, List.cons_sublist_cons', List.singleton_sublist, not_or, not_and] at behind
      have differs : m.1 ≠ x := fun same => behind.2 same.symm name
      rw [List.foldl_cons, ih others later behind.1, register.other s m differs]

/-- Behind it, the combination has the assigned value. -/
theorem Combined.foldl_of_before (first : (x, w) ∈ ms) (before : [x, k].Sublist (ms.map Prod.fst))
    (s : σ) : get (ms.foldl step s) = g (assigned w) v := by
  induction ms generalizing s with
  | nil => cases second
  | cons m ms ih =>
    obtain ⟨fresh, others⟩ := List.nodup_cons.mp distinct
    rw [List.map_cons, List.cons_sublist_cons', List.singleton_sublist] at before
    have names : k ∈ ms.map Prod.fst := by
      rcases before with before | before
      · exact before.subset (by simp)
      · exact before.2
    have later : (k, v) ∈ ms := by
      refine (List.mem_cons.mp second).resolve_left ?_
      rintro rfl
      exact fresh names
    rw [List.foldl_cons]
    rcases List.mem_cons.mp first with rfl | first
    · have behind : ¬[x, k].Sublist (ms.map Prod.fst) := fun inner => fresh (inner.subset (by simp))
      rw [combined.foldl_of_not_before register others later behind, register.own]
    · have before := before.resolve_right fun here =>
        fresh (here.1 ▸ List.mem_map_of_mem (f := Prod.fst) first)
      exact ih others later first before (step s m)

end Order

end Folds

end Registers
