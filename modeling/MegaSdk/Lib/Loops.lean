import Mathlib.Algebra.Order.BigOperators.Group.List
import Mathlib.Algebra.Order.Group.Nat
import Mathlib.Algebra.Ring.Nat

/-!
# Loops with a measure

An endless loop as rounds that return or start over, under inputs that the environment chooses
for each round. A measure that every repeated round lowers bounds their number.
-/

namespace Loops

universe u v w
variable {State : Type u} {Input : Type v} {Result : Type w}

inductive Round (State : Type u) (Result : Type w) where
  | done (r : Result)
  | again (s : State)

/-- At most `fuel` rounds: how many of them started over, and the result. -/
def loop (round : State → Input → Round State Result) :
    ℕ → (ℕ → Input) → State → Option (ℕ × Result)
  | 0, _, _ => none
  | fuel + 1, inputs, s =>
    match round s (inputs 0) with
    | .done r => some (0, r)
    | .again s =>
      (loop round fuel (fun n => inputs (n + 1)) s).map fun ended => (ended.1 + 1, ended.2)

variable {round : State → Input → Round State Result}

/-- If repeated rounds keep an invariant and lower a measure, the loop returns, after no more of
them than the measure says. -/
theorem loop_returns {Inv : State → Prop} {Post : Result → Prop} (measure : State → ℕ)
    (again : ∀ s i s', Inv s → round s i = .again s' → Inv s' ∧ measure s' < measure s)
    (done : ∀ s i r, Inv s → round s i = .done r → Post r) {fuel : ℕ} {s : State} (inv : Inv s)
    (enough : measure s < fuel) (inputs : ℕ → Input) :
    ∃ n r, loop round fuel inputs s = some (n, r) ∧ n ≤ measure s ∧ Post r := by
  induction fuel generalizing s inputs with
  | zero => exact absurd enough (Nat.not_lt_zero _)
  | succ fuel ih =>
    rw [loop]
    cases turn : round s (inputs 0) with
    | done r => exact ⟨0, r, rfl, Nat.zero_le _, done s _ r inv turn⟩
    | again s' =>
      obtain ⟨kept, less⟩ := again s _ s' inv turn
      obtain ⟨n, r, ended, bound, post⟩ := ih kept (by omega) fun n => inputs (n + 1)
      refine ⟨n + 1, r, ?_, by omega, post⟩
      simp only [ended, Option.map_some]

/-- A sum over part of a list with lower weights, one of which counts, is lower. -/
theorem sum_lt_of_lower {α : Type u} {part whole : List α} {lower weight : α → ℕ}
    (sub : part.Sublist whole) (each : ∀ x, lower x ≤ weight x)
    (some : ∃ x ∈ whole, lower x < weight x) :
    (part.map lower).sum < (whole.map weight).sum := by
  have shorter : (part.map lower).sum ≤ (whole.map lower).sum :=
    List.Sublist.sum_le_sum (sub.map lower) fun _ _ => Nat.zero_le _
  exact Nat.lt_of_le_of_lt shorter (List.sum_lt_sum _ _ (fun x _ => each x) some)

end Loops
