import Mathlib.Data.Nat.Digits.Defs

/-!
# Odometers

A row of digits in a fixed base, least significant first, advanced by one with a carry. Its
number goes round: it takes every value once before it comes back to the first.
-/

namespace Odometer

variable {b : ℕ}

/-- Add one: a digit that would reach the base becomes zero and carries. -/
def advance (b : ℕ) : List ℕ → List ℕ
  | [] => []
  | d :: rest => if d + 1 < b then (d + 1) :: rest else 0 :: advance b rest

/-- The number goes up by one, and from the greatest back to zero. -/
theorem ofDigits_advance (base : 1 < b) {ds : List ℕ} (digits : ∀ d ∈ ds, d < b) :
    Nat.ofDigits b (advance b ds) = (Nat.ofDigits b ds + 1) % b ^ ds.length := by
  induction ds with
  | nil => simp [advance]
  | cons d rest ih =>
    obtain ⟨first, others⟩ := List.forall_mem_cons.mp digits
    have bound := Nat.ofDigits_lt_base_pow_length base others
    rw [advance, List.length_cons, Nat.pow_succ', Nat.ofDigits_cons]
    split
    · have room : b * (Nat.ofDigits b rest + 1) ≤ b * b ^ rest.length :=
        Nat.mul_le_mul_left b bound
      rw [Nat.mul_add] at room
      rw [Nat.ofDigits_cons, Nat.mod_eq_of_lt (by omega)]
      omega
    · have carry : d + b * Nat.ofDigits b rest + 1 = b * (Nat.ofDigits b rest + 1) := by
        rw [Nat.mul_add]
        omega
      rw [Nat.ofDigits_cons, ih others, carry, Nat.mul_mod_mul_left, Nat.zero_add]

/-- Two numbers less than one round apart differ. -/
theorem ne_of_within {start i j round : ℕ} (later : i < j) (within : j < i + round) :
    (start + i) % round ≠ (start + j) % round := by
  intro same
  have whole : round ∣ (start + j) - (start + i) :=
    Nat.dvd_of_mod_eq_zero (Nat.sub_mod_eq_zero_of_mod_eq same.symm)
  have gap : (start + j) - (start + i) = j - i := by omega
  rw [gap] at whole
  have bound := Nat.le_of_dvd (by omega) whole
  omega

end Odometer
