import Mathlib.FieldTheory.Finite.Basic
import Mathlib.NumberTheory.LucasPrimality

/-!
# Powers and recombination of residues

Exponents may be reduced modulo `p - 1` under a prime `p`, and a number below a product of
two coprime factors is determined by its residues. The recombination is Garner's, on natural
numbers: where the difference of the residues is negative, its inverse is subtracted from
the modulus, and that leads out of the range when nothing is to be subtracted.
-/

namespace Residues

/-- Square and multiply, for exponents below `2 ^ bits`. -/
def squareMultiply (m : Nat) : Nat → Nat → Nat → Nat
  | 0, _, _ => 1 % m
  | bits + 1, x, e =>
    if e % 2 = 0 then squareMultiply m bits (x * x % m) (e / 2)
    else x * squareMultiply m bits (x * x % m) (e / 2) % m

def powMod (x e m : Nat) : Nat := squareMultiply m (e.log2 + 1) x e

theorem squareMultiply_eq (m : Nat) {bits e : Nat} (x : Nat) (fits : e < 2 ^ bits) :
    squareMultiply m bits x e = x ^ e % m := by
  induction bits generalizing x e with
  | zero =>
    obtain rfl : e = 0 := by simpa using fits
    rw [squareMultiply, pow_zero]
  | succ bits ih =>
    have half : squareMultiply m bits (x * x % m) (e / 2) = x ^ (2 * (e / 2)) % m := by
      rw [ih _ (by omega), ← Nat.pow_mod, pow_mul, sq]
    rw [squareMultiply, half]
    by_cases even : e % 2 = 0
    · rw [if_pos even, show 2 * (e / 2) = e by omega]
    · rw [if_neg even, Nat.mul_mod_mod, ← pow_succ', show 2 * (e / 2) + 1 = e by omega]

theorem powMod_eq (x e m : Nat) : powMod x e m = x ^ e % m :=
  squareMultiply_eq m x Nat.lt_log2_self

/-- A generator of the residues proves a number prime, by the prime factors of its
predecessor. -/
theorem prime_of_generator {p : Nat} (g : Nat) (factors : List Nat) (two : 2 ≤ p)
    (complete : ∀ r, r.Prime → r ∣ p - 1 → r ∈ factors) (order : powMod g (p - 1) p = 1)
    (proper : ∀ r ∈ factors, powMod g ((p - 1) / r) p ≠ 1) : p.Prime := by
  have residue (n : Nat) : (g : ZMod p) ^ n = 1 ↔ powMod g n p = 1 := by
    rw [powMod_eq, ← Nat.cast_pow, ← Nat.cast_one, ZMod.natCast_eq_natCast_iff, Nat.ModEq,
      Nat.mod_eq_of_lt (by omega : 1 < p)]
  apply lucas_primality p (g : ZMod p)
  · exact (residue _).mpr order
  · intro r prime divides one
    exact proper r (complete r prime divides) ((residue _).mp one)

/-- Fermat: exponents that are 1 modulo `p - 1` do not change a residue. -/
theorem pow_mod_prime {p a : Nat} (prime : p.Prime) (positive : 0 < a) (one : a ≡ 1 [MOD p - 1])
    (x : Nat) : x ^ a ≡ x [MOD p] := by
  have := Fact.mk prime
  obtain ⟨k, rfl⟩ : ∃ k, a = 1 + (p - 1) * k := by
    obtain ⟨k, more⟩ := (Nat.modEq_iff_dvd' positive).mp one.symm
    exact ⟨k, by omega⟩
  rw [← ZMod.natCast_eq_natCast_iff]
  push_cast
  by_cases zero : (x : ZMod p) = 0
  · rw [zero, pow_add, pow_one, zero_mul]
  · rw [pow_add, pow_one, pow_mul, ZMod.pow_card_sub_one_eq_one zero, one_pow, mul_one]

/-- A power with a reduced inverse exponent undoes a power. -/
theorem pow_reduced {p e d : Nat} (prime : p.Prime) (odd : p ≠ 2) (inverse : e * d ≡ 1 [MOD p - 1])
    (x : Nat) : (x ^ e) ^ (d % (p - 1)) ≡ x [MOD p] := by
  have reduced : e * (d % (p - 1)) ≡ 1 [MOD p - 1] :=
    ((Nat.mod_modEq d (p - 1)).mul_left e).trans inverse
  have positive : 0 < e * (d % (p - 1)) := by
    rw [Nat.pos_iff_ne_zero]
    intro zero
    rw [zero, Nat.ModEq, Nat.zero_mod, Nat.mod_eq_of_lt] at reduced
    · cases reduced
    · have two := prime.two_le
      omega
  rw [← pow_mul]
  exact pow_mod_prime prime positive reduced x

/-- The same with the two powers in the other order. -/
theorem reduced_pow {p e d : Nat} (prime : p.Prime) (odd : p ≠ 2) (inverse : e * d ≡ 1 [MOD p - 1])
    (x : Nat) : (x ^ (d % (p - 1))) ^ e ≡ x [MOD p] := by
  have commute : (x ^ (d % (p - 1))) ^ e = (x ^ e) ^ (d % (p - 1)) := by
    rw [← pow_mul, ← pow_mul, mul_comm]
  rw [commute]
  exact pow_reduced prime odd inverse x

def recombine (p q u xp xq : Nat) : Nat :=
  (if xq < xp then q - (xp - xq) * u % q else (xq - xp) * u % q) * p + xp

variable {p q u x : Nat}

/-- The quotient is the difference of the residues times the inverse of the divisor. -/
theorem quotient_le (inverse : u * p ≡ 1 [MOD q]) (small : x / p < q) (le : x % p ≤ x % q) :
    (x % q - x % p) * u % q = x / p := by
  have parts : p * (x / p) + x % p ≡ x % q [MOD q] := by
    rw [Nat.div_add_mod]
    exact (Nat.mod_modEq x q).symm
  have difference : p * (x / p) ≡ x % q - x % p [MOD q] := by
    refine Nat.ModEq.add_right_cancel' (x % p) ?_
    rwa [Nat.sub_add_cancel le]
  have value : (x % q - x % p) * u ≡ x / p [MOD q] := by
    calc (x % q - x % p) * u ≡ p * (x / p) * u [MOD q] := (difference.mul_right u).symm
      _ = u * p * (x / p) := by ring
      _ ≡ 1 * (x / p) [MOD q] := inverse.mul_right (x / p)
      _ = x / p := one_mul _
  rw [Nat.ModEq, Nat.mod_eq_of_lt small] at value
  exact value

theorem quotient_gt (inverse : u * p ≡ 1 [MOD q]) (small : x / p < q) (gt : x % q < x % p) :
    (x % p - x % q) * u % q = (q - x / p) % q := by
  have parts : p * (x / p) + x % p ≡ x % q [MOD q] := by
    rw [Nat.div_add_mod]
    exact (Nat.mod_modEq x q).symm
  have difference : p * (x / p) + (x % p - x % q) ≡ 0 [MOD q] := by
    refine Nat.ModEq.add_right_cancel' (x % q) ?_
    rw [add_assoc, Nat.sub_add_cancel gt.le, zero_add]
    exact parts
  have sum : (x % p - x % q) * u + x / p ≡ q - x / p + x / p [MOD q] := by
    calc (x % p - x % q) * u + x / p
        ≡ (x % p - x % q) * u + u * p * (x / p) [MOD q] :=
          (((inverse.mul_right (x / p)).trans (by rw [one_mul])).symm).add_left _
      _ = (p * (x / p) + (x % p - x % q)) * u := by ring
      _ ≡ 0 * u [MOD q] := difference.mul_right u
      _ ≡ q - x / p + x / p [MOD q] := by
        rw [Nat.sub_add_cancel small.le, zero_mul]
        exact (Nat.modEq_zero_iff_dvd.mpr dvd_rfl).symm
  exact Nat.ModEq.add_right_cancel' (x / p) sum

/-- The recombination gives the number back, except for numbers between the second and the
first factor, to which it adds the product. -/
theorem recombine_eq (inverse : u * p ≡ 1 [MOD q]) (range : x < p * q) :
    recombine p q u (x % p) (x % q) = if q ≤ x ∧ x < p then x + p * q else x := by
  have positive : 0 < p := by
    rcases Nat.eq_zero_or_pos p with rfl | positive
    · omega
    · exact positive
  have small : x / p < q := (Nat.div_lt_iff_lt_mul positive).mpr (by rwa [mul_comm])
  have whole : x / p * p + x % p = x := by rw [mul_comm]; exact Nat.div_add_mod x p
  rw [recombine]
  by_cases gt : x % q < x % p
  · rw [if_pos gt, quotient_gt inverse small gt]
    rcases Nat.eq_zero_or_pos (x / p) with zero | some
    · have below : x < p := by rwa [Nat.div_eq_zero_iff_lt positive] at zero
      rw [zero, Nat.sub_zero, Nat.mod_self, Nat.sub_zero, Nat.mod_eq_of_lt below]
      have above : q ≤ x := by
        by_contra under
        rw [Nat.mod_eq_of_lt below, Nat.mod_eq_of_lt (by omega)] at gt
        exact lt_irrefl x gt
      rw [if_pos ⟨above, below⟩, add_comm, mul_comm]
    · have least : p ≤ x := by
        by_contra under
        rw [Nat.div_eq_of_lt (by omega)] at some
        exact lt_irrefl 0 some
      rw [Nat.mod_eq_of_lt (show q - x / p < q by omega), Nat.sub_sub_self small.le,
        if_neg (fun both => absurd both.2 (by omega))]
      exact whole
  · rw [if_neg gt, quotient_le inverse small (by omega), if_neg]
    · exact whole
    · rintro ⟨above, below⟩
      rw [Nat.mod_eq_of_lt below] at gt
      exact gt (lt_of_lt_of_le (Nat.mod_lt x (lt_of_le_of_lt (Nat.zero_le _) small)) above)

/-- The recombined number has the first residue. -/
theorem recombine_modEq_left (p q u xp xq : Nat) : recombine p q u xp xq ≡ xp [MOD p] := by
  rw [recombine, Nat.ModEq, Nat.mul_add_mod_self_right]

/-- It has the second residue as well. -/
theorem recombine_modEq_right {xp xq : Nat} (inverse : u * p ≡ 1 [MOD q]) (positive : 0 < q) :
    recombine p q u xp xq ≡ xq [MOD q] := by
  have undo (n : Nat) : n * u % q * p ≡ n [MOD q] := by
    calc n * u % q * p ≡ n * u * p [MOD q] := (Nat.mod_modEq _ _).mul_right p
      _ = n * (u * p) := by ring
      _ ≡ n * 1 [MOD q] := inverse.mul_left n
      _ = n := mul_one n
  rw [recombine]
  split
  case isTrue gt =>
    -- What is subtracted from the modulus is the difference of the residues.
    have within : (xp - xq) * u % q ≤ q := (Nat.mod_lt _ positive).le
    have whole : (q - (xp - xq) * u % q) * p + (xp - xq) * u % q * p = q * p := by
      rw [← add_mul, Nat.sub_add_cancel within]
    calc (q - (xp - xq) * u % q) * p + xp
        = (q - (xp - xq) * u % q) * p + (xp - xq) + xq := by omega
      _ ≡ (q - (xp - xq) * u % q) * p + (xp - xq) * u % q * p + xq [MOD q] :=
          ((undo (xp - xq)).symm.add_left _).add_right _
      _ = q * p + xq := by rw [whole]
      _ ≡ xq [MOD q] := by rw [Nat.ModEq, Nat.mul_add_mod]
  case isFalse le =>
    calc (xq - xp) * u % q * p + xp ≡ xq - xp + xp [MOD q] := (undo (xq - xp)).add_right xp
      _ = xq := Nat.sub_add_cancel (by omega)

end Residues
