import MegaSdk.Crypto.Rsa

/-!
# The private operation

`rsadecrypt` on the power of any number below the modulus, for any two primes. The sign branch of
the recombination never yields a quotient of zero, and an exponent reduced modulo `2 - 1` is zero.
-/

namespace MegaSdk.Crypto

open Residues

/-- A key pair as `genkeypair` builds it, from any two primes and any public exponent. -/
structure RsaKey extends PrivateKey where
  e : Nat
  primeP : p.Prime
  primeQ : q.Prime
  distinct : p ≠ q
  coprimeP : Nat.Coprime e (p - 1)
  coprimeQ : Nat.Coprime e (q - 1)
  inverseE : e * d ≡ 1 [MOD (p - 1).lcm (q - 1)]
  inverseP : u * p ≡ 1 [MOD q]

namespace RsaKey

variable (key : RsaKey) {m : Nat}

def publicKey : PublicKey := ⟨key.p * key.q, key.e⟩

theorem inverseE_p : key.e * key.d ≡ 1 [MOD key.p - 1] :=
  key.inverseE.of_dvd (Nat.dvd_lcm_left _ _)

theorem inverseE_q : key.e * key.d ≡ 1 [MOD key.q - 1] :=
  key.inverseE.of_dvd (Nat.dvd_lcm_right _ _)

/-- What the power modulo the first prime gives back. -/
theorem residueP (m : Nat) :
    powMod (powMod m key.e (key.p * key.q) % key.p) (key.d % (key.p - 1)) key.p =
      if key.p = 2 then 1 else m % key.p := by
  rw [powMod_eq, powMod_eq, Nat.mod_mul_right_mod, ← Nat.pow_mod]
  split
  case isTrue even => simp [even, Nat.mod_one]
  case isFalse odd => exact pow_reduced key.primeP odd key.inverseE_p m

theorem residueQ (m : Nat) :
    powMod (powMod m key.e (key.p * key.q) % key.q) (key.d % (key.q - 1)) key.q =
      if key.q = 2 then 1 else m % key.q := by
  rw [powMod_eq, powMod_eq, Nat.mod_mul_left_mod, ← Nat.pow_mod]
  split
  case isTrue even => simp [even, Nat.mod_one]
  case isFalse odd => exact pow_reduced key.primeQ odd key.inverseE_q m

/-- Where both residues are right, so is the result, except between the second and the first
prime. -/
theorem rsadecrypt_rsaencrypt (range : m < key.p * key.q)
    (odd : key.p = 2 ∨ key.q = 2 → m % 2 = 1) :
    rsadecrypt key.toPrivateKey (rsaencrypt key.publicKey m) =
      if key.q ≤ m ∧ m < key.p then m + key.p * key.q else m := by
  have right (r : Nat) (two : r = 2 → m % 2 = 1) : (if r = 2 then 1 else m % r) = m % r := by
    split
    case isTrue even => rw [even, two even]
    case isFalse => rfl
  rw [rsadecrypt, rsaencrypt, publicKey, key.residueP, key.residueQ,
    right key.p fun even => odd (Or.inl even), right key.q fun even => odd (Or.inr even)]
  exact recombine_eq key.inverseP range

/-- Modulo 2 the result is always 1. -/
theorem rsadecrypt_odd (two : key.p = 2 ∨ key.q = 2) (m : Nat) :
    rsadecrypt key.toPrivateKey (rsaencrypt key.publicKey m) % 2 = 1 := by
  rw [rsadecrypt, rsaencrypt, publicKey, key.residueP, key.residueQ]
  rcases two with even | even
  · have residue := recombine_modEq_left key.p key.q key.u 1 (if key.q = 2 then 1 else m % key.q)
    rw [if_pos even]
    rw [even] at residue ⊢
    exact residue
  · have residue : recombine key.p key.q key.u (if key.p = 2 then 1 else m % key.p) 1 ≡ 1
        [MOD key.q] := recombine_modEq_right key.inverseP key.primeQ.pos
    rw [if_pos even]
    rw [even] at residue ⊢
    exact residue

/-- The private operation undoes the public one exactly on the numbers that do not lie between the
second and the first prime and, if one of the primes is 2, are odd. -/
theorem private_undoes_public_iff (range : m < key.p * key.q) :
    rsadecrypt key.toPrivateKey (rsaencrypt key.publicKey m) = m ↔
      ¬(key.q ≤ m ∧ m < key.p) ∧ (key.p = 2 ∨ key.q = 2 → m % 2 = 1) := by
  by_cases odd : key.p = 2 ∨ key.q = 2 → m % 2 = 1
  · rw [key.rsadecrypt_rsaencrypt range odd, and_iff_left odd]
    have positive : 0 < key.p * key.q := Nat.mul_pos key.primeP.pos key.primeQ.pos
    split
    case isTrue between => exact ⟨fun same => by omega, fun outside => absurd between outside⟩
    case isFalse outside => exact ⟨fun _ => outside, fun _ => rfl⟩
  · obtain ⟨two, even⟩ : (key.p = 2 ∨ key.q = 2) ∧ ¬m % 2 = 1 := Classical.not_imp.mp odd
    have result := key.rsadecrypt_odd two m
    exact ⟨fun same => absurd (same ▸ result) even, fun holds => absurd holds.2 odd⟩

end RsaKey

def smallKey : RsaKey where
  p := 7
  q := 5
  d := 5
  u := 3
  e := 5
  primeP := Nat.prime_seven
  primeQ := Nat.prime_five
  distinct := by decide
  coprimeP := by decide
  coprimeQ := by decide
  inverseE := by decide
  inverseP := by decide

theorem smallKey_undoes :
    rsadecrypt smallKey.toPrivateKey (rsaencrypt smallKey.publicKey 34) = 34 :=
  (RsaKey.private_undoes_public_iff smallKey (by decide)).mpr (by decide)

/-- Of 5 the recipient gets 40. -/
theorem smallKey_between :
    rsadecrypt smallKey.toPrivateKey (rsaencrypt smallKey.publicKey 5) ≠ 5 := by
  decide

end MegaSdk.Crypto
