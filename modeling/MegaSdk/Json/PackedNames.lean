import MegaSdk.Json.Members
import Mathlib.Data.List.Basic
import Mathlib.Data.List.Induction
import Mathlib.Data.Nat.ModEq

/-!
# Packed names

`getnameid` packs a name into 64 bits, character by character. A short name is the only one
with its packed form.
-/

namespace MegaSdk.Json

/-- Packing appends the character, up to the borrow of a character from 128 on. -/
theorem toNat_pack (id : UInt64) (c : UInt8) :
    (pack id c).toNat + (if c < 128 then 0 else 256) ≡ id.toNat * 256 + c.toNat [MOD 2 ^ 64] := by
  have bound := c.toNat_lt
  rw [Nat.ModEq, pack, UInt64.toNat_add, UInt64.toNat_shiftLeft, Nat.shiftLeft_eq]
  split
  · rw [UInt8.toNat_toUInt64]
    simp
  · rw [UInt64.toNat_sub, UInt8.toNat_toUInt64]
    simp
    omega

theorem pack_inj {id id' : UInt64} {c c' : UInt8} {k : Nat} (small : k < 8)
    (same : (pack id c).toNat ≡ (pack id' c').toNat [MOD 256 ^ (k + 1)]) :
    c = c' ∧ id.toNat ≡ id'.toNat [MOD 256 ^ k] := by
  have whole : 256 ^ (k + 1) ∣ 2 ^ 64 := by
    have word : (2 : Nat) ^ 64 = 256 ^ 8 := by norm_num
    rw [word]
    exact Nat.pow_dvd_pow 256 small
  have first := (toNat_pack id c).of_dvd whole
  have second := (toNat_pack id' c').of_dvd whole
  have low : (256 : Nat) ∣ 256 ^ (k + 1) := Dvd.intro_left _ rfl
  have last : c = c' := by
    have bound := c.toNat_lt
    have bound' := c'.toNat_lt
    have first := first.of_dvd low
    have second := second.of_dvd low
    have same := same.of_dvd low
    unfold Nat.ModEq at first second same
    apply UInt8.toNat.inj
    split at first <;> split at second <;> omega
  subst last
  have sum : id.toNat * 256 + c.toNat ≡ id'.toNat * 256 + c.toNat [MOD 256 ^ (k + 1)] :=
    first.symm.trans ((same.add_right _).trans second)
  exact ⟨rfl, Nat.ModEq.mul_right_cancel' (by decide) (Nat.ModEq.add_right_cancel' _ sum)⟩

theorem nameid_concat (name : Bytes) (c : UInt8) : nameid (name ++ [c]) = pack (nameid name) c := by
  rw [nameid, List.foldl_append]
  rfl

theorem nameid_modEq_inj {y : Bytes} : ∀ {x : Bytes} {k : Nat}, (0 : UInt8) ∉ x → (0 : UInt8) ∉ y →
    y.length < k → k ≤ 8 → (nameid x).toNat ≡ (nameid y).toNat [MOD 256 ^ k] → x = y := by
  -- a text that is over before the other one would need a NUL
  have longer : ∀ {x : Bytes} {c : UInt8} {k : Nat}, (0 : UInt8) ∉ x ++ [c] → k < 8 →
      ¬(nameid (x ++ [c])).toNat ≡ 0 [MOD 256 ^ (k + 1)] := by
    intro x c k nonzero small same
    rw [nameid_concat] at same
    have zero : (pack 0 0).toNat = 0 := rfl
    rw [← zero] at same
    have last := (pack_inj small same).1
    rw [last] at nonzero
    exact nonzero (by simp)
  induction y using List.reverseRecOn with
  | nil =>
    intro x k nonzero _ short small same
    obtain ⟨k, rfl⟩ : ∃ j, k = j + 1 := ⟨k - 1, by simp at short; omega⟩
    rcases List.eq_nil_or_concat' x with rfl | ⟨front, c, rfl⟩
    · rfl
    · exact absurd same (longer nonzero (by omega))
  | append_singleton y d ih =>
    intro x k nonzero nonzero' short small same
    rw [List.length_append, List.length_singleton] at short
    obtain ⟨k, rfl⟩ : ∃ j, k = j + 1 := ⟨k - 1, by omega⟩
    rcases List.eq_nil_or_concat' x with rfl | ⟨front, c, rfl⟩
    · exact absurd same.symm (longer nonzero' (by omega))
    · rw [nameid_concat, nameid_concat] at same
      obtain ⟨rfl, front'⟩ := pack_inj (by omega) same
      rw [List.mem_append, not_or] at nonzero nonzero'
      rw [ih nonzero.1 nonzero'.1 (by omega) (by omega) front']

/-- A name of at most seven characters has its packed form alone. -/
theorem nameid_eq_iff {x y : Bytes} (nonzero : (0 : UInt8) ∉ x) (nonzero' : (0 : UInt8) ∉ y)
    (short : y.length < 8) : nameid x = nameid y ↔ x = y := by
  constructor
  · intro same
    exact nameid_modEq_inj nonzero nonzero' short le_rfl (by rw [same])
  · exact congrArg nameid

end MegaSdk.Json
