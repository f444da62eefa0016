import MegaSdk.Json.Reading
import Mathlib.Algebra.Group.Int.Defs

/-!
# Decimal numbers

Numbers as `sprintf` writes them with `%d`, `%u` and `%lld`, and as `atoi`, `atoll` and the scanner
read them back.
-/

namespace MegaSdk.Json

/-- `%u`. -/
def decimal (n : Nat) : Bytes := ascii (toString n)

/-- `%d`. -/
def signedDecimal : Int → Bytes
  | .ofNat n => decimal n
  | .negSucc n => minus :: decimal (n + 1)

/-- The byte of a digit. -/
theorem toUInt8_digit {c : Char} (digit : c.isDigit) :
    isDigit c.toNat.toUInt8 ∧ c.toNat.toUInt8.toNat = c.toNat := by
  rw [Char.isDigit, Bool.and_eq_true, decide_eq_true_eq, decide_eq_true_eq] at digit
  have low : 48 ≤ c.toNat := digit.1
  have high : c.toNat ≤ 57 := digit.2
  have value : c.toNat.toUInt8.toNat = c.toNat :=
    UInt8.toNat_ofNat_of_lt' (Nat.lt_of_le_of_lt high (by decide))
  refine ⟨?_, value⟩
  rw [isDigit, Bool.and_eq_true, decide_eq_true_eq, decide_eq_true_eq, UInt8.le_iff_toNat_le,
    UInt8.le_iff_toNat_le, value]
  exact ⟨low, high⟩

theorem decimal_eq (n : Nat) :
    decimal n = (Nat.toDigits 10 n).map fun c => c.toNat.toUInt8 := by
  rw [decimal, ascii, Nat.toString_eq_repr, Nat.toList_repr]

theorem decimal_ne_nil (n : Nat) : decimal n ≠ [] := by
  rw [decimal_eq, ne_eq, List.map_eq_nil_iff]
  exact Nat.toDigits_ne_nil

theorem isDigit_decimal {n : Nat} {c : UInt8} (mem : c ∈ decimal n) : isDigit c := by
  rw [decimal_eq] at mem
  obtain ⟨d, digit, rfl⟩ := List.mem_map.mp mem
  exact (toUInt8_digit (Nat.isDigit_of_mem_toDigits (by decide) (by decide) digit)).1

theorem foldl_digits {digits : List Char} (all : ∀ c ∈ digits, c.isDigit) (n : Nat) :
    (digits.map fun c => c.toNat.toUInt8).foldl (fun n c => 10 * n + (c.toNat - 48)) n =
      Nat.ofDigitChars 10 digits n := by
  induction digits generalizing n with
  | nil => rfl
  | cons c digits ih =>
    obtain ⟨first, others⟩ := List.forall_mem_cons.mp all
    rw [List.map_cons, List.foldl_cons, ih others, Nat.ofDigitChars_cons, (toUInt8_digit first).2]
    rfl

section Reads
variable {rest : Text}

theorem leadingDigits_decimal (n : Nat) (stop : isDigit (peek rest) = false) :
    leadingDigits (decimal n ++ rest) = n := by
  have digits : ∀ c ∈ decimal n, isDigit c := fun c => isDigit_decimal
  have behind : rest.takeWhile isDigit = [] := by
    cases rest with
    | nil => rfl
    | cons c rest => exact List.takeWhile_cons_of_neg (by simpa [peek] using stop)
  have read : (decimal n ++ rest).takeWhile isDigit = decimal n := by
    rw [List.takeWhile_append_of_pos digits, behind, List.append_nil]
  rw [leadingDigits, read, decimal_eq,
    foldl_digits fun c => Nat.isDigit_of_mem_toDigits (by decide) (by decide)]
  exact Nat.ofDigitChars_ten_toDigits

theorem peek_decimal (n : Nat) (rest : Text) : isDigit (peek (decimal n ++ rest)) := by
  rw [peek_append (decimal_ne_nil n)]
  obtain ⟨c, digits, text⟩ := List.exists_cons_of_ne_nil (decimal_ne_nil n)
  rw [text, peek_cons]
  exact isDigit_decimal (text ▸ List.mem_cons_self)

theorem leadingInteger_decimal (n : Nat) (stop : isDigit (peek rest) = false) :
    leadingInteger (decimal n ++ rest) = n := by
  have first := peek_decimal n rest
  obtain ⟨c, tail, text⟩ := List.exists_cons_of_ne_nil
    (List.append_ne_nil_of_left_ne_nil (decimal_ne_nil n) rest)
  have digits := leadingDigits_decimal n stop
  rw [text] at first digits ⊢
  rw [peek_cons] at first
  rw [leadingInteger_digit first, digits]

theorem isNumber_decimal (n : Nat) : isNumber (decimal n) := by
  have all : ∀ c ∈ decimal n, isDigit c := fun c => isDigit_decimal
  obtain ⟨c, tail, text⟩ := List.exists_cons_of_ne_nil (decimal_ne_nil n)
  rw [text] at all ⊢
  obtain ⟨first, others⟩ := List.forall_mem_cons.mp all
  have plain : c ≠ minus := by
    rintro rfl
    cases first
  simp only [isNumber, if_neg plain, Bool.and_eq_true, List.all_eq_true]
  refine ⟨first, fun d mem => ?_⟩
  rw [isNumberTail, others d mem, Bool.true_or, Bool.true_or, Bool.true_or]

theorem isValue_decimal (n : Nat) : IsValue (decimal n) := .num (isNumber_decimal n)

theorem isValue_signedDecimal (i : Int) : IsValue (signedDecimal i) := by
  cases i with
  | ofNat n => exact isValue_decimal n
  | negSucc n =>
    refine .num ?_
    have all : ∀ c ∈ decimal (n + 1), isDigit c := fun c => isDigit_decimal
    obtain ⟨c, tail, text⟩ := List.exists_cons_of_ne_nil (decimal_ne_nil (n + 1))
    rw [text] at all
    obtain ⟨first, others⟩ := List.forall_mem_cons.mp all
    simp only [signedDecimal, text, isNumber, if_true, Bool.and_eq_true, List.all_eq_true]
    refine ⟨first, fun d mem => ?_⟩
    rw [isNumberTail, others d mem, Bool.true_or, Bool.true_or, Bool.true_or]

end Reads

end MegaSdk.Json
