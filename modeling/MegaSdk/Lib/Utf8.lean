import Mathlib.Algebra.BigOperators.Group.List.Basic
import Mathlib.Algebra.Ring.Nat

/-!
# The structure of UTF-8

A text as a sequence of bytes that announce how many more belong to them. The values that the
bytes encode do not matter: overlong forms, surrogates and values beyond the last character
have the structure as well. Four bytes stand for two UTF-16 code units, fewer for one.
-/

namespace Utf8

/-- The bytes of a sequence by its first one; no sequence starts with a byte of width 0. -/
def width (lead : UInt8) : ℕ :=
  if lead.toNat < 0x80 then 1
  else if lead.toNat < 0xC0 then 0
  else if lead.toNat < 0xE0 then 2
  else if lead.toNat < 0xF0 then 3
  else if lead.toNat < 0xF8 then 4
  else 0

def IsTail (b : UInt8) : Prop := 0x80 ≤ b.toNat ∧ b.toNat < 0xC0

instance (b : UInt8) : Decidable (IsTail b) := inferInstanceAs (Decidable (_ ∧ _))

def IsSequence : List UInt8 → Prop
  | [] => False
  | lead :: tails => tails.length + 1 = width lead ∧ ∀ b ∈ tails, IsTail b

def units (s : List UInt8) : ℕ := if s.length = 4 then 2 else 1

/-- A text that consists of sequences, with its number of UTF-16 code units. -/
inductive Text : List UInt8 → ℕ → Prop where
  | nil : Text [] 0
  | append {s rest : List UInt8} {n : ℕ} :
      IsSequence s → Text rest n → Text (s ++ rest) (units s + n)

def Valid (text : List UInt8) : Prop := ∃ n, Text text n

theorem width_le (lead : UInt8) : width lead ≤ 4 := by
  rw [width]
  repeat' split
  all_goals omega

section Sequences
variable {s : List UInt8}

theorem IsSequence.length_pos (sequence : IsSequence s) : 0 < s.length := by
  cases s with
  | nil => exact sequence.elim
  | cons lead tails => exact Nat.succ_pos _

theorem IsSequence.length_le (sequence : IsSequence s) : s.length ≤ 4 := by
  cases s with
  | nil => exact sequence.elim
  | cons lead tails => exact sequence.1.trans_le (width_le lead)

theorem units_pos (s : List UInt8) : 0 < units s := by
  rw [units]
  split <;> omega

/-- A sequence has no more code units than bytes. -/
theorem IsSequence.units_le (sequence : IsSequence s) : units s ≤ s.length := by
  have positive := sequence.length_pos
  rw [units]
  split <;> omega

/-- No sequence is the beginning of another one. -/
theorem IsSequence.unique {s' rest rest' : List UInt8} (first : IsSequence s)
    (second : IsSequence s') (same : s ++ rest = s' ++ rest') : s = s' ∧ rest = rest' := by
  cases s with
  | nil => exact first.elim
  | cons lead tails =>
    cases s' with
    | nil => exact second.elim
    | cons lead' tails' =>
      have heads : lead = lead' := (List.cons.inj same).1
      have lengths : tails.length + 1 = tails'.length + 1 := by
        rw [first.1, second.1, heads]
      exact List.append_inj same lengths

end Sequences

/-- A text starts with a sequence if its first byte does not announce more than follows. -/
theorem starts_iff {lead : UInt8} {more : List UInt8} :
    (∃ s rest, lead :: more = s ++ rest ∧ IsSequence s) ↔ 0 < width lead ∧
      width lead ≤ more.length + 1 ∧ ∀ b ∈ more.take (width lead - 1), IsTail b := by
  constructor
  · rintro ⟨s, rest, whole, sequence⟩
    cases s with
    | nil => exact sequence.elim
    | cons lead' tails =>
      rw [List.cons_append] at whole
      obtain ⟨rfl, rfl⟩ := List.cons.inj whole
      have length := sequence.1
      have front : (tails ++ rest).take (width lead - 1) = tails := List.take_left' (by omega)
      rw [front, List.length_append]
      exact ⟨by omega, by omega, sequence.2⟩
  · rintro ⟨positive, enough, tails⟩
    refine ⟨lead :: more.take (width lead - 1), more.drop (width lead - 1), ?_, ?_, tails⟩
    · rw [List.cons_append, List.take_append_drop]
    · rw [List.length_take]
      omega

section Texts
variable {text rest s : List UInt8} {n m : ℕ}

theorem Text.length_le (valid : Text text n) : n ≤ text.length := by
  induction valid with
  | nil => exact Nat.le_refl 0
  | append sequence _ ih =>
    have fewer := sequence.units_le
    rw [List.length_append]
    omega

/-- A text behind a sequence is valid on its own. -/
theorem Text.behind (sequence : IsSequence s) (valid : Text (s ++ rest) n) :
    ∃ m, n = units s + m ∧ Text rest m := by
  generalize whole : s ++ rest = text at valid
  cases valid with
  | nil =>
    have empty : s = [] := (List.append_eq_nil_iff.mp whole).1
    subst empty
    exact sequence.elim
  | append first more =>
    obtain ⟨rfl, rfl⟩ := sequence.unique first whole
    exact ⟨_, rfl, more⟩

theorem valid_append_iff (sequence : IsSequence s) : Valid (s ++ rest) ↔ Valid rest := by
  constructor
  · rintro ⟨n, valid⟩
    obtain ⟨m, -, more⟩ := valid.behind sequence
    exact ⟨m, more⟩
  · rintro ⟨m, more⟩
    exact ⟨_, .append sequence more⟩

theorem valid_nil : Valid [] := ⟨0, .nil⟩

/-- A valid text is empty or starts with a sequence. -/
theorem Valid.starts (valid : Valid text) (nonempty : text ≠ []) :
    ∃ s rest, text = s ++ rest ∧ IsSequence s := by
  obtain ⟨n, valid⟩ := valid
  cases valid with
  | nil => exact absurd rfl nonempty
  | append sequence more => exact ⟨_, _, rfl, sequence⟩

theorem Text.pos (valid : Text text n) (nonempty : text ≠ []) : 0 < n := by
  cases valid with
  | nil => exact absurd rfl nonempty
  | @append s _ _ _ _ =>
    have positive := units_pos s
    omega

theorem Text.unique (first : Text text n) (second : Text text m) : n = m := by
  induction first generalizing m with
  | nil =>
    generalize empty : ([] : List UInt8) = text at second
    cases second with
    | nil => rfl
    | append sequence _ =>
      have length := congrArg List.length empty
      have positive := sequence.length_pos
      rw [List.length_append, List.length_nil] at length
      omega
  | append sequence _ ih =>
    obtain ⟨k, rfl, behind⟩ := second.behind sequence
    rw [ih behind]

/-- More text has more code units. -/
theorem Text.lt_append (first : Text text n) (whole : Text (text ++ rest) m)
    (more : rest ≠ []) : n < m := by
  induction first generalizing m with
  | nil => exact whole.pos more
  | append sequence _ ih =>
    rw [List.append_assoc] at whole
    obtain ⟨k, rfl, behind⟩ := whole.behind sequence
    have less := ih behind
    omega

end Texts

def utf16Size (c : Char) : ℕ := if c.toNat ≤ 0xFFFF then 1 else 2

theorem width_ofNat {n : ℕ} (byte : n < 256) : width (UInt8.ofNat n) =
    if n < 0x80 then 1 else if n < 0xC0 then 0 else if n < 0xE0 then 2
    else if n < 0xF0 then 3 else if n < 0xF8 then 4 else 0 := by
  rw [width, UInt8.toNat_ofNat', Nat.mod_eq_of_lt byte]

theorem isTail_ofNat (n : ℕ) : IsTail (UInt8.ofNat (n % 0x40 + 0x80)) := by
  rw [IsTail, UInt8.toNat_ofNat']
  omega

/-- The encoding of a character is one sequence, with the code units of the character. -/
theorem isSequence_encodeChar (c : Char) : IsSequence (String.utf8EncodeChar c) ∧
    units (String.utf8EncodeChar c) = utf16Size c := by
  have value : c.val.toNat = c.toNat := rfl
  rw [String.utf8EncodeChar, utf16Size, value]
  generalize c.toNat = v
  by_cases one : v ≤ 0x7F
  · have width := width_ofNat (show v < 256 by omega)
    rw [if_pos (by omega)] at width
    simp [one, IsSequence, units, width, show v ≤ 0xFFFF by omega]
  by_cases two : v ≤ 0x7FF
  · have width := width_ofNat (show v / 64 % 0x20 + 0xC0 < 256 by omega)
    rw [if_neg (by omega), if_neg (by omega), if_pos (by omega)] at width
    simp [one, two, IsSequence, units, width, isTail_ofNat, -UInt8.ofNat_add,
      show v ≤ 0xFFFF by omega]
  by_cases three : v ≤ 0xFFFF
  · have width := width_ofNat (show v / 4096 % 0x10 + 0xE0 < 256 by omega)
    rw [if_neg (by omega), if_neg (by omega), if_neg (by omega), if_pos (by omega)] at width
    simp [one, two, three, IsSequence, units, width, isTail_ofNat, -UInt8.ofNat_add]
  · have width := width_ofNat (show v / 262144 % 0x08 + 0xF0 < 256 by omega)
    rw [if_neg (by omega), if_neg (by omega), if_neg (by omega), if_neg (by omega),
      if_pos (by omega)] at width
    simp [one, two, three, IsSequence, units, width, isTail_ofNat, -UInt8.ofNat_add]

/-- Encoded characters are a text with the code units of the characters. -/
theorem text_encode (chars : List Char) :
    Text (chars.flatMap String.utf8EncodeChar) (chars.map utf16Size).sum := by
  induction chars with
  | nil => exact .nil
  | cons c chars ih =>
    obtain ⟨sequence, size⟩ := isSequence_encodeChar c
    rw [List.flatMap_cons, List.map_cons, List.sum_cons, ← size]
    exact .append sequence ih

end Utf8
