import MegaSdk.Json.Cursor
import MegaSdk.Crypto.SymmCipher
import MegaSdk.Lib.RecordReader
import MegaSdk.Lib.Utf8

/-!
# Password keys

`MegaClient::str_to_a32` and `MegaClient::pw_key`. Lengths and positions are ints of 32 bits:
`wild` stands for a value that leaves their range, an access outside of an array, and an array
of negative length.
-/

namespace MegaSdk.Crypto.PasswordKey

open ByteOrder RecordReader Utf8
open Json (CString)

def maxInt : Int := 2147483647

/-- `int t = strlen(str)`: the low 32 bits of the length. -/
def strlen (str : CString) : Int := (Int32.ofNat str.nul).toInt

/-- `str[i]`, as far as the NUL. -/
def charAt (str : CString) (i : Nat) : Read UInt8 :=
  match (str.bytes ++ [0])[i]? with
  | some c => .ok c
  | none => .wild

/-- The test of a continuation byte, and its six bits. -/
def tail (str : CString) (i : Nat) : Read UInt32 :=
  (charAt str i).bind fun c =>
    if c &&& 0xc0 ≠ 0x80 then .null else .ok (c &&& 0x3f).toUInt32

/-- The surrogates of a four-byte character, like the JavaScript code. -/
def surrogates (unicode : UInt32) : List UInt32 :=
  let plane : UInt32 := unicode >>> 16
  let middle : UInt32 := unicode >>> 10
  let hi : UInt32 := 0xd800 ||| (middle &&& 0x3f) ||| (plane - 1) <<< (6 : UInt32)
  let low : UInt32 := 0xdc00 ||| (unicode &&& 0x3ff)
  [hi, low]

/-- The body of the loop up to its writes: what is written, and the next position. -/
def readSequence (str : CString) (t i : Nat) : Read (List UInt32 × Nat) :=
  (charAt str i).bind fun c =>
    let i := i + 1
    if c &&& 0x80 = 0 then .ok ([c.toUInt32], i)
    else if c &&& 0xe0 = 0xc0 then
      if i ≥ t then .null
      else
        (tail str i).bind fun c1 =>
          .ok ([(c &&& 0x1f).toUInt32 <<< 6 ||| c1], i + 1)
    else if c &&& 0xf0 = 0xe0 then
      if i + 2 > t then .null
      else
        (tail str i).bind fun c1 =>
          (tail str (i + 1)).bind fun c2 =>
            .ok ([(c &&& 0x0f).toUInt32 <<< 12 ||| c1 <<< 6 ||| c2], i + 2)
    else if c &&& 0xf8 = 0xf0 then
      if i + 3 > t then .null
      else
        (tail str i).bind fun c1 =>
          (tail str (i + 1)).bind fun c2 =>
            (tail str (i + 2)).bind fun c3 =>
              .ok (surrogates ((c &&& 0x07).toUInt32 <<< 18 ||| c1 <<< 12 ||| c2 <<< 6 ||| c3),
                i + 3)
    else .null

/-- `a32[j >> 2] |= htonl(unicode << (24 - (j & 3) * 8))`, on words in network order. -/
def put (a32 : List UInt32) (j : Nat) (unicode : UInt32) : Read (List UInt32) :=
  match a32[j / 4]? with
  | some word => .ok (a32.set (j / 4) (word ||| unicode <<< UInt32.ofNat (24 - j % 4 * 8)))
  | none => .wild

/-- The writes of one pass, each with its `j++`. -/
def putAll (a32 : List UInt32) (j : Nat) : List UInt32 → Read (List UInt32 × Nat)
  | [] => .ok (a32, j)
  | unicode :: more => (put a32 j unicode).bind fun a32 => putAll a32 (j + 1) more

/-- `while (i < t)`, for at most `rounds` passes. -/
def convert (str : CString) (t : Nat) : Nat → Nat → Nat → List UInt32 → Read (List UInt32 × Nat)
  | 0, _, _, _ => .wild
  | rounds + 1, i, j, a32 =>
    if i < t then
      (readSequence str t i).bind fun (written, i) =>
        (putAll a32 j written).bind fun (a32, j) => convert str t rounds i j a32
    else .ok (a32, j)

/-- `str_to_a32`: the words of the buffer and `*len`, or `null` for invalid UTF-8. -/
def strToA32 (str : CString) : Read (List UInt32 × Nat) :=
  let t := strlen str
  if t + 3 > maxInt then .wild
  else
    let t2 := 4 * ((t + 3) / 4)
    if t2 < 0 then .wild
    else convert str t.toNat (t.toNat + 1) 0 0 (List.replicate (t2.toNat / 4) 0)

def bufferBytes (a32 : List UInt32) : Bytes := a32.flatMap fun word => beBytes 4 word.toNat

/-- `n`, the number of blocks. -/
def blockCount (t : Nat) : Nat := (t + 15) / 16

/-- `valid`, the bytes that block `i` takes from the buffer. -/
def validLength (t i : Nat) : Int := if i ≠ blockCount t - 1 then 16 else t - 16 * i

/-- The `memcpy` and the `memset` that fill `key`. -/
def copyBlock (pw : Bytes) (t i : Nat) : Read Block :=
  let valid := validLength t i
  if 0 ≤ valid ∧ valid ≤ 16 ∧ 16 * i + valid ≤ pw.length then
    .ok (load ((pw.drop (16 * i)).take valid.toNat))
  else .wild

/-- The keys of `n` blocks from block `i` on. -/
def copyBlocks (pw : Bytes) (t : Nat) : Nat → Nat → Read (List Block)
  | 0, _ => .ok []
  | n + 1, i =>
    (copyBlock pw t i).bind fun key =>
      (copyBlocks pw t n (i + 1)).bind fun keys => .ok (key :: keys)

def keyBlocks (pw : Bytes) (t : Nat) : Read (List Block) :=
  if (t + 15 : Int) > maxInt then .wild else copyBlocks pw t (blockCount t) 0

def initialKey : Block :=
  load [0x93, 0xC4, 0x67, 0xE3, 0x7D, 0xB0, 0xC7, 0xA4,
    0xD1, 0xBE, 0x3F, 0x81, 0x01, 0x52, 0xCB, 0x56]

/-- `pw_key`, with `null` for `API_EARGS`. -/
def pwKey (aes : Aes) (utf8pw : CString) : Read Block :=
  (strToA32 utf8pw).bind fun (a32, t) =>
    (keyBlocks (bufferBytes a32) t).bind fun keys =>
      .ok ((fun key => keys.foldl (fun key k => aes k key) key)^[65536] initialKey)

theorem one_iff : ∀ c : UInt8, c &&& 0x80 = 0 ↔ width c = 1 := forall_byte (by decide +kernel)

theorem two_iff : ∀ c : UInt8, c &&& 0xe0 = 0xc0 ↔ width c = 2 := forall_byte (by decide +kernel)

theorem three_iff : ∀ c : UInt8, c &&& 0xf0 = 0xe0 ↔ width c = 3 := forall_byte (by decide +kernel)

theorem four_iff : ∀ c : UInt8, c &&& 0xf8 = 0xf0 ↔ width c = 4 := forall_byte (by decide +kernel)

theorem tail_iff : ∀ c : UInt8, c &&& 0xc0 = 0x80 ↔ IsTail c := forall_byte (by decide +kernel)

/-- The text from position `i` on, as far as the int length reaches. -/
structure Rest (str : CString) (t i : Nat) (rest : Bytes) : Prop where
  ends : i + rest.length = t
  text : (str.bytes.take t).drop i = rest

section Positions
variable {str : CString} {t i : Nat} {c : UInt8} {rest : Bytes}

theorem rest_zero (inside : t ≤ str.nul) : Rest str t 0 (str.bytes.take t) where
  ends := by
    rw [List.length_take, Nat.zero_add]
    exact Nat.min_eq_left inside
  text := List.drop_zero

theorem Rest.drop (here : Rest str t i rest) {n : Nat} (enough : n ≤ rest.length) :
    Rest str t (i + n) (rest.drop n) where
  ends := by
    have := here.ends
    rw [List.length_drop]
    omega
  text := by rw [← List.drop_drop, here.text]

theorem Rest.next (here : Rest str t i (c :: rest)) : Rest str t (i + 1) rest :=
  here.drop (n := 1) (Nat.succ_pos _)

theorem Rest.charAt (here : Rest str t i (c :: rest)) : charAt str i = .ok c := by
  have first : (str.bytes.take t)[i]? = some c := by
    have head := congrArg (fun text : Bytes => text[0]?) here.text
    simpa using head
  have within : str.bytes[i]? = some c := by
    rw [List.getElem?_take] at first
    split at first
    · exact first
    · cases first
  obtain ⟨inside, -⟩ := List.getElem?_eq_some_iff.mp within
  rw [PasswordKey.charAt, List.getElem?_append_left inside, within]

theorem Rest.tail (here : Rest str t i (c :: rest)) :
    tail str i = if IsTail c then .ok (c &&& 0x3f).toUInt32 else .null := by
  rw [PasswordKey.tail, here.charAt, Read.bind_ok]
  by_cases continued : IsTail c
  · rw [if_neg (not_not_intro ((tail_iff c).mpr continued)), if_pos continued]
  · rw [if_pos (mt (tail_iff c).mp continued), if_neg continued]

/-- A pass reads the sequence that starts at its position, or refuses a text that starts with
none. -/
def PassReads (str : CString) (t i : Nat) (text : Bytes) : Prop :=
  (∃ s behind written, text = s ++ behind ∧ IsSequence s ∧
    readSequence str t i = .ok (written, i + s.length) ∧ written.length = units s) ∨
  readSequence str t i = .null ∧ ¬∃ s behind, text = s ++ behind ∧ IsSequence s

theorem not_one (more : 1 < width c) : ¬c &&& 0x80 = 0 := by
  rw [one_iff]
  omega

theorem not_two (more : 2 < width c) : ¬c &&& 0xe0 = 0xc0 := by
  rw [two_iff]
  omega

theorem not_three (more : 3 < width c) : ¬c &&& 0xf0 = 0xe0 := by
  rw [three_iff]
  omega

theorem Rest.reads_one (here : Rest str t i (c :: rest)) (one : width c = 1) :
    PassReads str t i (c :: rest) := by
  rw [PassReads, readSequence, here.charAt, Read.bind_ok, if_pos ((one_iff c).mpr one)]
  exact .inl ⟨[c], rest, _, rfl, ⟨one.symm, by simp⟩, rfl, rfl⟩

theorem Rest.reads_two (here : Rest str t i (c :: rest)) (two : width c = 2) :
    PassReads str t i (c :: rest) := by
  have next := here.next
  have ends := next.ends
  rw [PassReads, readSequence, here.charAt, Read.bind_ok, if_neg (not_one (by omega)),
    if_pos ((two_iff c).mpr two), starts_iff, two]
  by_cases short : rest.length < 1
  · rw [if_pos (by omega)]
    exact .inr ⟨rfl, fun starts => by omega⟩
  obtain ⟨b, behind, rfl⟩ := List.exists_cons_of_length_pos (by omega : 0 < rest.length)
  rw [List.length_cons] at ends
  rw [if_neg (by omega), next.tail]
  by_cases tails : IsTail b
  · rw [if_pos tails]
    exact .inl ⟨[c, b], behind, _, rfl, ⟨two.symm, by simpa using tails⟩, rfl, rfl⟩
  · rw [if_neg tails]
    exact .inr ⟨rfl, fun starts => tails (starts.2.2 b (by simp))⟩

theorem Rest.reads_three (here : Rest str t i (c :: rest)) (three : width c = 3) :
    PassReads str t i (c :: rest) := by
  have next := here.next
  have ends := next.ends
  rw [PassReads, readSequence, here.charAt, Read.bind_ok, if_neg (not_one (by omega)),
    if_neg (not_two (by omega)), if_pos ((three_iff c).mpr three), starts_iff, three]
  by_cases short : rest.length < 2
  · rw [if_pos (by omega)]
    exact .inr ⟨rfl, fun starts => by omega⟩
  obtain ⟨b, more, rfl⟩ := List.exists_cons_of_length_pos (by omega : 0 < rest.length)
  rw [List.length_cons] at ends short
  obtain ⟨d, behind, rfl⟩ := List.exists_cons_of_length_pos (by omega : 0 < more.length)
  rw [if_neg (by omega), next.tail, next.next.tail]
  by_cases tails : IsTail b ∧ IsTail d
  · rw [if_pos tails.1, if_pos tails.2]
    exact .inl ⟨[c, b, d], behind, _, rfl, ⟨three.symm, by simpa using tails⟩, rfl, rfl⟩
  · refine .inr ⟨?_, fun starts => tails (by simpa using starts.2.2)⟩
    by_cases first : IsTail b
    · rw [if_pos first, if_neg fun second => tails ⟨first, second⟩]
      rfl
    · rw [if_neg first]
      rfl

theorem Rest.reads_four (here : Rest str t i (c :: rest)) (four : width c = 4) :
    PassReads str t i (c :: rest) := by
  have next := here.next
  have ends := next.ends
  rw [PassReads, readSequence, here.charAt, Read.bind_ok, if_neg (not_one (by omega)),
    if_neg (not_two (by omega)), if_neg (not_three (by omega)), if_pos ((four_iff c).mpr four),
    starts_iff, four]
  by_cases short : rest.length < 3
  · rw [if_pos (by omega)]
    exact .inr ⟨rfl, fun starts => by omega⟩
  obtain ⟨b, more, rfl⟩ := List.exists_cons_of_length_pos (by omega : 0 < rest.length)
  rw [List.length_cons] at ends short
  obtain ⟨d, last, rfl⟩ := List.exists_cons_of_length_pos (by omega : 0 < more.length)
  rw [List.length_cons] at ends short
  obtain ⟨e, behind, rfl⟩ := List.exists_cons_of_length_pos (by omega : 0 < last.length)
  rw [if_neg (by omega), next.tail, next.next.tail, next.next.next.tail]
  by_cases tails : IsTail b ∧ IsTail d ∧ IsTail e
  · rw [if_pos tails.1, if_pos tails.2.1, if_pos tails.2.2]
    exact .inl ⟨[c, b, d, e], behind, _, rfl, ⟨four.symm, by simpa using tails⟩, rfl, rfl⟩
  · refine .inr ⟨?_, fun starts => tails (by simpa using starts.2.2)⟩
    by_cases first : IsTail b
    · rw [if_pos first]
      by_cases second : IsTail d
      · rw [if_pos second, if_neg fun third => tails ⟨first, second, third⟩]
        rfl
      · rw [if_neg second]
        rfl
    · rw [if_neg first]
      rfl

/-- No sequence starts with any other byte. -/
theorem Rest.reads_none (here : Rest str t i (c :: rest)) (none : width c = 0) :
    PassReads str t i (c :: rest) := by
  rw [PassReads, readSequence, here.charAt, Read.bind_ok, starts_iff, none]
  have others : ¬c &&& 0x80 = 0 ∧ ¬c &&& 0xe0 = 0xc0 ∧ ¬c &&& 0xf0 = 0xe0 ∧ ¬c &&& 0xf8 = 0xf0 := by
    rw [one_iff, two_iff, three_iff, four_iff]
    omega
  rw [if_neg others.1, if_neg others.2.1, if_neg others.2.2.1, if_neg others.2.2.2]
  exact .inr ⟨rfl, fun starts => absurd starts.1 (Nat.lt_irrefl 0)⟩

theorem Rest.reads (here : Rest str t i (c :: rest)) : PassReads str t i (c :: rest) := by
  have bound := width_le c
  by_cases one : width c = 1
  · exact here.reads_one one
  by_cases two : width c = 2
  · exact here.reads_two two
  by_cases three : width c = 3
  · exact here.reads_three three
  by_cases four : width c = 4
  · exact here.reads_four four
  · exact here.reads_none (by omega)

end Positions

section Writes
variable {a32 : List UInt32} {j : Nat}

theorem put_inside (inside : j < 4 * a32.length) (unicode : UInt32) :
    ∃ next, put a32 j unicode = .ok next ∧ next.length = a32.length := by
  have word := List.getElem?_eq_getElem (show j / 4 < a32.length by omega)
  rw [put, word]
  exact ⟨_, rfl, List.length_set⟩

/-- Writes stay inside the buffer as long as there is a byte for each of them. -/
theorem putAll_inside {written : List UInt32} (inside : j + written.length ≤ 4 * a32.length) :
    ∃ next, putAll a32 j written = .ok (next, j + written.length) ∧
      next.length = a32.length := by
  induction written generalizing a32 j with
  | nil => exact ⟨a32, rfl, rfl⟩
  | cons unicode more ih =>
    rw [List.length_cons] at inside
    obtain ⟨next, stored, same⟩ := put_inside (show j < 4 * a32.length by omega) unicode
    have room : j + 1 + more.length ≤ 4 * next.length := by omega
    obtain ⟨last, rest, kept⟩ := ih room
    refine ⟨last, ?_, kept.trans same⟩
    rw [putAll, stored, Read.bind_ok, rest, List.length_cons]
    congr 2
    omega

end Writes

/-- The loop converts a valid text with one write for each code unit, and refuses any other. -/
theorem convert_spec {str : CString} {t rounds i j : Nat} {a32 : List UInt32} {rest : Bytes}
    (here : Rest str t i rest) (room : j + rest.length ≤ 4 * a32.length)
    (enough : rest.length < rounds) :
    (∀ n, Text rest n → ∃ done, convert str t rounds i j a32 = .ok (done, j + n) ∧
      done.length = a32.length) ∧ (¬Valid rest → convert str t rounds i j a32 = .null) := by
  induction rounds generalizing i j a32 rest with
  | zero => omega
  | succ rounds ih =>
    have ends := here.ends
    rw [convert]
    cases rest with
    | nil =>
      simp only [List.length_nil] at ends
      rw [if_neg (by omega)]
      constructor
      · intro n valid
        obtain rfl := valid.unique .nil
        exact ⟨a32, rfl, rfl⟩
      · intro invalid
        exact absurd valid_nil invalid
    | cons c rest =>
      rw [List.length_cons] at ends
      rw [if_pos (by omega)]
      rcases here.reads with ⟨s, behind, written, whole, sequence, read, count⟩ | ⟨refused, none⟩
      · rw [whole] at here room enough ⊢
        rw [List.length_append] at room enough
        have positive := sequence.length_pos
        have fewer := sequence.units_le
        have fits : j + written.length ≤ 4 * a32.length := by omega
        obtain ⟨next, stored, same⟩ := putAll_inside fits
        have after : Rest str t (i + s.length) behind := by
          have dropped := here.drop (n := s.length) (by simp)
          rwa [List.drop_left] at dropped
        have left : j + units s + behind.length ≤ 4 * next.length := by omega
        obtain ⟨accepts, refuses⟩ := ih after left (by omega)
        simp only [read, Read.bind_ok, stored, count]
        constructor
        · intro n valid
          obtain ⟨m, rfl, more⟩ := valid.behind sequence
          obtain ⟨done, result, kept⟩ := accepts m more
          refine ⟨done, ?_, kept.trans same⟩
          rw [result, Nat.add_assoc]
        · intro invalid
          exact refuses (mt (valid_append_iff sequence).mpr invalid)
      · have invalid : ¬Valid (c :: rest) := fun valid => none (valid.starts (List.cons_ne_nil _ _))
        rw [refused]
        exact ⟨fun n valid => absurd ⟨n, valid⟩ invalid, fun _ => rfl⟩

/-- The bytes of a string that its int length covers, for a length that is not negative. -/
def covered (str : CString) : Nat := str.nul % 4294967296

theorem strlen_eq (str : CString) : strlen str =
    if covered str < 2147483648 then (covered str : Int) else covered str - 4294967296 := by
  have size : Int32.size = 4294967296 := rfl
  rw [strlen, Int32.toInt_ofNat', size, Int.bmod_def, covered]
  split <;> split <;> omega

theorem covered_le (str : CString) : covered str ≤ str.nul := Nat.mod_le _ _

theorem covered_eq {str : CString} (short : str.nul < 2147483645) : covered str = str.nul :=
  Nat.mod_eq_of_lt (by omega)

/-- Without an overflow the covered part of the string is converted. -/
theorem strToA32_spec {str : CString} (small : covered str < 2147483645) :
    (∀ n, Text (str.bytes.take (covered str)) n →
      ∃ a32, strToA32 str = .ok (a32, n) ∧ n ≤ 4 * a32.length) ∧
    (¬Valid (str.bytes.take (covered str)) → strToA32 str = .null) := by
  have t : strlen str = covered str := by rw [strlen_eq, if_pos (by omega)]
  have words : (4 * (((covered str : Int) + 3) / 4)).toNat / 4 = (covered str + 3) / 4 := by omega
  have here := rest_zero (covered_le str)
  have ends := here.ends
  have room : 0 + (str.bytes.take (covered str)).length ≤
      4 * (List.replicate ((covered str + 3) / 4) (0 : UInt32)).length := by
    rw [List.length_replicate]
    omega
  have enough : (str.bytes.take (covered str)).length < covered str + 1 := by omega
  obtain ⟨accepts, refuses⟩ := convert_spec here room enough
  have run : strToA32 str = convert str (covered str) (covered str + 1) 0 0
      (List.replicate ((covered str + 3) / 4) 0) := by
    rw [strToA32, t]
    simp only [words, Int.toNat_natCast]
    rw [if_neg (by rw [maxInt]; omega), if_neg (by omega)]
  rw [run]
  constructor
  · intro n valid
    obtain ⟨done, result, same⟩ := accepts n valid
    have bound := valid.length_le
    refine ⟨done, by rw [result, Nat.zero_add], ?_⟩
    rw [same]
    omega
  · exact refuses

/-- A valid string whose length is an int is converted as a whole. -/
theorem strToA32_text {str : CString} {n : Nat} (short : str.nul < 2147483645)
    (valid : Text str.bytes n) :
    ∃ a32, strToA32 str = .ok (a32, n) ∧ n ≤ 4 * a32.length := by
  obtain ⟨accepts, -⟩ := strToA32_spec (show covered str < 2147483645 by rwa [covered_eq short])
  rw [covered_eq short, CString.nul, List.take_length] at accepts
  exact accepts n valid

/-- With one, there is no conversion, or one of nothing: the length is negative. -/
theorem strToA32_overflow {str : CString} (large : 2147483645 ≤ covered str) :
    strToA32 str = .wild ∨ strToA32 str = .ok ([], 0) := by
  have bound : covered str < 4294967296 := Nat.mod_lt _ (by decide)
  rw [strToA32, strlen_eq]
  by_cases positive : covered str < 2147483648
  · rw [if_pos positive, if_pos (by rw [maxInt]; omega)]
    exact .inl rfl
  · rw [if_neg positive, if_neg (by rw [maxInt]; omega)]
    by_cases refused : 4 * (((covered str : Int) - 4294967296 + 3) / 4) < 0
    · exact .inl (if_pos refused)
    · right
      have none : ((covered str : Int) - 4294967296).toNat = 0 := by omega
      have empty : (4 * (((covered str : Int) - 4294967296 + 3) / 4)).toNat / 4 = 0 := by omega
      simp only [if_neg refused, none, empty]
      rfl

/-- What `pw_key` copies lies in the buffer, and the last block takes something of it. -/
def BlocksInside (pw : Bytes) (t : Nat) : Prop :=
  (∃ keys, keyBlocks pw t = .ok keys) ∧
  ∀ i < blockCount t, 16 * i + validLength t i ≤ pw.length ∧
    (i + 1 = blockCount t → 1 ≤ validLength t i ∧ validLength t i ≤ 16)

theorem length_bufferBytes (a32 : List UInt32) : (bufferBytes a32).length = 4 * a32.length := by
  induction a32 with
  | nil => rfl
  | cons word a32 ih =>
    rw [bufferBytes, List.flatMap_cons, List.length_append, ← bufferBytes, ih, beBytes,
      List.length_reverse, length_leBytes, List.length_cons]
    omega

theorem validLength_range {t i : Nat} (block : i < blockCount t) :
    1 ≤ validLength t i ∧ validLength t i ≤ 16 ∧ 16 * i + validLength t i ≤ t := by
  rw [validLength]
  rw [blockCount] at block ⊢
  split <;> omega

section Blocks
variable {pw : Bytes} {t : Nat}

theorem copyBlocks_inside (inside : t ≤ pw.length) {n i : Nat} (blocks : i + n ≤ blockCount t) :
    ∃ keys, copyBlocks pw t n i = .ok keys := by
  induction n generalizing i with
  | zero => exact ⟨[], rfl⟩
  | succ n ih =>
    have range := validLength_range (show i < blockCount t by omega)
    obtain ⟨keys, rest⟩ := ih (show i + 1 + n ≤ blockCount t by omega)
    rw [copyBlocks, copyBlock, if_pos (by omega), Read.bind_ok, rest, Read.bind_ok]
    exact ⟨_, rfl⟩

theorem blocksInside_iff (inside : t ≤ pw.length) : BlocksInside pw t ↔ t < 2147483633 := by
  constructor
  · rintro ⟨⟨keys, copied⟩, -⟩
    rw [keyBlocks] at copied
    split at copied
    · cases copied
    · rename_i fits
      rw [maxInt] at fits
      omega
  · intro fits
    refine ⟨?_, fun i block => ?_⟩
    · rw [keyBlocks, if_neg (by rw [maxInt]; omega)]
      exact copyBlocks_inside inside (Nat.le_of_eq (Nat.zero_add _))
    · have range := validLength_range block
      exact ⟨by omega, fun _ => ⟨range.1, range.2.1⟩⟩

end Blocks

/-- A password is refused exactly if it is not valid, and every other one is converted to its
UTF-16 code units, of which `pw_key` copies blocks inside the buffer. -/
structure Converts (str : CString) : Prop where
  refused_iff : strToA32 str = .null ↔ ¬Valid str.bytes
  converted : ∀ n, Text str.bytes n →
    ∃ a32, strToA32 str = .ok (a32, n) ∧ BlocksInside (bufferBytes a32) n
  characters : ∀ chars : List Char, str.bytes = chars.flatMap String.utf8EncodeChar →
    ∃ a32, strToA32 str = .ok (a32, (chars.map utf16Size).sum)

/-- An int holds the length of a valid string, rounded up to words, and the number of its code
units, rounded up to blocks; the part of another string that its int length covers is not valid
either. -/
def FitsInt (str : CString) : Prop :=
  (∀ n, Text str.bytes n → str.nul < 2147483645 ∧ n < 2147483633) ∧
  (¬Valid str.bytes → covered str < 2147483645 ∧ ¬Valid (str.bytes.take (covered str)))

section Conversion
variable {str : CString}

theorem Converts.nul_lt (converts : Converts str) {n : Nat} (valid : Text str.bytes n) :
    str.nul < 2147483645 := by
  obtain ⟨a32, result, -⟩ := converts.converted n valid
  by_contra long
  have nonempty : str.bytes ≠ [] := by
    intro empty
    rw [CString.nul, empty, List.length_nil] at long
    omega
  have positive := valid.pos nonempty
  by_cases large : 2147483645 ≤ covered str
  · rcases strToA32_overflow large with wild | empty
    · rw [wild] at result
      cases result
    · rw [empty] at result
      cases result
      omega
  have less : covered str < str.nul := by omega
  obtain ⟨accepts, refuses⟩ := strToA32_spec (show covered str < 2147483645 by omega)
  by_cases front : Valid (str.bytes.take (covered str))
  · obtain ⟨k, front⟩ := front
    obtain ⟨done, other, -⟩ := accepts k front
    rw [other] at result
    cases result
    have more : str.bytes.drop (covered str) ≠ [] := by
      rw [ne_eq, List.drop_eq_nil_iff]
      rw [CString.nul] at less
      omega
    rw [← List.take_append_drop (covered str) str.bytes] at valid
    exact Nat.lt_irrefl _ (front.lt_append valid more)
  · rw [refuses front] at result
    cases result

theorem Converts.fitsInt (converts : Converts str) : FitsInt str := by
  constructor
  · intro n valid
    have short := converts.nul_lt valid
    obtain ⟨a32, result, blocks⟩ := converts.converted n valid
    refine ⟨short, ?_⟩
    obtain ⟨done, same, room⟩ := strToA32_text short valid
    rw [same] at result
    cases result
    exact (blocksInside_iff (by rwa [length_bufferBytes])).mp blocks
  · intro invalid
    have refused := converts.refused_iff.mpr invalid
    have small : covered str < 2147483645 := by
      by_contra large
      rcases strToA32_overflow (Nat.le_of_not_lt large) with wild | empty
      · rw [wild] at refused
        cases refused
      · rw [empty] at refused
        cases refused
    refine ⟨small, ?_⟩
    rintro ⟨n, front⟩
    obtain ⟨done, result, -⟩ := (strToA32_spec small).1 n front
    rw [result] at refused
    cases refused

theorem FitsInt.refused_iff (fits : FitsInt str) : strToA32 str = .null ↔ ¬Valid str.bytes := by
  constructor
  · rintro refused ⟨n, valid⟩
    obtain ⟨a32, result, -⟩ := strToA32_text (fits.1 n valid).1 valid
    rw [result] at refused
    cases refused
  · intro invalid
    obtain ⟨small, front⟩ := fits.2 invalid
    exact (strToA32_spec small).2 front

theorem FitsInt.converted (fits : FitsInt str) {n : Nat} (valid : Text str.bytes n) :
    ∃ a32, strToA32 str = .ok (a32, n) ∧ BlocksInside (bufferBytes a32) n := by
  obtain ⟨short, few⟩ := fits.1 n valid
  obtain ⟨a32, result, room⟩ := strToA32_text short valid
  exact ⟨a32, result, (blocksInside_iff (by rwa [length_bufferBytes])).mpr few⟩

theorem FitsInt.converts (fits : FitsInt str) : Converts str where
  refused_iff := fits.refused_iff
  converted _ valid := fits.converted valid
  characters chars encoded := by
    have valid : Text str.bytes (chars.map utf16Size).sum := encoded ▸ text_encode chars
    obtain ⟨a32, result, -⟩ := fits.converted valid
    exact ⟨a32, result⟩

theorem fitsInt_of_short (short : str.nul < 2147483633) : FitsInt str := by
  constructor
  · intro n valid
    have fewer : n ≤ str.nul := valid.length_le
    exact ⟨by omega, by omega⟩
  · intro invalid
    rw [covered_eq (by omega), CString.nul, List.take_length]
    exact ⟨Nat.lt_trans short (by decide), invalid⟩

/-- The key of a password of ordinary length is refused for invalid UTF-8 only. -/
theorem pwKey_eq_null_iff (aes : Aes) {utf8pw : CString} (short : utf8pw.nul < 2147483633) :
    pwKey aes utf8pw = .null ↔ ¬Valid utf8pw.bytes := by
  have fits := fitsInt_of_short short
  constructor
  · rintro refused ⟨n, valid⟩
    obtain ⟨a32, result, blocks⟩ := fits.converted valid
    obtain ⟨keys, copied⟩ := blocks.1
    rw [pwKey, result, Read.bind_ok] at refused
    simp only [copied, Read.bind_ok] at refused
    cases refused
  · intro invalid
    rw [pwKey, fits.refused_iff.mpr invalid]
    rfl

/-- Passwords are converted as long as an int holds their length. -/
theorem password_converts_iff (str : CString) : Converts str ↔ FitsInt str := by
  constructor
  · exact Converts.fitsInt
  · exact FitsInt.converts

end Conversion

-- the high byte of a character does not fit in front of the first word
example : strToA32 ⟨[0xe2, 0x82, 0xac, 0x41], by decide⟩ = .ok ([0xac410000], 2) := by decide

def continuations (n : Nat) : CString where
  bytes := List.replicate n 0x80
  nonzero := by simp

theorem not_valid_continuations {n : Nat} (positive : 0 < n) : ¬Valid (continuations n).bytes := by
  intro valid
  obtain ⟨k, rfl⟩ : ∃ k, n = k + 1 := ⟨n - 1, by omega⟩
  obtain ⟨s, rest, whole, sequence⟩ := valid.starts (List.cons_ne_nil _ _)
  have none : ¬0 < width 0x80 := by decide
  exact none (starts_iff.mp ⟨s, rest, whole, sequence⟩).1

/-- The int length of such a string may be 0, and nothing of it is looked at. -/
theorem not_converts_continuations {n : Nat} (positive : 0 < n) (multiple : n % 4294967296 = 0) :
    ¬Converts (continuations n) := by
  intro converts
  obtain ⟨-, invalid⟩ := converts.fitsInt.2 (not_valid_continuations positive)
  have none : covered (continuations n) = 0 := by
    rw [covered, CString.nul, continuations, List.length_replicate, multiple]
  rw [none, List.take_zero] at invalid
  exact invalid valid_nil

/-- A password of 4 GiB is converted to the empty text, although it is not UTF-8. -/
theorem password_4GiB_not_converted : ¬Converts (continuations 4294967296) :=
  not_converts_continuations (by decide) (by decide)

end MegaSdk.Crypto.PasswordKey
