import MegaSdk.Json.Containers
import MegaSdk.Nodes.Denotation

/-!
# `unescape` in place

The loop of `JSON::unescape` as it stands: escapes are replaced in the string that is being read,
by an index and against a size that changes with each of them. It makes of a string what the
reading of it from left to right makes, and looks beyond the end for an escape that is cut off.
-/

namespace MegaSdk.Nodes

open Json

/-- `s->replace(i, l, &c, 1)`, which goes no further than the end of the string. -/
def replace (s : Bytes) (i l : Nat) (c : UInt8) : Bytes := s.take i ++ c :: s.drop (i + l)

/-- The body of the loop: the indices that are read, and the string after it. What is read beyond
the end does not matter to the indices. -/
def unescapeAt (s : Bytes) (i : Nat) : List Nat × Bytes :=
  if s.getD i 0 = backslash then
    if s.getD (i + 1) 0 = 117 then
      ([i, i + 1, i + 4, i + 5],
        replace s i 6 (hexval (s.getD (i + 4) 0) <<< 4 ||| hexval (s.getD (i + 5) 0)))
    else ([i, i + 1], replace s i 2 (unescaped (s.getD (i + 1) 0)))
  else ([i], s)

/-- The loop from an index on: the reads, each with the size of the string then, and the string
at the end. -/
def unescapeLoop : Nat → Bytes → Nat → List (Nat × Nat) × Bytes
  | 0, s, _ => ([], s)
  | fuel + 1, s, i =>
    if i + 1 < s.length then
      let now := unescapeAt s i
      let later := unescapeLoop fuel now.2 (i + 1)
      (now.1.map (fun k => (k, s.length)) ++ later.1, later.2)
    else ([], s)

/-- `JSON::unescape`. -/
def unescapeInPlace (s : Bytes) : Bytes := (unescapeLoop s.length s 0).2

/-- Every index that `unescape` reads is inside the string as it is then. -/
def StaysInside (s : Bytes) : Prop := ∀ read ∈ (unescapeLoop s.length s 0).1, read.1 < read.2

instance (s : Bytes) : Decidable (StaysInside s) := inferInstanceAs (Decidable (∀ _ ∈ _, _))

/-- From left to right, each backslash taken with the character after it, every `\u` has four more
characters behind it. -/
def complete : Bytes → Bool
  | c :: d :: rest =>
    if c = backslash then
      if d = 117 then
        match rest with
        | _ :: _ :: _ :: _ :: rest => complete rest
        | _ => false
      else complete rest
    else complete (d :: rest)
  | _ => true

section Loop

variable (done : Bytes)

theorem getD_done (todo : Bytes) (k : Nat) :
    (done ++ todo).getD (done.length + k) 0 = todo.getD k 0 := by
  rw [List.getD_eq_getElem?_getD, List.getElem?_append_right (Nat.le_add_right _ _),
    Nat.add_sub_cancel_left, List.getD_eq_getElem?_getD]

theorem replace_done (todo : Bytes) (l : Nat) (c : UInt8) :
    replace (done ++ todo) done.length l c = (done ++ [c]) ++ todo.drop l := by
  simp [replace]

/-- The body of the loop, with what lies before the index apart. -/
theorem unescapeAt_done (c d : UInt8) (rest : Bytes) :
    unescapeAt (done ++ c :: d :: rest) done.length =
      if c = backslash then
        if d = 117 then
          ([done.length, done.length + 1, done.length + 4, done.length + 5],
            (done ++ [hexval (rest.getD 2 0) <<< 4 ||| hexval (rest.getD 3 0)]) ++ rest.drop 4)
        else ([done.length, done.length + 1], (done ++ [unescaped d]) ++ rest)
      else ([done.length], (done ++ [c]) ++ d :: rest) := by
  have first : (done ++ c :: d :: rest).getD done.length 0 = c := getD_done done _ 0
  have second : (done ++ c :: d :: rest).getD (done.length + 1) 0 = d := getD_done done _ 1
  have fifth : (done ++ c :: d :: rest).getD (done.length + 4) 0 = rest.getD 2 0 :=
    getD_done done _ 4
  have sixth : (done ++ c :: d :: rest).getD (done.length + 5) 0 = rest.getD 3 0 :=
    getD_done done _ 5
  rw [unescapeAt, first, second, fifth, sixth, replace_done, replace_done]
  split
  · rfl
  · simp

theorem length_done (c d : UInt8) (rest : Bytes) :
    done.length + 1 < (done ++ c :: d :: rest).length := by
  simp

/-- The loop ends within one character of the end. -/
theorem unescapeLoop_end (fuel : Nat) {todo : Bytes} (short : todo.length ≤ 1) :
    unescapeLoop fuel (done ++ todo) done.length = ([], done ++ todo) := by
  cases fuel with
  | zero => rfl
  | succ fuel =>
    rw [unescapeLoop, if_neg]
    rw [List.length_append]
    omega

/-- In place the loop makes of what lies ahead what reading it from left to right makes. -/
theorem unescapeLoop_value (fuel : Nat) (todo : Bytes) :
    (unescapeLoop fuel (done ++ todo) done.length).2 = done ++ unescapeFrom fuel todo := by
  induction fuel generalizing done todo with
  | zero => cases todo <;> rfl
  | succ fuel ih =>
    rcases todo with _ | ⟨c, _ | ⟨d, rest⟩⟩
    · rw [unescapeLoop_end done _ (by decide)]
      rfl
    · rw [unescapeLoop_end done _ (by simp)]
      rfl
    · have next : ∀ (e : UInt8) (more : Bytes),
          (unescapeLoop fuel ((done ++ [e]) ++ more) (done.length + 1)).2 =
            done ++ e :: unescapeFrom fuel more := by
        intro e more
        have step := ih (done ++ [e]) more
        rw [List.length_append, List.length_singleton] at step
        rw [step, List.append_assoc, List.singleton_append]
      rw [unescapeLoop, if_pos (length_done done c d rest), unescapeAt_done, unescapeFrom]
      dsimp only
      split
      · split
        · exact next _ _
        · exact next _ _
      · exact next _ _

/-- The reads are inside exactly if no escape is cut off. -/
theorem unescapeLoop_reads (fuel : Nat) {todo : Bytes} (enough : todo.length ≤ fuel) :
    (∀ read ∈ (unescapeLoop fuel (done ++ todo) done.length).1, read.1 < read.2) ↔
      complete todo = true := by
  induction fuel generalizing done todo with
  | zero =>
    obtain rfl := List.length_eq_zero_iff.mp (Nat.le_zero.mp enough)
    simp [unescapeLoop, complete]
  | succ fuel ih =>
    rcases todo with _ | ⟨c, _ | ⟨d, rest⟩⟩
    · rw [unescapeLoop_end done _ (by decide)]
      simp [complete]
    · rw [unescapeLoop_end done _ (by simp)]
      simp [complete]
    · have next : ∀ (e : UInt8) {more : Bytes}, more.length ≤ fuel →
          ((∀ read ∈ (unescapeLoop fuel ((done ++ [e]) ++ more) (done.length + 1)).1,
            read.1 < read.2) ↔ complete more = true) := by
        intro e more short
        have step := ih (done ++ [e]) short
        rwa [List.length_append, List.length_singleton] at step
      have size : (done ++ c :: d :: rest).length = done.length + (rest.length + 2) := by simp
      simp only [List.length_cons] at enough
      rw [unescapeLoop, if_pos (length_done done c d rest), unescapeAt_done, complete.eq_def]
      dsimp only
      split
      · split
        · rw [List.forall_mem_append, next _ (by rw [List.length_drop]; omega), size]
          simp only [List.map_cons, List.map_nil, List.forall_mem_cons, List.not_mem_nil,
            false_implies, forall_const, and_true]
          -- the escape is whole if the last of its digits is inside
          rcases rest with _ | ⟨a, _ | ⟨b, _ | ⟨c', _ | ⟨d', more⟩⟩⟩⟩
          · simp
          · simp
          · simp
          · simp
          · simp only [List.length_cons, List.drop_succ_cons, List.drop_zero]
            refine and_iff_right ⟨?_, ?_, ?_, ?_⟩
            all_goals omega
        · rw [List.forall_mem_append, next _ (by omega), size]
          refine and_iff_right ?_
          simp
      · rw [List.forall_mem_append, next _ (by simp only [List.length_cons]; omega), size]
        refine and_iff_right ?_
        simp

end Loop

/-- In place and from left to right `unescape` comes to the same. -/
theorem unescapeInPlace_eq (s : Bytes) : unescapeInPlace s = unescape s :=
  unescapeLoop_value [] s.length s

/-- What `storeobject` stores from a quoted value. -/
def StoresQuoted (text : Text) (s : Bytes) : Prop :=
  peek (skipBlanks text) = quote ∧ (storeobject text).1 = some s

/-- These are the strings that the quote scanner passes over. -/
theorem exists_storesQuoted_iff (s : Bytes) : (∃ text, StoresQuoted text s) ↔ isLiteral s := by
  constructor
  · rintro ⟨text, quoted, stores⟩
    simp only [storeobject] at stores
    generalize skipBlanks text = pos at quoted stores
    rcases pos with _ | ⟨c, pos⟩
    · cases quoted
    · obtain rfl : c = quote := quoted
      have round : advance (0, 0, quote :: pos) =
          (skipString false pos).map fun after => (0, 0, after) := rfl
      rw [List.length_cons, scan, round] at stores
      cases passed : skipString false pos with
      | none => simp [passed] at stores
      | some after =>
        obtain ⟨content, rfl, literal⟩ := literal_of_skipString passed
        have whole : between (quote :: (content ++ quote :: after)) after = str content := by
          have text : quote :: (content ++ quote :: after) = str content ++ after := by simp [str]
          rw [text, between, List.length_append, Nat.add_sub_cancel, List.take_left]
        have value : (str content).tail.dropLast = content := by
          rw [str, List.tail_cons, List.dropLast_concat]
        have opening : peek (quote :: (content ++ quote :: after)) = quote := rfl
        simp only [passed, Option.map_some, and_self, if_true, opening, whole, value] at stores
        rwa [← Option.some.inj stores]
  · intro literal
    refine ⟨str s, rfl, ?_⟩
    have stores := storeobject_value (.str literal) (show Ends [] from rfl)
    rw [List.append_nil, stored_str] at stores
    rw [stores]

/-- `unescape` stays inside a string exactly if no unicode escape in it is cut off; that is so for
the strings of `storeobject` and for all others. -/
theorem staysInside_iff (s : Bytes) : StaysInside s ↔ complete s = true :=
  unescapeLoop_reads [] s.length le_rfl

/-- The quote scanner lets a cut-off escape pass. -/
theorem stored_beyond :
    ¬∀ text s, StoresQuoted text s → StaysInside s := by
  intro always
  have inside := always (ascii "\"\\u\"") (ascii "\\u") ⟨by decide, by decide⟩
  exact absurd inside (by decide)

def Piece.Narrow : Piece → Prop
  | .char _ => True
  | .unit a b c d => ∃ code, codeUnit a b c d = some code ∧ code < 128

def Piece.Capital : Piece → Prop
  | .char _ => False
  | .unit _ _ _ d => 65 ≤ d ∧ d ≤ 70

instance : (p : Piece) → Decidable p.Capital
  | .char _ => isFalse id
  | .unit _ _ _ d => inferInstanceAs (Decidable (65 ≤ d ∧ d ≤ 70))

/-- The byte of a narrow character by the rules of JSON. -/
def Piece.byte : Piece → UInt8
  | .char c => c
  | .unit a b c d => UInt8.ofNat ((codeUnit a b c d).getD 0)

/-- Narrow characters are encoded in one byte each. -/
theorem encode_narrow {ps : List Piece} (narrow : ∀ p ∈ ps, p.Narrow) :
    encode none ps = some (ps.map Piece.byte) := by
  induction ps with
  | nil => rfl
  | cons p ps ih =>
    obtain ⟨first, others⟩ := List.forall_mem_cons.mp narrow
    cases p with
    | char c => rw [encode, ih others]; rfl
    | unit a b c d =>
      obtain ⟨code, digits, small⟩ := first
      have single : utf8 code = [UInt8.ofNat code] := if_pos small
      simp only [encode, digits]
      rw [if_pos (.inl (by omega)), ih others, single, List.map_cons, Piece.byte, digits]
      rfl

/-- A capital digit is taken for a character of its own: the high bit comes out set. -/
theorem low_of_capital {c d : UInt8} (a b : UInt8) {code : Nat} (narrow : code < 128)
    (capital : 65 ≤ d ∧ d ≤ 70) :
    (Piece.unit a b c d).low ≠ UInt8.ofNat code := by
  have high : ∀ d : UInt8, 65 ≤ d ∧ d ≤ 70 → 128 ≤ (hexval d).toNat :=
    forall_byte (by decide +kernel)
  intro same
  have bits := congrArg UInt8.toNat same
  rw [Piece.low, UInt8.toNat_or, UInt8.toNat_ofNat', Nat.mod_eq_of_lt (by omega)] at bits
  have above : (hexval d).toNat ≤ (hexval c <<< 4).toNat ||| (hexval d).toNat := Nat.right_le_or
  have set := high d capital
  omega

/-- A narrow character comes out right exactly if its last digit is no capital letter. -/
theorem low_eq_byte_iff {p : Piece} (narrow : p.Narrow) : p.low = p.byte ↔ ¬p.Capital := by
  cases p with
  | char c => simp [Piece.low, Piece.byte, Piece.Capital]
  | unit a b c d =>
    obtain ⟨code, digits, small⟩ := narrow
    have byte : (Piece.unit a b c d).byte = UInt8.ofNat code := by
      rw [Piece.byte, digits]
      rfl
    rw [byte]
    constructor
    · exact fun same capital => low_of_capital a b small capital same
    · exact low_of_narrow digits small

/-- `unescape` yields the value of a string literal whose unicode escapes are below 128 exactly
if the last digit of none of them is a capital letter. -/
theorem unescape_decodes_iff {content : Bytes} {ps : List Piece}
    (literal : pieces content = some ps) (narrow : ∀ p ∈ ps, p.Narrow) :
    decode content = some (unescapeInPlace content) ↔ ∀ p ∈ ps, ¬p.Capital := by
  rw [decode, literal, Option.bind_some, encode_narrow narrow, unescapeInPlace_eq,
    unescape_pieces literal, Option.some.injEq, List.map_inj_left]
  constructor
  · exact fun each p mem => (low_eq_byte_iff (narrow p mem)).mp (each p mem).symm
  · exact fun each p mem => ((low_eq_byte_iff (narrow p mem)).mpr (each p mem)).symm

/-- Backslashes, an escaped quote and escapes with small digits. -/
theorem unescape_decodes_mixed :
    decode (ascii "\\\\n\\\"\\u006a\\u005c\\n") =
      some (unescapeInPlace (ascii "\\\\n\\\"\\u006a\\u005c\\n")) := by
  let ps : List Piece := [.char 92, .char 110, .char 34, .unit 48 48 54 97, .unit 48 48 53 99,
    .char 10]
  have literal : pieces (ascii "\\\\n\\\"\\u006a\\u005c\\n") = some ps := by decide +kernel
  refine (unescape_decodes_iff literal ?_).mpr (by decide)
  intro p mem
  simp only [ps, List.mem_cons, List.not_mem_nil, or_false] at mem
  rcases mem with rfl | rfl | rfl | rfl | rfl | rfl
  · trivial
  · trivial
  · trivial
  · exact ⟨106, by decide +kernel, by decide⟩
  · exact ⟨92, by decide +kernel, by decide⟩
  · trivial

/-- The letter J, written with a capital digit, comes out as another byte. -/
theorem capital_digit_misread :
    ¬∀ content ps, pieces content = some ps → (∀ p ∈ ps, p.Narrow) →
      decode content = some (unescapeInPlace content) := by
  intro always
  have literal : pieces (ascii "\\u004A") = some [.unit 48 48 52 65] := by decide +kernel
  have value := always _ _ literal fun p mem => by
    obtain rfl := List.mem_singleton.mp mem
    exact ⟨74, by decide +kernel, by decide⟩
  exact absurd value (by decide +kernel)

end MegaSdk.Nodes
