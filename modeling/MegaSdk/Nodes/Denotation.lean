import MegaSdk.Nodes.Attributes
import Mathlib.Data.List.Nodup
import Mathlib.Data.List.Perm.Basic

/-!
# What an attribute text denotes

The members of a JSON object with string values, read by the rules of JSON: a text denotes
the names and the decoded values, in any order. `Node::setattr` files the members under
packed names and decodes the values in its own way; `AttrMap::getjson` writes them back
when the attributes are sent again.
-/

namespace MegaSdk.Nodes

open Json ByteOrder
open Cache (AttrMap)

/-- A character of a string literal: itself, or the four digits of an escaped code unit. -/
inductive Piece where
  | char (c : UInt8)
  | unit (a b c d : UInt8)
  deriving DecidableEq, Repr

def hexDigitValue (c : UInt8) : Option Nat :=
  if 48 ≤ c ∧ c ≤ 57 then some (c.toNat - 48)
  else if 65 ≤ c ∧ c ≤ 70 then some (c.toNat - 55)
  else if 97 ≤ c ∧ c ≤ 102 then some (c.toNat - 87)
  else none

/-- The code unit behind `\u`. -/
def codeUnit (a b c d : UInt8) : Option Nat :=
  match hexDigitValue a, hexDigitValue b, hexDigitValue c, hexDigitValue d with
  | some w, some x, some y, some z => some (((w * 16 + x) * 16 + y) * 16 + z)
  | _, _, _, _ => none

def shortEscape (c : UInt8) : Option UInt8 :=
  if c = quote ∨ c = backslash ∨ c = 47 then some c
  else if c = 98 then some 8
  else if c = 102 then some 12
  else if c = 110 then some 10
  else if c = 114 then some 13
  else if c = 116 then some 9
  else none

/-- The characters of a string literal, if it is one. -/
def pieces : Bytes → Option (List Piece)
  | [] => some []
  | c :: rest =>
    if c = backslash then
      match rest with
      | [] => none
      | e :: rest =>
        if e = 117 then
          match rest with
          | a :: b :: c :: d :: rest =>
            if (codeUnit a b c d).isSome then (pieces rest).map (.unit a b c d :: ·) else none
          | _ => none
        else
          match shortEscape e with
          | some c => (pieces rest).map (.char c :: ·)
          | none => none
    else if c < 32 ∨ c = quote then none
    else (pieces rest).map (.char c :: ·)

def utf8 (code : Nat) : Bytes :=
  let tail (shift : Nat) : UInt8 := UInt8.ofNat (128 + code / 2 ^ shift % 64)
  if code < 0x80 then [UInt8.ofNat code]
  else if code < 0x800 then [UInt8.ofNat (192 + code / 2 ^ 6), tail 0]
  else if code < 0x10000 then [UInt8.ofNat (224 + code / 2 ^ 12), tail 6, tail 0]
  else [UInt8.ofNat (240 + code / 2 ^ 18), tail 12, tail 6, tail 0]

/-- The text of the characters in UTF-8; `high` is a surrogate that waits for the other one. -/
def encode : Option Nat → List Piece → Option Bytes
  | none, [] => some []
  | none, .char c :: rest => (encode none rest).map (c :: ·)
  | none, .unit a b c d :: rest =>
    match codeUnit a b c d with
    | none => none
    | some code =>
      if code < 0xd800 ∨ 0xdfff < code then (encode none rest).map (utf8 code ++ ·)
      else if code < 0xdc00 then encode (some code) rest
      else none
  | some high, .unit a b c d :: rest =>
    match codeUnit a b c d with
    | none => none
    | some low =>
      if 0xdc00 ≤ low ∧ low ≤ 0xdfff then
        (encode none rest).map (utf8 (0x10000 + (high - 0xd800) * 0x400 + (low - 0xdc00)) ++ ·)
      else none
  | some _, _ => none

/-- The value of a string literal by the rules of JSON. -/
def decode (content : Bytes) : Option Bytes := (pieces content).bind (encode none)

def membersText (ms : List (Bytes × Bytes)) : Bytes :=
  separated (ms.map fun m => member (m.1, str m.2))

/-- The names of an object: distinct, nonempty, without quotes and backslashes. -/
structure AreNames (names : List Bytes) : Prop where
  distinct : names.Nodup
  nonempty : ∀ name ∈ names, name ≠ []
  unquoted : ∀ name ∈ names, quote ∉ name ∧ backslash ∉ name

/-- The object that the members in a text denote: names and decoded values. -/
def Denotes (text : Bytes) (obj : List (Bytes × Bytes)) : Prop :=
  AreNames (obj.map Prod.fst) ∧ ∃ ms, text = membersText ms ∧
    ms.map (fun m => (m.1, decode m.2)) = obj.map fun o => (o.1, some o.2)

/-- What `unescape` makes of a character. -/
def Piece.low : Piece → UInt8
  | .char c => c
  | .unit _ _ c d => hexval c <<< 4 ||| hexval d

/-- A code below 128 whose last digit is not a capital letter: `unescape` keeps one byte of a
code and takes its digits for small letters. -/
def Piece.Faithful : Piece → Prop
  | .char _ => True
  | .unit a b c d => (∃ code, codeUnit a b c d = some code ∧ code < 128) ∧ ¬(65 ≤ d ∧ d ≤ 70)

theorem hexDigitValue_lt : ∀ c : UInt8, ∀ n, hexDigitValue c = some n → n < 16 := by
  refine forall_byte ?_
  decide +kernel

theorem hexval_of_value : ∀ c : UInt8, ∀ n, hexDigitValue c = some n → ¬(65 ≤ c ∧ c ≤ 70) →
    hexval c = UInt8.ofNat n := by
  refine forall_byte ?_
  decide +kernel

/-- Induction over the characters of a string literal. -/
theorem pieces_induction {motive : Bytes → List Piece → Prop} (nil : motive [] [])
    (plain : ∀ c rest ps, c ≠ backslash → ¬(c < 32 ∨ c = quote) → motive rest ps →
      motive (c :: rest) (.char c :: ps))
    (short : ∀ e c rest ps, shortEscape e = some c → motive rest ps →
      motive (backslash :: e :: rest) (.char c :: ps))
    (unit : ∀ a b c d rest ps, (codeUnit a b c d).isSome → motive rest ps →
      motive (backslash :: 117 :: a :: b :: c :: d :: rest) (.unit a b c d :: ps))
    {content : Bytes} {ps : List Piece} (literal : pieces content = some ps) :
    motive content ps := by
  fun_induction pieces content generalizing ps with
  | case1 =>
    obtain rfl := Option.some.inj literal
    exact nil
  | case2 => cases literal
  | case3 a b c d rest digits ih =>
    obtain ⟨qs, tail, rfl⟩ := Option.map_eq_some_iff.mp literal
    exact unit a b c d rest qs digits (ih tail)
  | case4 => cases literal
  | case5 => cases literal
  | case6 e rest other c escape ih =>
    obtain ⟨qs, tail, rfl⟩ := Option.map_eq_some_iff.mp literal
    exact short e c rest qs escape (ih tail)
  | case7 => cases literal
  | case8 => cases literal
  | case9 c rest other allowed ih =>
    obtain ⟨qs, tail, rfl⟩ := Option.map_eq_some_iff.mp literal
    exact plain c rest qs other allowed (ih tail)

theorem shortEscape_cases {e c : UInt8} (escape : shortEscape e = some c) :
    (e, c) ∈ [(quote, quote), (backslash, backslash), (47, 47), (98, 8), (102, 12), (110, 10),
      (114, 13), (116, 9)] := by
  rw [shortEscape] at escape
  split at escape
  · rename_i itself
    obtain rfl := Option.some.inj escape
    rcases itself with rfl | rfl | rfl <;> simp
  · split_ifs at escape <;> simp_all

theorem unescaped_of_short (e c : UInt8) (escape : shortEscape e = some c) :
    e ≠ 117 ∧ unescaped e = c := by
  have listed := shortEscape_cases escape
  simp only [List.mem_cons, Prod.mk.injEq, List.not_mem_nil, or_false] at listed
  rcases listed with ⟨rfl, rfl⟩ | ⟨rfl, rfl⟩ | ⟨rfl, rfl⟩ | ⟨rfl, rfl⟩ | ⟨rfl, rfl⟩ | ⟨rfl, rfl⟩ |
    ⟨rfl, rfl⟩ | ⟨rfl, rfl⟩ <;> decide

/-- `unescape` takes the characters one by one. -/
theorem unescapeFrom_pieces {content : Bytes} {ps : List Piece}
    (literal : pieces content = some ps) :
    ∀ fuel, ps.length ≤ fuel → unescapeFrom fuel content = ps.map Piece.low := by
  refine pieces_induction (motive := fun content ps => ∀ fuel, ps.length ≤ fuel →
    unescapeFrom fuel content = ps.map Piece.low) ?_ ?_ ?_ ?_ literal
  · intro fuel _
    cases fuel <;> rfl
  · intro c rest ps other _ ih fuel enough
    obtain ⟨fuel, rfl⟩ := Nat.exists_eq_add_of_lt (Nat.lt_of_lt_of_le (Nat.succ_pos _) enough)
    rw [Nat.zero_add, List.length_cons, Nat.add_le_add_iff_right] at *
    rw [unescapeFrom_plain other, ih fuel enough]
    rfl
  · intro e c rest ps escape ih fuel enough
    obtain ⟨fuel, rfl⟩ := Nat.exists_eq_add_of_lt (Nat.lt_of_lt_of_le (Nat.succ_pos _) enough)
    obtain ⟨other, value⟩ := unescaped_of_short e c escape
    rw [Nat.zero_add, List.length_cons, Nat.add_le_add_iff_right] at *
    rw [unescapeFrom, if_pos rfl, if_neg other, value, ih fuel enough]
    rfl
  · intro a b c d rest ps _ ih fuel enough
    obtain ⟨fuel, rfl⟩ := Nat.exists_eq_add_of_lt (Nat.lt_of_lt_of_le (Nat.succ_pos _) enough)
    rw [Nat.zero_add, List.length_cons, Nat.add_le_add_iff_right] at *
    rw [unescapeFrom, if_pos rfl, if_pos rfl, List.map_cons, ← ih fuel enough]
    rfl

theorem length_pieces {content : Bytes} {ps : List Piece} (literal : pieces content = some ps) :
    ps.length ≤ content.length := by
  refine pieces_induction (motive := fun content ps => ps.length ≤ content.length)
    ?_ ?_ ?_ ?_ literal
  · exact le_rfl
  · intro c rest ps _ _ ih
    exact Nat.succ_le_succ ih
  · intro e c rest ps _ ih
    exact Nat.succ_le_succ (Nat.le_succ_of_le ih)
  · intro a b c d rest ps _ ih
    simp only [List.length_cons]
    omega

theorem unescape_pieces {content : Bytes} {ps : List Piece} (literal : pieces content = some ps) :
    unescape content = ps.map Piece.low :=
  unescapeFrom_pieces literal content.length (length_pieces literal)

theorem codeUnit_isSome {a b c d : UInt8} (digits : (codeUnit a b c d).isSome) :
    (hexDigitValue a).isSome ∧ (hexDigitValue b).isSome ∧ (hexDigitValue c).isSome ∧
      (hexDigitValue d).isSome := by
  rw [codeUnit] at digits
  split at digits
  · simp [*]
  · cases digits

theorem plain_of_digit : ∀ c : UInt8, (hexDigitValue c).isSome →
    c ≠ 0 ∧ c ≠ quote ∧ c ≠ backslash := forall_byte (by decide +kernel)

/-- The scanner takes a string literal of JSON for one. -/
theorem isLiteral_of_pieces {content : Bytes} {ps : List Piece}
    (literal : pieces content = some ps) : isLiteral content := by
  have nonzero : ∀ e : UInt8, (shortEscape e).isSome → e ≠ 0 := by
    rintro e short rfl
    exact absurd short (by decide)
  refine pieces_induction (motive := fun content _ => isLiteral content) ?_ ?_ ?_ ?_ literal
  · rfl
  · intro c rest ps other allowed ih
    rw [not_or] at allowed
    have some : c ≠ 0 := by
      rintro rfl
      exact allowed.1 (by decide)
    simpa [isLiteral, literalFrom, some, other, allowed.2] using ih
  · intro e c rest ps escape ih
    have some : e ≠ 0 := nonzero e (by rw [escape]; rfl)
    simpa [isLiteral, literalFrom, some, backslash, quote] using ih
  · intro a b c d rest ps digits ih
    obtain ⟨isA, isB, isC, isD⟩ := codeUnit_isSome digits
    obtain ⟨a₀, a₁, a₂⟩ := plain_of_digit a isA
    obtain ⟨b₀, b₁, b₂⟩ := plain_of_digit b isB
    obtain ⟨c₀, c₁, c₂⟩ := plain_of_digit c isC
    obtain ⟨d₀, d₁, d₂⟩ := plain_of_digit d isD
    have start : literalFrom false (backslash :: 117 :: a :: b :: c :: d :: rest) =
        literalFrom false (a :: b :: c :: d :: rest) := rfl
    rw [isLiteral] at ih ⊢
    rw [start]
    simpa [literalFrom, a₀, a₁, a₂, b₀, b₁, b₂, c₀, c₁, c₂, d₀, d₁, d₂] using ih

theorem codeUnit_eq_some {a b c d : UInt8} {code : Nat} (digits : codeUnit a b c d = some code) :
    ∃ w x y z, hexDigitValue a = some w ∧ hexDigitValue b = some x ∧ hexDigitValue c = some y ∧
      hexDigitValue d = some z ∧ code = ((w * 16 + x) * 16 + y) * 16 + z := by
  rw [codeUnit] at digits
  split at digits
  · exact ⟨_, _, _, _, by assumption, by assumption, by assumption, by assumption,
      (Option.some.inj digits).symm⟩
  · cases digits

/-- The two digits that `unescape` reads make up a code below 128. -/
theorem low_of_narrow {a b c d : UInt8} {code : Nat} (digits : codeUnit a b c d = some code)
    (narrow : code < 128) (small : ¬(65 ≤ d ∧ d ≤ 70)) :
    (Piece.unit a b c d).low = UInt8.ofNat code := by
  have capital : ∀ c : UInt8, ∀ y, hexDigitValue c = some y → y < 8 → ¬(65 ≤ c ∧ c ≤ 70) :=
    forall_byte (by decide +kernel)
  have joined : ∀ y < 8, ∀ z < 16,
      UInt8.ofNat y <<< 4 ||| UInt8.ofNat z = UInt8.ofNat (y * 16 + z) := by decide +kernel
  obtain ⟨w, x, y, z, -, -, third, fourth, rfl⟩ := codeUnit_eq_some digits
  have bound := hexDigitValue_lt d z fourth
  have top : w = 0 ∧ x = 0 ∧ y < 8 := by omega
  obtain ⟨rfl, rfl, half⟩ := top
  rw [Piece.low, hexval_of_value c y third (capital c y third half),
    hexval_of_value d z fourth small, joined y half z bound]
  simp

/-- Of faithful characters, `unescape` and JSON make the same. -/
theorem encode_faithful {ps : List Piece} (faithful : ∀ p ∈ ps, p.Faithful) :
    encode none ps = some (ps.map Piece.low) := by
  induction ps with
  | nil => rfl
  | cons p ps ih =>
    have more := ih fun q mem => faithful q (List.mem_cons_of_mem p mem)
    have first := faithful p List.mem_cons_self
    cases p with
    | char c => rw [encode, more]; rfl
    | unit a b c d =>
      obtain ⟨⟨code, digits, narrow⟩, small⟩ := first
      have single : utf8 code = [UInt8.ofNat code] := if_pos narrow
      simp only [encode, digits]
      rw [if_pos (.inl (by omega)), more, single, List.map_cons, low_of_narrow digits narrow small]
      rfl

/-- A literal whose escapes `unescape` reads as JSON does. -/
def Readable (content : Bytes) : Prop :=
  ∃ ps, pieces content = some ps ∧ ∀ p ∈ ps, p.Faithful

theorem Readable.decode_eq {content : Bytes} (readable : Readable content) :
    decode content = some (unescape content) := by
  obtain ⟨ps, literal, faithful⟩ := readable
  rw [decode, literal, Option.bind_some, encode_faithful faithful, unescape_pieces literal]

theorem readable_plain {c : UInt8} (other : c ≠ backslash) (allowed : ¬(c < 32 ∨ c = quote))
    {rest : Bytes} (readable : Readable rest) : Readable (c :: rest) := by
  obtain ⟨ps, literal, faithful⟩ := readable
  refine ⟨.char c :: ps, ?_, List.forall_mem_cons.mpr ⟨trivial, faithful⟩⟩
  rw [pieces.eq_def]
  simp only [if_neg other, if_neg allowed, literal, Option.map_some]

theorem readable_short {e : UInt8} (escape : (shortEscape e).isSome) {rest : Bytes}
    (readable : Readable rest) : Readable (backslash :: e :: rest) := by
  obtain ⟨ps, literal, faithful⟩ := readable
  obtain ⟨c, value⟩ := Option.isSome_iff_exists.mp escape
  have other := (unescaped_of_short e c value).1
  refine ⟨.char c :: ps, ?_, List.forall_mem_cons.mpr ⟨trivial, faithful⟩⟩
  rw [pieces.eq_def]
  simp only [if_true, if_neg other, value, literal, Option.map_some]

theorem readable_unit {a b c d : UInt8} (faithful : (Piece.unit a b c d).Faithful) {rest : Bytes}
    (readable : Readable rest) : Readable (backslash :: 117 :: a :: b :: c :: d :: rest) := by
  obtain ⟨ps, literal, others⟩ := readable
  obtain ⟨code, digits, -⟩ := faithful.1
  refine ⟨.unit a b c d :: ps, ?_, List.forall_mem_cons.mpr ⟨faithful, others⟩⟩
  rw [pieces.eq_def]
  simp only [if_true, digits, Option.isSome_some, literal, Option.map_some]

/-- The control characters without a letter of their own. -/
theorem faithful_control (c : UInt8) (control : c < 32) :
    (Piece.unit 48 48 (hexDigit (c >>> 4)) (hexDigit (c &&& 15))).Faithful := by
  have each : ∀ c : UInt8, c < 32 →
      codeUnit 48 48 (hexDigit (c >>> 4)) (hexDigit (c &&& 15)) = some c.toNat ∧ c.toNat < 128 ∧
        ¬(65 ≤ hexDigit (c &&& 15) ∧ hexDigit (c &&& 15) ≤ 70) := forall_byte (by decide +kernel)
  obtain ⟨digits, narrow, small⟩ := each c control
  exact ⟨⟨c.toNat, digits, narrow⟩, small⟩

theorem readable_escaped {c : UInt8} (needs : needsEscape c) {rest : Bytes}
    (readable : Readable rest) : Readable (escaped c ++ rest) := by
  rw [escaped]
  split
  · exact readable_short (by decide) readable
  split
  · exact readable_short (by decide) readable
  split
  · exact readable_short (by decide) readable
  split
  · exact readable_short (by decide) readable
  split
  · exact readable_short (by decide) readable
  split
  · exact readable_short (by decide) readable
  split
  · exact readable_short (by decide) readable
  have control : c < 32 := by
    simp only [needsEscape, Bool.or_eq_true, decide_eq_true_eq] at needs
    tauto
  exact readable_unit (faithful_control c control) readable

/-- What `getjson` writes for a value. -/
theorem readable_escape (value : Bytes) : Readable (escape value) := by
  induction value with
  | nil => exact ⟨[], rfl, fun p mem => nomatch mem⟩
  | cons c rest ih =>
    rw [escape_cons]
    split
    · rename_i needs
      exact readable_escaped needs ih
    · rename_i plain
      simp only [needsEscape, Bool.or_eq_true, decide_eq_true_eq, not_or] at plain
      exact readable_plain plain.2 (not_or.mpr plain.1) ih

/-- A written value denotes what was stored. -/
theorem decode_escape (value : Bytes) : decode (escape value) = some value := by
  rw [(readable_escape value).decode_eq, unescape_escape]

/-- A name that its packed form keeps: at most eight characters, the last seven of them 7-bit
characters (of a longer name only the last eight are packed, and a character from 128 on takes
one from the character before it). -/
structure Kept (name : Bytes) : Prop where
  short : name.length ≤ 8
  nonzero : ∀ c ∈ name, c ≠ 0
  ascii : ∀ c ∈ name.drop (name.length - 7), c < 128

theorem shift_eq_mul (id : UInt64) : id <<< 8 = id * 256 := by
  refine UInt64.toNat.inj ?_
  rw [UInt64.toNat_shiftLeft, UInt64.toNat_mul, Nat.shiftLeft_eq]
  rfl

theorem foldl_pack_add (id d : UInt64) (tail : Bytes) :
    tail.foldl pack (id + d) = tail.foldl pack id + d * 256 ^ tail.length := by
  induction tail generalizing id d with
  | nil => simp
  | cons c tail ih =>
    have step : pack (id + d) c = pack id c + d * 256 := by
      rw [pack, pack, shift_eq_mul, shift_eq_mul]
      grind
    rw [List.foldl_cons, List.foldl_cons, step, ih, List.length_cons, UInt64.pow_succ,
      UInt64.mul_comm (256 ^ tail.length), UInt64.mul_assoc]

theorem nameid_kept {name : Bytes} (kept : Kept name) : nameid name = AttrMap.packed name := by
  rcases Nat.lt_or_ge name.length 8 with shorter | longer
  · refine nameid_eq_packed ?_
    have last := kept.ascii
    rwa [Nat.sub_eq_zero_of_le (Nat.le_of_lt_succ shorter), List.drop_zero] at last
  · -- the borrow of the first of eight characters is shifted out
    have eight : name.length = 8 := Nat.le_antisymm kept.short longer
    obtain ⟨c, tail, rfl⟩ := List.exists_cons_of_length_eq_add_one eight
    have seven : tail.length = 7 := Nat.succ.inj eight
    have last : ∀ d ∈ tail, d < 128 := by simpa [seven] using kept.ascii
    have front : ∀ d : UInt64, tail.foldl pack d = nameid tail + d * 256 ^ 7 := by
      intro d
      have split := foldl_pack_add 0 d tail
      rwa [UInt64.zero_add, seven] at split
    have same : ∀ c : UInt8, pack 0 c * 256 ^ 7 = c.toUInt64 * 256 ^ 7 :=
      forall_byte (by decide +kernel)
    calc nameid (c :: tail) = nameid tail + pack 0 c * 256 ^ 7 := front _
      _ = nameid tail + c.toUInt64 * 256 ^ 7 := by rw [same c]
      _ = tail.foldl pack c.toUInt64 := (front _).symm
      _ = AttrMap.packed (c :: tail) := by
        rw [foldl_pack_ascii last, AttrMap.packed, List.foldl_cons, UInt64.zero_shiftLeft,
          UInt64.zero_add]

/-- A name that is packed and unpacked again. -/
theorem nameid2string_kept {name : Bytes} (kept : Kept name) :
    AttrMap.nameid2string (nameid name) = name := by
  rw [nameid_kept kept]
  exact AttrMap.nameid2string_packed kept.short kept.nonzero

section Map
variable {attrs : AttrMap} (ascending : Ascending attrs)
include ascending

theorem mem_set (name : UInt64) (v : Bytes) (entry : UInt64 × Bytes) :
    entry ∈ attrs.set name v ↔ entry = (name, v) ∨ entry ∈ attrs ∧ entry.1 ≠ name := by
  induction attrs with
  | nil => simp [AttrMap.set]
  | cons first attrs ih =>
    obtain ⟨other, old⟩ := first
    obtain ⟨least, others⟩ := List.pairwise_cons.mp ascending
    have above : name ≤ other → ∀ e ∈ attrs, e.1 ≠ name := by
      rintro low e mem rfl
      exact UInt64.lt_irrefl _ (UInt64.lt_of_le_of_lt low (least e mem))
    rw [AttrMap.set]
    split
    · rename_i below
      have front : entry ∈ (other, old) :: attrs → entry.1 ≠ name := by
        intro mem
        rcases List.mem_cons.mp mem with rfl | mem
        · exact (UInt64.ne_of_lt below).symm
        · exact above (UInt64.le_of_lt below) entry mem
      rw [List.mem_cons, and_iff_left_of_imp front]
    · split
      · rename_i same
        subst other
        have later := above UInt64.le_rfl entry
        have replaced : ¬(entry = (name, old) ∧ entry.1 ≠ name) := by
          rintro ⟨rfl, differs⟩
          exact differs rfl
        rw [List.mem_cons, List.mem_cons, or_and_right, and_iff_left_of_imp later,
          or_iff_right replaced]
      · rename_i differs
        have kept : entry = (other, old) → entry.1 ≠ name := by
          rintro rfl
          exact Ne.symm differs
        rw [List.mem_cons, List.mem_cons, ih others, or_and_right, and_iff_left_of_imp kept,
          or_left_comm]

theorem ascending_set (name : UInt64) (v : Bytes) : Ascending (attrs.set name v) := by
  induction attrs with
  | nil => exact List.pairwise_singleton _ _
  | cons first attrs ih =>
    obtain ⟨other, old⟩ := first
    obtain ⟨least, others⟩ := List.pairwise_cons.mp ascending
    rw [AttrMap.set]
    split
    · rename_i below
      refine List.pairwise_cons.mpr ⟨?_, ascending⟩
      intro e mem
      rcases List.mem_cons.mp mem with rfl | mem
      · exact below
      · exact UInt64.lt_trans below (least e mem)
    · split
      · rename_i same
        subst other
        exact List.pairwise_cons.mpr ⟨least, others⟩
      · rename_i notBelow differs
        refine List.pairwise_cons.mpr ⟨?_, ih others⟩
        intro e mem
        rcases (mem_set others name v e).mp mem with rfl | ⟨mem, -⟩
        · exact UInt64.lt_of_le_of_ne (UInt64.not_lt.mp notBelow) (Ne.symm differs)
        · exact least e mem

theorem Ascending.nodup : attrs.Nodup := by
  refine List.Pairwise.imp ?_ ascending
  rintro a b below rfl
  exact UInt64.lt_irrefl _ below

end Map

def setAll (attrs : AttrMap) (entries : List (UInt64 × Bytes)) : AttrMap :=
  entries.foldl (fun attrs entry => attrs.set entry.1 entry.2) attrs

theorem ascending_setAll {attrs : AttrMap} (ascending : Ascending attrs)
    (entries : List (UInt64 × Bytes)) : Ascending (setAll attrs entries) := by
  induction entries generalizing attrs with
  | nil => exact ascending
  | cons entry entries ih => exact ih (ascending_set ascending entry.1 entry.2)

theorem mem_setAll {attrs : AttrMap} (ascending : Ascending attrs)
    {entries : List (UInt64 × Bytes)} (distinct : (entries.map Prod.fst).Nodup)
    (e : UInt64 × Bytes) :
    e ∈ setAll attrs entries ↔ e ∈ entries ∨ e ∈ attrs ∧ e.1 ∉ entries.map Prod.fst := by
  induction entries generalizing attrs with
  | nil => simp [setAll]
  | cons entry entries ih =>
    obtain ⟨fresh, others⟩ := List.nodup_cons.mp distinct
    have more : e ∈ setAll attrs (entry :: entries) ↔ _ :=
      ih (ascending_set ascending entry.1 entry.2) others
    have unassigned : e = entry → e.1 ∉ entries.map Prod.fst := by
      rintro rfl
      exact fresh
    have split : e = entry ∧ e.1 ∉ entries.map Prod.fst ↔ e = entry :=
      and_iff_left_of_imp unassigned
    rw [more, mem_set ascending, List.mem_cons, List.map_cons, List.mem_cons, not_or, or_and_right,
      split, and_assoc, or_left_comm, or_assoc]

/-- Distinct names that cover the map: what is assigned is what it holds. -/
theorem setAll_perm {attrs : AttrMap} (ascending : Ascending attrs)
    {entries : List (UInt64 × Bytes)} (distinct : (entries.map Prod.fst).Nodup)
    (covered : ∀ entry ∈ attrs, entry.1 ∈ entries.map Prod.fst) :
    (setAll attrs entries).Perm entries := by
  refine (List.perm_ext_iff_of_nodup (ascending_setAll ascending entries).nodup
    (List.Nodup.of_map _ distinct)).mpr ?_
  intro e
  rw [mem_setAll ascending distinct, or_iff_left]
  rintro ⟨mem, missing⟩
  exact missing (covered e mem)

/-- What `setattr` files a member under. -/
def filed (normalize : Bytes → Bytes) (m : Bytes × Bytes) : UInt64 × Bytes :=
  normalized normalize (nameid m.1, unescape m.2)

/-- The object with the value of the name in normalised form. -/
def renamed (normalize : Bytes → Bytes) (o : Bytes × Bytes) : Bytes × Bytes :=
  (o.1, if o.1 = ascii "n" then normalize o.2 else o.2)

/-- The loop of `setattr` over members in any order. -/
theorem run_filed (normalize : Bytes → Bytes) (follow : Follow) (attrs : AttrMap)
    {ms : List (Bytes × Bytes)} (named : ∀ m ∈ ms, m.1 ≠ []) (plain : ∀ m ∈ ms, Plain m.1)
    (literal : ∀ m ∈ ms, isLiteral m.2) :
    Run follow (fun name => some (storeattr normalize name)) attrs
      (ms.map fun m => (m.1, str m.2)) .ended (setAll attrs (ms.map (filed normalize))) [] := by
  induction ms generalizing attrs with
  | nil => exact .nil
  | cons m ms ih =>
    have here := literal m List.mem_cons_self
    have takes := takes_str normalize (nameid m.1) here attrs follow
      (ms.map fun m => (m.1, str m.2))
    have more := ih (attrs.set (nameid m.1) (filed normalize m).2)
      (fun m' mem => named m' (List.mem_cons_of_mem m mem))
      (fun m' mem => plain m' (List.mem_cons_of_mem m mem))
      fun m' mem => literal m' (List.mem_cons_of_mem m mem)
    exact .read ⟨plain m List.mem_cons_self, .str here⟩ (named m List.mem_cons_self) rfl takes more

/-- An entry under a name that the map gives back. -/
def Carried (entry : UInt64 × Bytes) : Prop :=
  ∃ name, entry.1 = nameid name ∧ name ≠ [] ∧ (quote ∉ name ∧ backslash ∉ name) ∧ Kept name

/-- The member that `getjson` writes for an entry, as an object has it. -/
def carried (entry : UInt64 × Bytes) : Bytes × Bytes :=
  (AttrMap.nameid2string entry.1, entry.2)

theorem Carried.key {entry : UInt64 × Bytes} (isCarried : Carried entry) :
    entry.1 = nameid (carried entry).1 := by
  obtain ⟨name, key, -, -, kept⟩ := isCarried
  rw [carried, key, nameid2string_kept kept]

theorem areNames_carried {attrs : AttrMap} (ascending : Ascending attrs)
    (each : ∀ entry ∈ attrs, Carried entry) :
    AreNames ((attrs.map carried).map Prod.fst) := by
  have name : ∀ x ∈ (attrs.map carried).map Prod.fst, ∃ entry ∈ attrs, entry.1 = nameid x ∧
      x ≠ [] ∧ quote ∉ x ∧ backslash ∉ x := by
    intro x mem
    simp only [List.map_map, List.mem_map, Function.comp_apply, carried] at mem
    obtain ⟨entry, mem, rfl⟩ := mem
    obtain ⟨name, key, nonempty, unquoted, kept⟩ := each entry mem
    rw [key, nameid2string_kept kept]
    exact ⟨entry, mem, key, nonempty, unquoted⟩
  refine ⟨?_, ?_, ?_⟩
  · rw [List.map_map, List.nodup_iff_pairwise_ne, List.pairwise_map]
    refine List.Pairwise.imp_of_mem ?_ ascending
    rintro a b memA memB below same
    obtain ⟨x, keyA, -, -, keptA⟩ := each a memA
    obtain ⟨y, keyB, -, -, keptB⟩ := each b memB
    simp only [Function.comp_apply, carried, keyA, keyB, nameid2string_kept keptA,
      nameid2string_kept keptB] at same
    rw [keyA, keyB, same] at below
    exact UInt64.lt_irrefl _ below
  · intro x mem
    obtain ⟨entry, -, -, nonempty, -⟩ := name x mem
    exact nonempty
  · intro x mem
    obtain ⟨entry, -, -, -, unquoted⟩ := name x mem
    exact unquoted

/-- `getjson` writes the map down: what it writes denotes the entries. -/
theorem denotes_getjson {attrs : AttrMap} (ascending : Ascending attrs)
    (each : ∀ entry ∈ attrs, Carried entry) : Denotes (getjson attrs) (attrs.map carried) := by
  have nonzero : ∀ entry ∈ attrs, entry.1 ≠ 0 := by
    intro entry mem
    obtain ⟨name, key, nonempty, unquoted, kept⟩ := each entry mem
    rw [key]
    exact nameid_ne_zero (isLiteral_of_unquoted kept.nonzero unquoted) nonempty
  refine ⟨areNames_carried ascending each,
    attrs.map fun entry => (AttrMap.nameid2string entry.1, escape entry.2), ?_, ?_⟩
  · rw [getjson_eq nonzero, membersText, List.map_map]
    rfl
  · rw [List.map_map, List.map_map]
    refine List.map_congr_left ?_
    intro entry _
    simp only [Function.comp_apply, decode_escape, carried]

/-- The attribute text of a node, as `decryptattr` sees it; `rest` is the memory behind it. -/
structure Received (ecbd : Crypto.Block → Crypto.Block) (attrstring rest text : Bytes) : Prop where
  nonempty : attrstring ≠ []
  whole : (Base64.atob attrstring (attrstring.length * 3 / 4 + 3)).length % Crypto.blockSize = 0
  decrypted :
    Crypto.cbcDecrypt ecbd (Base64.atob attrstring (attrstring.length * 3 / 4 + 3)) ++ rest = text

/-- The text of an object behind the magic number. -/
def attrText (json behind : Bytes) : Bytes := ascii "MEGA\x7b" ++ (json ++ closeObject :: behind)

theorem decryptattr_received {ecbd : Crypto.Block → Crypto.Block} {attrstring rest text : Bytes}
    (received : Received ecbd attrstring rest text) :
    decryptattr ecbd attrstring rest =
      if text.take 6 = ascii "MEGA\x7b\"" then some text else none := by
  simp only [decryptattr, if_neg received.nonempty, received.whole, received.decrypted, if_true]

/-- `setattr` files the members of a received text one after another. -/
theorem setattr_received {ecbd : Crypto.Block → Crypto.Block} {attrstring rest behind : Bytes}
    {ms : List (Bytes × Bytes)}
    (received : Received ecbd attrstring rest (attrText (membersText ms) behind))
    (named : ∀ m ∈ ms, m.1 ≠ []) (plain : ∀ m ∈ ms, Plain m.1)
    (literal : ∀ m ∈ ms, isLiteral m.2) (normalize : Bytes → Bytes) (attrs : AttrMap) :
    ∃ left, setattr ecbd normalize rest attrs attrstring =
      .ok (setAll attrs (ms.map (filed normalize)), left) := by
  have run := run_filed normalize (fun _ => True) attrs named plain literal
  have loop : members (fun name => some (storeattr normalize name)) attrs
      (membersText ms ++ closeObject :: behind) =
        .ok (.ended, setAll attrs (ms.map (filed normalize)), closeObject :: behind) := by
    have whole : members _ _ (_ ++ closeObject :: behind) = _ := members_run run trivial
    rwa [List.map_map] at whole
  rw [setattr, decryptattr_received received]
  cases ms with
  | nil =>
    have magic : (attrText (membersText []) behind).take 6 = ascii "MEGA\x7b\x7d" := rfl
    rw [magic, if_neg (by decide)]
    exact ⟨attrstring, rfl⟩
  | cons m ms =>
    have magic : (attrText (membersText (m :: ms)) behind).take 6 = ascii "MEGA\x7b\"" := rfl
    have text : (attrText (membersText (m :: ms)) behind).drop 5 =
        membersText (m :: ms) ++ closeObject :: behind := rfl
    rw [if_pos magic]
    simp only [text, loop]
    exact ⟨[], rfl⟩

theorem nameid_inj {x y : Bytes} (keptX : Kept x) (keptY : Kept y) (same : nameid x = nameid y) :
    x = y := by
  rw [← nameid2string_kept keptX, same, nameid2string_kept keptY]

/-- What comes back of a filed member. -/
theorem carried_filed (normalize : Bytes → Bytes) {m : Bytes × Bytes} (kept : Kept m.1) :
    carried (filed normalize m) = renamed normalize (m.1, unescape m.2) := by
  have isName : nameid m.1 = nameid (ascii "n") ↔ m.1 = ascii "n" := by
    refine ⟨nameid_inj kept ⟨by decide, ?_, ?_⟩, congrArg nameid⟩
    · exact forall_mem_of_all (by decide)
    · exact forall_mem_of_all (by decide)
  simp only [carried, filed, normalized, renamed, nameid2string_kept kept, isName]

/-- The objects whose attributes survive: names that the packed form keeps and values that
`unescape` reads as JSON does. -/
structure Survives (ms obj : List (Bytes × Bytes)) : Prop where
  names : AreNames (obj.map Prod.fst)
  values : ms.map (fun m => (m.1, decode m.2)) = obj.map fun o => (o.1, some o.2)
  kept : ∀ o ∈ obj, Kept o.1
  readable : ∀ m ∈ ms, Readable m.2

theorem Survives.obj_eq {ms obj : List (Bytes × Bytes)} (survives : Survives ms obj) :
    obj = ms.map fun m => (m.1, unescape m.2) := by
  have injective : Function.Injective fun o : Bytes × Bytes => (o.1, some o.2) := by
    rintro ⟨x, v⟩ ⟨y, w⟩ same
    simpa using same
  refine List.map_injective_iff.mpr injective ?_
  rw [← survives.values, List.map_map]
  refine List.map_congr_left ?_
  intro m mem
  rw [(survives.readable m mem).decode_eq]
  rfl

section Survival
variable {ms obj : List (Bytes × Bytes)} (survives : Survives ms obj) (normalize : Bytes → Bytes)
include survives

theorem Survives.named : ∀ m ∈ ms, m.1 ≠ [] ∧ (quote ∉ m.1 ∧ backslash ∉ m.1) ∧ Kept m.1 := by
  intro m mem
  have present : (m.1, unescape m.2) ∈ obj := by
    rw [survives.obj_eq]
    exact List.mem_map_of_mem mem
  have name : m.1 ∈ obj.map Prod.fst := List.mem_map.mpr ⟨_, present, rfl⟩
  exact ⟨survives.names.nonempty _ name, survives.names.unquoted _ name,
    survives.kept (m.1, unescape m.2) present⟩

theorem Survives.keys_nodup : ((ms.map (filed normalize)).map Prod.fst).Nodup := by
  have names := survives.names.distinct
  rw [survives.obj_eq, List.map_map] at names
  rw [List.map_map]
  rw [List.nodup_iff_pairwise_ne, List.pairwise_map] at names ⊢
  refine List.Pairwise.imp_of_mem ?_ names
  intro a b memA memB differ same
  exact differ (nameid_inj (survives.named a memA).2.2 (survives.named b memB).2.2 same)

theorem Survives.entries_eq :
    (ms.map (filed normalize)).map carried = obj.map (renamed normalize) := by
  rw [survives.obj_eq, List.map_map, List.map_map]
  refine List.map_congr_left ?_
  intro m mem
  exact carried_filed normalize (survives.named m mem).2.2

theorem Survives.carried {entry : UInt64 × Bytes} (mem : entry ∈ ms.map (filed normalize)) :
    Carried entry := by
  obtain ⟨m, present, rfl⟩ := List.mem_map.mp mem
  exact ⟨m.1, rfl, survives.named m present⟩

end Survival

/-- An update of a map that is carried: it replaces what is carried under the name. -/
theorem mem_carried_set {attrs : AttrMap} (ascending : Ascending attrs)
    (each : ∀ entry ∈ attrs, Carried entry) {name : Bytes} (kept : Kept name) (v : Bytes)
    (o : Bytes × Bytes) : o ∈ (attrs.set (nameid name) v).map carried ↔
      o = (name, v) ∨ o ∈ attrs.map carried ∧ o.1 ≠ name := by
  have updated : carried (nameid name, v) = (name, v) := by
    rw [carried, nameid2string_kept kept]
  rw [List.mem_map, List.mem_map]
  constructor
  · rintro ⟨a, mem, rfl⟩
    rcases (mem_set ascending _ v a).mp mem with rfl | ⟨mem, differs⟩
    · exact .inl updated
    · refine .inr ⟨⟨a, mem, rfl⟩, fun same => differs ?_⟩
      rw [(each a mem).key, same]
  · rintro (rfl | ⟨⟨a, mem, rfl⟩, differs⟩)
    · exact ⟨_, (mem_set ascending _ v _).mpr (.inl rfl), updated⟩
    · refine ⟨a, (mem_set ascending _ v a).mpr (.inr ⟨mem, fun same => differs ?_⟩), rfl⟩
      rw [carried, same, nameid2string_kept kept]

/-- A received attribute text survives: `getjson` denotes the object again, with its name in
normalised form, and after an update it differs in the updated attribute only. -/
theorem getjson_setattr {ms obj : List (Bytes × Bytes)} (survives : Survives ms obj)
    {ecbd : Crypto.Block → Crypto.Block} {attrstring rest behind : Bytes}
    (received : Received ecbd attrstring rest (attrText (membersText ms) behind))
    (normalize : Bytes → Bytes) {attrs : AttrMap} (ascending : Ascending attrs)
    (known : ∀ entry ∈ attrs, ∃ o ∈ obj, entry.1 = nameid o.1) :
    ∃ attrs' left, setattr ecbd normalize rest attrs attrstring = .ok (attrs', left) ∧
      (∃ obj', Denotes (getjson attrs') obj' ∧ obj'.Perm (obj.map (renamed normalize))) ∧
      ∀ name v, name ≠ [] → (quote ∉ name ∧ backslash ∉ name) → Kept name →
        ∃ obj', Denotes (getjson (attrs'.set (nameid name) v)) obj' ∧
          ∀ o, o ∈ obj' ↔ o = (name, v) ∨ o ∈ obj.map (renamed normalize) ∧ o.1 ≠ name := by
  have literal : ∀ m ∈ ms, isLiteral m.2 := by
    intro m mem
    obtain ⟨ps, pieces, -⟩ := survives.readable m mem
    exact isLiteral_of_pieces pieces
  have plain : ∀ m ∈ ms, Plain m.1 := by
    intro m mem
    obtain ⟨-, unquoted, kept⟩ := survives.named m mem
    exact ⟨isLiteral_of_unquoted kept.nonzero unquoted, unquoted.1⟩
  have covered : ∀ entry ∈ attrs, entry.1 ∈ (ms.map (filed normalize)).map Prod.fst := by
    intro entry mem
    obtain ⟨o, present, key⟩ := known entry mem
    rw [survives.obj_eq] at present
    obtain ⟨m, member, rfl⟩ := List.mem_map.mp present
    rw [key, List.map_map]
    exact List.mem_map_of_mem (f := fun m => nameid m.1) member
  obtain ⟨left, parsed⟩ := setattr_received received (fun m mem => (survives.named m mem).1) plain
    literal normalize attrs
  have perm := setAll_perm ascending (survives.keys_nodup normalize) covered
  have sorted := ascending_setAll ascending (ms.map (filed normalize))
  have each : ∀ entry ∈ setAll attrs (ms.map (filed normalize)), Carried entry :=
    fun entry mem => survives.carried normalize (perm.mem_iff.mp mem)
  have objects := perm.map carried
  rw [survives.entries_eq] at objects
  refine ⟨_, left, parsed, ⟨_, denotes_getjson sorted each, objects⟩, ?_⟩
  intro name v nonempty unquoted kept
  refine ⟨_, denotes_getjson (ascending_set sorted (nameid name) v) ?_, ?_⟩
  · intro entry mem
    rcases (mem_set sorted _ v entry).mp mem with rfl | ⟨mem, -⟩
    · exact ⟨name, rfl, nonempty, unquoted, kept⟩
    · exact each entry mem
  · intro o
    rw [mem_carried_set sorted each kept, objects.mem_iff]

/-- The block cipher on a text of two blocks: what `ecbd` makes of the blocks of `cipher`. -/
def twoBlocks (plain cipher : Bytes) (block : Crypto.Block) : Crypto.Block :=
  if block = Crypto.load cipher then Crypto.load plain
  else Crypto.xorBlock (Crypto.load cipher) (Crypto.load (plain.drop Crypto.blockSize))

/-- An attribute with an escaped digit, and a name. -/
def sampleMembers : List (Bytes × Bytes) :=
  [(ascii "lat", ascii "\\u0031"), (ascii "n", ascii "a")]

/-- Its text, encrypted under the key 00 01 .. 0f. -/
def sampleCipher : Bytes :=
  [112, 198, 249, 220, 13, 3, 86, 40, 80, 208, 119, 172, 164, 221, 33, 25,
    193, 121, 63, 194, 169, 9, 210, 163, 76, 115, 18, 175, 251, 123, 243, 181]

def samplePlain : Bytes := attrText (membersText sampleMembers) [0, 0, 0, 0]

theorem survives_sample :
    Survives sampleMembers [(ascii "lat", ascii "1"), (ascii "n", ascii "a")] := by
  refine ⟨⟨by decide, by decide, by decide⟩, by decide, ?_, ?_⟩
  · intro o mem
    rcases List.mem_cons.mp mem with rfl | mem
    · exact ⟨by decide, forall_mem_of_all (by decide), forall_mem_of_all (by decide)⟩
    · rw [List.mem_singleton.mp mem]
      exact ⟨by decide, forall_mem_of_all (by decide), forall_mem_of_all (by decide)⟩
  · intro m mem
    rcases List.mem_cons.mp mem with rfl | mem
    · refine ⟨[.unit 48 48 51 49], by decide, ?_⟩
      intro p mem
      rw [List.mem_singleton.mp mem]
      exact ⟨⟨49, by decide, by decide⟩, by decide⟩
    · rw [List.mem_singleton.mp mem]
      exact ⟨[.char 97], by decide, fun p mem => by rw [List.mem_singleton.mp mem]; trivial⟩

theorem getjson_setattr_sample :
    ∃ attrs left, setattr (twoBlocks samplePlain sampleCipher) id [] []
        (Base64.btoa sampleCipher) = .ok (attrs, left) ∧
      (∃ obj, Denotes (getjson attrs) obj ∧
        obj.Perm [(ascii "lat", ascii "1"), (ascii "n", ascii "a")]) := by
  have received : Received (twoBlocks samplePlain sampleCipher) (Base64.btoa sampleCipher) []
      (attrText (membersText sampleMembers) [0, 0, 0, 0]) :=
    ⟨by decide, by decide, by decide⟩
  obtain ⟨attrs, left, parsed, denoted, -⟩ :=
    getjson_setattr survives_sample received id List.Pairwise.nil fun entry mem => nomatch mem
  exact ⟨attrs, left, parsed, denoted⟩

/-- A name of nine letters, encrypted under the same key. -/
def longCipher : Bytes :=
  [112, 255, 248, 110, 82, 45, 188, 216, 140, 68, 30, 178, 235, 21, 129, 104,
    169, 124, 133, 35, 92, 16, 153, 205, 217, 57, 157, 198, 247, 119, 178, 118]

def longMembers : List (Bytes × Bytes) := [(ascii "favourite", ascii "1")]

def longPlain : Bytes := attrText (membersText longMembers) (List.replicate 11 0)

/-- The first letter of a name of nine letters is lost: what is sent back is another object. -/
theorem long_name_lost :
    Received (twoBlocks longPlain longCipher) (Base64.btoa longCipher) [] longPlain ∧
      Denotes (membersText longMembers) [(ascii "favourite", ascii "1")] ∧
      setattr (twoBlocks longPlain longCipher) id [] [] (Base64.btoa longCipher) =
        .ok ([(nameid (ascii "avourite"), ascii "1")], []) ∧
      getjson [(nameid (ascii "avourite"), ascii "1")] = ascii "\"avourite\":\"1\"" ∧
      ¬∃ obj, Denotes (getjson [(nameid (ascii "avourite"), ascii "1")]) obj ∧
        obj.Perm [(ascii "favourite", ascii "1")] := by
  have written : getjson [(nameid (ascii "avourite"), ascii "1")] = ascii "\"avourite\":\"1\"" := by
    decide +kernel
  refine ⟨⟨by decide, by decide, by decide⟩,
    ⟨⟨by decide, by decide, by decide⟩, longMembers, rfl, by decide⟩, by decide +kernel, written,
    ?_⟩
  rintro ⟨obj, ⟨-, ms, text, values⟩, perm⟩
  rw [List.perm_singleton.mp perm] at values
  obtain ⟨m, rfl⟩ : ∃ m, ms = [m] :=
    List.length_eq_one_iff.mp (by simpa using congrArg List.length values)
  have name : m.1 = ascii "favourite" := congrArg Prod.fst (List.cons.inj values).1
  rw [written] at text
  have second : (ascii "\"avourite\":\"1\"")[1]? = some 102 := by
    rw [text, membersText, List.map_singleton, separated, member, name]
    rfl
  exact absurd second (by decide)

end MegaSdk.Nodes
