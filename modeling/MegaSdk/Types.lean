import Mathlib.Data.Nat.Notation
import Mathlib.Algebra.Group.Int.Defs
import Mathlib.Algebra.Ring.Nat

/-!
# Shared types of the client access engine

Enumerations that the engine casts from server integers without a range check
(`nodetype_t`, `accesslevel_t`) are integers here, with the source's constants.
-/

namespace MegaSdk

/-- Error codes of the API (`error` in types.h). -/
inductive ApiError where
  | ok | internal | args | again | rateLimit | failed | tooMany | range | expired | noEnt
  | circular | access | exist | incomplete | key | sid | blocked | overQuota | tempUnavail
  | tooManyConnections | write | read | appKey
  deriving DecidableEq, Repr

namespace ApiError

def code : ApiError → Int
  | ok => 0
  | internal => -1
  | args => -2
  | again => -3
  | rateLimit => -4
  | failed => -5
  | tooMany => -6
  | range => -7
  | expired => -8
  | noEnt => -9
  | circular => -10
  | access => -11
  | exist => -12
  | incomplete => -13
  | key => -14
  | sid => -15
  | blocked => -16
  | overQuota => -17
  | tempUnavail => -18
  | tooManyConnections => -19
  | write => -20
  | read => -21
  | appKey => -22

end ApiError

/-- `nodetype_t`. -/
abbrev NodeType := Int

def typeUnknown : NodeType := -1
def fileNode : NodeType := 0
def folderNode : NodeType := 1
def rootNode : NodeType := 2
def rubbishNode : NodeType := 4

/-- `accesslevel_t`, compared as integers. -/
abbrev AccessLevel := Int

def accessUnknown : AccessLevel := -1
def rdOnly : AccessLevel := 0
def rdWr : AccessLevel := 1
def full : AccessLevel := 2
def ownerPreLogin : AccessLevel := 4

/-- `reqstatus_t`. -/
inductive ReqStatus where
  | ready | prepared | inflight | success | failure | done
  deriving DecidableEq, Repr

/-- Byte strings (`std::string`, `char[]` and `byte[]` buffers). -/
abbrev Bytes := List UInt8

def ascii (s : String) : Bytes := s.toList.map fun c => c.toNat.toUInt8

/-- A property of bytes that can be checked one by one. -/
theorem forall_byte {p : UInt8 → Prop} (each : ∀ n < 256, p (UInt8.ofNat n)) (c : UInt8) : p c := by
  have value := each c.toNat c.toNat_lt
  rwa [UInt8.ofNat_toNat] at value

/-- A property of the bytes of a closed text, to be checked byte by byte. -/
theorem forall_mem_of_all {p : UInt8 → Prop} [DecidablePred p] {text : Bytes}
    (all : text.all (fun c => p c) = true) : ∀ c ∈ text, p c := fun c mem =>
  of_decide_eq_true (List.all_eq_true.mp all c mem)

def isDigit (c : UInt8) : Bool := 48 ≤ c && c ≤ 57

/-- The number spelled by the leading decimal digits. -/
def leadingDigits (text : Bytes) : Nat :=
  (text.takeWhile isDigit).foldl (fun n c => 10 * n + (c.toNat - 48)) 0

/-- The integer at the start of a text: blanks, a sign and digits. -/
def leadingInteger (text : Bytes) : Int :=
  match text.dropWhile fun c => c == 32 || (9 ≤ c && c ≤ 13) with
  | 45 :: rest => -leadingDigits rest
  | 43 :: rest => leadingDigits rest
  | rest => leadingDigits rest

/-- A number beyond the range of 64 bits becomes the nearest bound. -/
def saturate (i : Int) : Int := max (-2 ^ 63) (min (2 ^ 63 - 1) i)

def atoll (text : Bytes) : Int := saturate (leadingInteger text)

/-- `atoi`, which cuts a `long` down to an `int`. -/
def atoi (text : Bytes) : Int := (atoll text).bmod (2 ^ 32)

theorem saturate_of_mem {i : Int} (low : -2 ^ 63 ≤ i) (high : i < 2 ^ 63) : saturate i = i := by
  rw [saturate]
  omega

theorem atoi_of_small {text : Bytes} {n : Nat} (value : leadingInteger text = n)
    (small : n < 2 ^ 31) : atoi text = n := by
  rw [atoi, atoll, value, saturate_of_mem (by omega) (by omega)]
  exact Int.bmod_eq_of_le (by omega) (by omega)

/-- `hexval`, for signed characters and as far as its low byte is used. -/
def hexval (c : UInt8) : UInt8 := if 57 < c ∧ c < 128 then c - 97 + 10 else c - 48

/-- A digit of `%02x`. -/
def hexDigit (n : UInt8) : UInt8 := if n < 10 then n + 48 else n - 10 + 97

/-- A property of half bytes that can be checked one by one. -/
theorem forall_nibble {p : UInt8 → Prop} (each : ∀ n < 16, p (UInt8.ofNat n)) (n : UInt8)
    (small : n < 16) : p n := by
  have value := each n.toNat (UInt8.lt_iff_toNat_lt.mp small)
  rwa [UInt8.ofNat_toNat] at value

theorem high_lt (c : UInt8) : c >>> 4 < 16 := by
  rw [UInt8.lt_iff_toNat_lt, UInt8.toNat_shiftRight, Nat.shiftRight_eq_div_pow]
  have bound := c.toNat_lt
  exact Nat.div_lt_of_lt_mul bound

theorem low_lt (c : UInt8) : c &&& 15 < 16 := by
  rw [UInt8.lt_iff_toNat_lt, UInt8.toNat_and]
  exact Nat.lt_succ_of_le Nat.and_le_right

theorem hexval_hexDigit {n : UInt8} (small : n < 16) : hexval (hexDigit n) = n :=
  forall_nibble (p := fun n => hexval (hexDigit n) = n) (by decide) n small

/-- `FileFingerprint`; `isvalid` tells whether it represents actual file data. -/
structure FileFingerprint where
  size : Int
  mtime : Int
  crc : Vector UInt32 4
  isvalid : Bool
  deriving DecidableEq, Repr

/-- `operator==`: fingerprints that are not fully available get the benefit of the doubt. -/
def FileFingerprint.same (lhs rhs : FileFingerprint) : Bool :=
  if lhs.size ≠ rhs.size then false
  else if (lhs.mtime - rhs.mtime).natAbs > 2 then false
  else if lhs.isvalid = false ∨ rhs.isvalid = false then true
  else lhs.crc = rhs.crc

/-- How an operation of the file system ends: a failure is transient or permanent. -/
inductive FsOutcome where
  | done | transient | permanent
  deriving DecidableEq, Repr

/-- `dstime`: deciseconds in an unsigned 32-bit counter. -/
abbrev DsTime := UInt32

end MegaSdk
