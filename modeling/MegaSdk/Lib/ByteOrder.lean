import Mathlib.Data.List.Basic
import Mathlib.Algebra.Ring.Nat

/-!
# Fixed-width integers as bytes

Little-endian encodings of a given width, and the integer that a byte string
denotes. Big-endian encodings are the reversed ones.
-/

namespace ByteOrder

/-- The `width` low bytes of `n`, least significant first. -/
def leBytes : Nat → Nat → List UInt8
  | 0, _ => []
  | width + 1, n => UInt8.ofNat n :: leBytes width (n / 256)

def beBytes (width n : Nat) : List UInt8 := (leBytes width n).reverse

/-- The integer denoted by bytes, least significant first. -/
def ofLe : List UInt8 → Nat
  | [] => 0
  | b :: rest => b.toNat + 256 * ofLe rest

@[simp] theorem length_leBytes (width n : Nat) : (leBytes width n).length = width := by
  induction width generalizing n with
  | zero => rfl
  | succ width ih => simp [leBytes, ih]

theorem ofLe_leBytes (width n : Nat) : ofLe (leBytes width n) = n % 256 ^ width := by
  induction width generalizing n with
  | zero => simp [leBytes, ofLe, Nat.mod_one]
  | succ width ih =>
    have digit : (UInt8.ofNat n).toNat = n % 256 := by simp
    rw [leBytes, ofLe, ih, digit, Nat.pow_succ', Nat.mod_mul]

theorem ofLe_lt (bytes : List UInt8) : ofLe bytes < 256 ^ bytes.length := by
  induction bytes with
  | nil => simp [ofLe]
  | cons b rest ih =>
    have small := b.toNat_lt
    rw [ofLe, List.length_cons, Nat.pow_succ]
    omega

theorem leBytes_zero (width : Nat) : leBytes width 0 = List.replicate width 0 := by
  induction width with
  | zero => rfl
  | succ width ih => rw [leBytes, Nat.zero_div, ih, List.replicate_succ]; rfl

/-- The encoding of what bytes denote is the bytes and zeros. -/
theorem leBytes_ofLe (bytes : List UInt8) (more : Nat) :
    leBytes (bytes.length + more) (ofLe bytes) = bytes ++ List.replicate more 0 := by
  induction bytes with
  | nil => rw [ofLe, leBytes_zero, List.length_nil, Nat.zero_add, List.nil_append]
  | cons b rest ih =>
    have small := b.toNat_lt
    have low : UInt8.ofNat (b.toNat + 256 * ofLe rest) = b := by
      apply UInt8.toNat_inj.mp
      simp only [UInt8.toNat_ofNat']
      omega
    have high : (b.toNat + 256 * ofLe rest) / 256 = ofLe rest := by omega
    rw [List.length_cons, Nat.succ_add, ofLe, leBytes, low, high, ih, List.cons_append]

end ByteOrder
