import MegaSdk.Types
import MegaSdk.Lib.ByteOrder
import Mathlib.Data.List.Lex
import Mathlib.Data.Prod.Lex

/-!
# Fingerprints as keys

filefingerprint.cpp: `FileFingerprintCmp`, the order of the maps and sets whose keys are
fingerprints, and `genfingerprint`, which makes the fingerprint of a local file.
-/

namespace MegaSdk

open ByteOrder

namespace FileFingerprint

/-- The checksums as `memcmp` reads them. -/
def crcBytes (f : FileFingerprint) : List ℕ :=
  (f.crc.toList.flatMap fun c => leBytes 4 c.toNat).map UInt8.toNat

/-- `FileFingerprintCmp`. -/
def cmp (a b : FileFingerprint) : Bool :=
  if a.size < b.size then true
  else if a.size > b.size then false
  else if a.mtime < b.mtime then true
  else if a.mtime > b.mtime then false
  else a.crcBytes < b.crcBytes

def key (f : FileFingerprint) : ℤ ×ₗ ℤ ×ₗ List ℕ := toLex (f.size, toLex (f.mtime, f.crcBytes))

theorem cmp_iff_key_lt (a b : FileFingerprint) : a.cmp b = true ↔ a.key < b.key := by
  rw [cmp, key, key, Prod.Lex.toLex_lt_toLex, Prod.Lex.toLex_lt_toLex]
  split_ifs with less more earlier later
  · simp [less]
  · simp [less, ne_of_gt more]
  · simp [earlier, le_antisymm (not_lt.mp more) (not_lt.mp less)]
  · simp [less, earlier, ne_of_gt later]
  · have size := le_antisymm (not_lt.mp more) (not_lt.mp less)
    have mtime := le_antisymm (not_lt.mp later) (not_lt.mp earlier)
    simp [size, mtime]

theorem leBytes_inj {width m n : Nat} (small : m < 256 ^ width) (small' : n < 256 ^ width)
    (same : leBytes width m = leBytes width n) : m = n := by
  have values := congrArg ofLe same
  rwa [ofLe_leBytes, ofLe_leBytes, Nat.mod_eq_of_lt small, Nat.mod_eq_of_lt small'] at values

/-- Different checksums have different bytes. -/
theorem words_inj {xs ys : List UInt32} (length : xs.length = ys.length)
    (same : (xs.flatMap fun c => leBytes 4 c.toNat) = ys.flatMap fun c => leBytes 4 c.toNat) :
    xs = ys := by
  induction xs generalizing ys with
  | nil => exact (List.length_eq_zero_iff.mp length.symm).symm
  | cons x xs ih =>
    cases ys with
    | nil => cases length
    | cons y ys =>
      rw [List.flatMap_cons, List.flatMap_cons] at same
      obtain ⟨first, rest⟩ := List.append_inj same (by simp)
      have value := leBytes_inj x.toNat_lt y.toNat_lt first
      rw [UInt32.toNat_inj.mp value, ih (Nat.succ.inj length) rest]

/-- The order takes fingerprints for the same that agree in size, time and checksums. -/
theorem key_eq_iff (a b : FileFingerprint) :
    a.key = b.key ↔ a.size = b.size ∧ a.mtime = b.mtime ∧ a.crc = b.crc := by
  have crc : a.crcBytes = b.crcBytes ↔ a.crc = b.crc := by
    constructor
    · intro same
      have bytes := List.map_injective_iff.mpr (fun _ _ => UInt8.toNat_inj.mp) same
      have words := words_inj (by simp) bytes
      exact Vector.toList_inj.mp words
    · intro same
      rw [crcBytes, same, crcBytes]
  rw [key, key, toLex_inj, Prod.mk.injEq, toLex_inj, Prod.mk.injEq, crc]

/-- What `genfingerprint` finds in an open file. A file of up to 16 bytes is taken as it is read;
for others there are no checksums if a read fails. -/
structure Source where
  mtime : Int
  size : Int
  crc : Option (Vector UInt32 4)

/-- `genfingerprint`, and whether it says that something has changed. -/
def genfingerprint (f : FileFingerprint) (fa : Source) (ignoremtime : Bool) :
    FileFingerprint × Bool :=
  let changed := (f.mtime ≠ fa.mtime && !ignoremtime) || f.size ≠ fa.size
  match fa.crc with
  | none => (⟨-1, fa.mtime, f.crc, f.isvalid⟩, true)
  | some crc => (⟨fa.size, fa.mtime, crc, true⟩, changed || f.crc ≠ crc || !f.isvalid)

end FileFingerprint

end MegaSdk
