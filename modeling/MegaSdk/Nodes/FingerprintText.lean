import MegaSdk.Base64
import MegaSdk.Nodes.Fingerprint
import MegaSdk.Sync.LocalRecord

/-!
# Fingerprints as text

`serializefingerprint` writes the checksums and the modification time of a file for its `c`
attribute, and `unserializefingerprint` reads them back: sixteen bytes and a variable-length
integer, in base64.
-/

namespace MegaSdk

open ByteOrder RecordReader
open Sync (crcOf serialize64 unserialize64)

namespace FileFingerprint

def fingerprintBytes (f : FileFingerprint) : Bytes :=
  Sync.crcBytes f.crc ++ serialize64 (Int64.ofInt f.mtime).toUInt64

def serializefingerprint (f : FileFingerprint) : Bytes := Base64.btoa f.fingerprintBytes

/-- `unserializefingerprint`: the fingerprint afterwards, and what is returned. The buffer has 25
bytes. -/
def unserializefingerprint (f : FileFingerprint) (d : Bytes) : FileFingerprint × Int :=
  let buf := Base64.atob d 25
  if buf.length < 17 then (f, 0)
  else
    match unserialize64 (buf.drop 16) (buf.length - 16) with
    | .ok (some t) => ({ f with crc := crcOf buf, mtime := t.toInt64.toInt, isvalid := true }, 1)
    | _ => (f, 0)

variable (f g : FileFingerprint)

theorem length_fingerprintBytes : 17 ≤ f.fingerprintBytes.length ∧ f.fingerprintBytes.length ≤ 25 := by
  have digits := Sync.length_digits64 8 (Int64.ofInt f.mtime).toUInt64.toNat
  rw [fingerprintBytes, List.length_append, Sync.length_crcBytes, serialize64, List.length_cons]
  omega

/-- The string that is made for the text has room for it and for its NUL. -/
theorem length_btoa (b : Bytes) : (Base64.btoa b).length + 1 ≤ b.length * 4 / 3 + 4 := by
  induction b using Base64.btoa.induct with
  | case1 => simp [Base64.btoa]
  | case2 a => simp [Base64.btoa]
  | case3 a b => simp [Base64.btoa]
  | case4 a b c rest ih =>
    simp only [Base64.btoa, List.length_cons]
    omega

/-- A text is read back by any fingerprint, whose size stays. -/
theorem unserializefingerprint_serialize :
    g.unserializefingerprint f.serializefingerprint =
      ({ g with crc := f.crc, mtime := (Int64.ofInt f.mtime).toInt, isvalid := true }, 1) := by
  obtain ⟨long, short⟩ := f.length_fingerprintBytes
  have buffer : Base64.atob f.serializefingerprint 25 = f.fingerprintBytes :=
    Base64.atob_btoa f.fingerprintBytes short
  have rest : f.fingerprintBytes.drop 16 = serialize64 (Int64.ofInt f.mtime).toUInt64 :=
    List.drop_left' (Sync.length_crcBytes f.crc)
  have length : (f.fingerprintBytes.length : Int) - 16 =
      (serialize64 (Int64.ofInt f.mtime).toUInt64).length := by
    rw [fingerprintBytes, List.length_append, Sync.length_crcBytes]
    omega
  have time := Sync.unserialize64_serialize64 (Int64.ofInt f.mtime).toUInt64 []
    (Int.le_refl (serialize64 (Int64.ofInt f.mtime).toUInt64).length)
  rw [List.append_nil] at time
  simp only [unserializefingerprint, buffer, if_neg (Nat.not_lt.mpr long), rest, length, time]
  rw [fingerprintBytes, Sync.crcOf_append, Int64.toInt64_toUInt64]

/-- A text that is refused changes nothing. -/
theorem unserializefingerprint_refused (d : Bytes) :
    (g.unserializefingerprint d).2 = 1 ∨ g.unserializefingerprint d = (g, 0) := by
  rw [unserializefingerprint]
  split
  · exact Or.inr rfl
  · split
    · exact Or.inl rfl
    · exact Or.inr rfl

def dated (f : FileFingerprint) (mtime : Int64) : FileFingerprint := { f with mtime := mtime.toInt }

/-- The text of a fingerprint brings back its checksums and its time, a text that is refused leaves
a fingerprint as it was, and different checksums or times have different texts. -/
theorem fingerprint_text :
    (∀ (f g : FileFingerprint) (mtime : Int64),
        g.unserializefingerprint (f.dated mtime).serializefingerprint =
          (⟨g.size, mtime.toInt, f.crc, true⟩, 1)) ∧
      (∀ (g : FileFingerprint) (d : Bytes),
        (g.unserializefingerprint d).2 = 0 → (g.unserializefingerprint d).1 = g) ∧
      ∀ (f f' : FileFingerprint) (mtime mtime' : Int64), (f.crc, mtime) ≠ (f'.crc, mtime') →
        (f.dated mtime).serializefingerprint ≠ (f'.dated mtime').serializefingerprint := by
  have read : ∀ (f g : FileFingerprint) (mtime : Int64),
      g.unserializefingerprint (f.dated mtime).serializefingerprint =
        (⟨g.size, mtime.toInt, f.crc, true⟩, 1) := by
    intro f g mtime
    rw [unserializefingerprint_serialize]
    simp [dated]
  refine ⟨read, ?_, ?_⟩
  · intro g d refused
    rcases g.unserializefingerprint_refused d with accepted | same
    · rw [accepted] at refused
      cases refused
    · rw [same]
  · intro f f' mtime mtime' differ same
    have first := read f f mtime
    rw [same, read f' f mtime'] at first
    simp only [Prod.mk.injEq, FileFingerprint.mk.injEq, true_and, and_true] at first
    exact differ (Prod.ext first.2.symm (Int64.toInt_inj.mp first.1.symm))

def early : FileFingerprint := ⟨12, -1, Vector.replicate 4 1, false⟩

theorem fingerprint_text_early :
    early.unserializefingerprint (early.dated (-1)).serializefingerprint =
        (⟨12, -1, Vector.replicate 4 1, true⟩, 1) ∧
      (early.unserializefingerprint (ascii "AAAA")).1 = early ∧
      (early.dated (-1)).serializefingerprint ≠ (early.dated 255).serializefingerprint :=
  ⟨fingerprint_text.1 early early (-1),
    fingerprint_text.2.1 early (ascii "AAAA") (by decide +kernel),
    fingerprint_text.2.2 early early (-1) 255 (by decide)⟩

end FileFingerprint

end MegaSdk
