import MegaSdk.Nodes.FingerprintReads
import Mathlib.Data.Nat.Find

/-!
# Read errors under a fingerprint

`genfingerprint` reads through `FileAccess::frawread`, which opens the file anew each time and can
fail each time. For a small and a large file that invalidates the fingerprint. For a tiny one the
result is not looked at, and the checksums are what lies in the array.
-/

namespace MegaSdk.FileFingerprint

/-- A read is made and fails: all those before it have succeeded. -/
def ReadFails (fa : LocalFile) (answers : ℕ → Answers) : Prop :=
  ∃ k < readCount fa.size, (∀ l < k, Succeeds fa (answers l)) ∧ ¬Succeeds fa (answers k)

/-- Read errors invalidate the fingerprint, and a valid one depends on the size and the bytes of
the file only, so that any two of them agree. -/
structure Reliable (crc32 : Bytes → UInt32) (fa : LocalFile) (answers : ℕ → Answers) : Prop where
  invalidates : ReadFails fa answers → ∀ newcrc f ignoremtime,
    (generate crc32 newcrc fa answers f ignoremtime).2 = true ∧
      (generate crc32 newcrc fa answers f ignoremtime).1.size = -1
  determined : ∀ newcrc f ignoremtime,
    0 ≤ (generate crc32 newcrc fa answers f ignoremtime).1.size →
      (generate crc32 newcrc fa answers f ignoremtime).1.crc = digest crc32 fa.size fa.bytes
  agree : ∀ newcrc newcrc' f f' ignoremtime ignoremtime',
    0 ≤ (generate crc32 newcrc fa answers f ignoremtime).1.size →
    0 ≤ (generate crc32 newcrc' fa answers f' ignoremtime').1.size →
      (generate crc32 newcrc fa answers f ignoremtime).1.crc =
        (generate crc32 newcrc' fa answers f' ignoremtime').1.crc

section Reads

variable {crc32 : Bytes → UInt32} {fa : LocalFile} {answers : ℕ → Answers}

/-- A failing read is one that does not succeed; the first of them is made. -/
theorem not_readFails_iff :
    ¬ReadFails fa answers ↔ ∀ k < readCount fa.size, Succeeds fa (answers k) := by
  constructor
  · intro never
    by_contra some
    push Not at some
    classical
    obtain ⟨inside, fails⟩ := Nat.find_spec some
    refine never ⟨Nat.find some, inside, fun l before => ?_, fails⟩
    by_contra fails'
    exact Nat.find_min some before ⟨Nat.lt_trans before inside, fails'⟩
  · rintro all ⟨k, inside, -, fails⟩
    exact fails (all k inside)

/-- What is made of the file, if the checksums are those of its bytes unless a read fails. -/
theorem reliable_of_read
    (read : ∀ newcrc, readCrc crc32 newcrc fa answers =
      if ∀ k < readCount fa.size, Succeeds fa (answers k) then
        some (digest crc32 fa.size fa.bytes) else none) : Reliable crc32 fa answers := by
  have determined : ∀ newcrc f ignoremtime,
      0 ≤ (generate crc32 newcrc fa answers f ignoremtime).1.size →
        (generate crc32 newcrc fa answers f ignoremtime).1.crc = digest crc32 fa.size fa.bytes := by
    intro newcrc f ignoremtime valid
    by_cases all : ∀ k < readCount fa.size, Succeeds fa (answers k)
    · rw [generate_some ((read newcrc).trans (if_pos all))]
    · rw [(generate_none ((read newcrc).trans (if_neg all)) f ignoremtime).2] at valid
      exact absurd valid (by decide)
  constructor
  · intro fails newcrc f ignoremtime
    have some : ¬∀ k < readCount fa.size, Succeeds fa (answers k) :=
      fun all => not_readFails_iff.mpr all fails
    exact generate_none ((read newcrc).trans (if_neg some)) f ignoremtime
  · exact determined
  · intro newcrc newcrc' f f' ignoremtime ignoremtime' valid valid'
    rw [determined _ _ _ valid, determined _ _ _ valid']

/-- Read errors are dealt with exactly if the file has more than 16 bytes or its read succeeds. -/
theorem reliable_iff (crc32 : Bytes → UInt32) (fa : LocalFile) (answers : ℕ → Answers) :
    Reliable crc32 fa answers ↔ 16 < fa.size ∨ Succeeds fa (answers 0) := by
  constructor
  · intro reliable
    by_contra neither
    obtain ⟨tiny, fails⟩ := not_or.mp neither
    rw [Int64.not_lt] at tiny
    have one : readCount fa.size = 1 := if_pos (Int64.le_trans tiny (by decide))
    have issued : ReadFails fa answers :=
      ⟨0, by rw [one]; exact Nat.one_pos, fun l before => absurd before (Nat.not_lt_zero l), fails⟩
    have invalid := (reliable.invalidates issued [] ⟨0, 0, Vector.replicate 4 0, false⟩ false).2
    have read : readCrc crc32 [] fa answers = some (tinyCrc fa.size
        ((frawread fa (answers 0) fa.size.toNatClampNeg 0).getD [])) := if_pos tiny
    rw [generate_some read] at invalid
    have negative : fa.size.toInt = -1 := invalid
    have sized := Int64.le_iff_toInt_le.mp fa.sized
    rw [negative] at sized
    exact absurd sized (by decide)
  · rintro (large | reads)
    · exact reliable_of_read fun newcrc => readCrc_eq newcrc large
    · by_cases tiny : fa.size ≤ 16
      · refine reliable_of_read fun newcrc => ?_
        have one : readCount fa.size = 1 := if_pos (Int64.le_trans tiny (by decide))
        rw [readCrc_tiny newcrc tiny reads, one, if_pos]
        intro k first
        rwa [Nat.lt_one_iff.mp first]
      · exact reliable_of_read fun newcrc => readCrc_eq newcrc (Int64.not_le.mp tiny)

end Reads

def fourBytes : LocalFile := ⟨false, 0, 4, fun _ _ => ascii "abcd", by decide⟩

def unreadable : ℕ → Answers := fun _ => ⟨none, false, false⟩

/-- Its fingerprint stays valid, and two of them differ by what lay in the array. -/
theorem fourBytes_unreliable :
    (generate (fun _ => 0) (ascii "stack...") fourBytes unreadable
        ⟨4, 0, Vector.replicate 4 0, true⟩ false).1 ≠
      (generate (fun _ => 0) (ascii "other...") fourBytes unreadable
        ⟨4, 0, Vector.replicate 4 0, true⟩ false).1 ∧
    ¬∀ crc32 fa answers, Reliable crc32 fa answers := by
  refine ⟨by decide +kernel, fun always => ?_⟩
  have fails : ReadFails fourBytes unreadable :=
    ⟨0, by decide, fun l before => absurd before (Nat.not_lt_zero l), by decide⟩
  have invalid := ((always (fun _ => 0) fourBytes unreadable).invalidates fails []
    ⟨4, 0, Vector.replicate 4 0, true⟩ false).2
  exact absurd invalid (by decide)

end MegaSdk.FileFingerprint
