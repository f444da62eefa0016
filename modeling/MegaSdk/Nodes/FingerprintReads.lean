import Mathlib.Algebra.Group.Int.Defs
import MegaSdk.Nodes.Fingerprint
import MegaSdk.Sync.LocalRecord

/-!
# The reads behind a fingerprint

`genfingerprint` of an open file: a tiny file is its own checksum, a small one is read whole and
hashed in four ranges, and of a large one 128 blocks are hashed. It reads through
`FileAccess::frawread`, which opens the file anew each time and can fail each time.
-/

namespace MegaSdk.FileFingerprint

open ByteOrder

/-- `htonl` on a little-endian machine. -/
def htonl (x : UInt32) : UInt32 := UInt32.ofNat (ofLe (leBytes 4 x.toNat).reverse)

/-- Where a range of a small file begins, and the one before it ends: `i * size / 4` as an `int`. -/
def rangeStart (size : Int64) (i : UInt32) : Int32 :=
  ((i.toUInt64.toInt64 * size).toUInt64 / 4).toInt64.toInt32

/-- `(size - sizeof block) * (i * blocks + j) / 127`, unsigned up to the division. -/
def blockOffset (size : Int64) (i j : UInt32) : Int64 :=
  ((size.toUInt64 - 64) * (i * 32 + j).toUInt64 / 127).toInt64

def slice (buf : Bytes) (first last : Int) : Bytes :=
  (buf.drop first.toNat).take (last - first).toNat

/-- A file as `FileAccess` knows it; it is opened by its name, if it has one, and `bytes` are what
a read of so many bytes at an offset gets. -/
structure LocalFile where
  named : Bool
  mtime : Int64
  size : Int64
  bytes : Nat → Int64 → Bytes
  sized : 0 ≤ size

structure Answers where
  sysstat : Option (Int64 × Int64)
  sysopen : Bool
  sysread : Bool

/-- `openf`: the file is opened if its time and size are unchanged. -/
def openf (fa : LocalFile) (a : Answers) : Bool :=
  if fa.named then
    match a.sysstat with
    | none => false
    | some (mtime, size) => if mtime ≠ fa.mtime ∨ size ≠ fa.size then false else a.sysopen
  else true

def frawread (fa : LocalFile) (a : Answers) (len : Nat) (pos : Int64) : Option Bytes :=
  if openf fa a then
    if a.sysread then some (fa.bytes len pos) else none
  else none

/-- A tiny file is taken as it is, with NULs behind it. -/
def tinyCrc (size : Int64) (newcrc : Bytes) : Vector UInt32 4 :=
  Sync.crcOf (newcrc.take size.toNatClampNeg ++ List.replicate 16 0)

def smallCrc (crc32 : Bytes → UInt32) (size : Int64) (buf : Bytes) : Vector UInt32 4 :=
  Vector.ofFn fun i => htonl (crc32 (slice buf (rangeStart size (UInt32.ofNat i)).toInt
    (rangeStart size (UInt32.ofNat i + 1)).toInt))

/-- Four times 32 blocks of a large file are hashed. -/
def largeCrc (crc32 : Bytes → UInt32) (blocks : List (List Bytes)) : Vector UInt32 4 :=
  Vector.ofFn fun i => htonl (crc32 (blocks.getD i []).flatten)

def blockAt (size : Int64) (i j : Nat) : Int64 :=
  blockOffset size (UInt32.ofNat i) (UInt32.ofNat j)

/-- The checksums if the answers to the reads are given in order; `newcrc` is what lies in the
array before a tiny file is read into it. -/
def readCrc (crc32 : Bytes → UInt32) (newcrc : Bytes) (fa : LocalFile) (answers : ℕ → Answers) :
    Option (Vector UInt32 4) :=
  if fa.size ≤ 16 then
    some (tinyCrc fa.size ((frawread fa (answers 0) fa.size.toNatClampNeg 0).getD newcrc))
  else if fa.size ≤ 8192 then
    (frawread fa (answers 0) fa.size.toNatClampNeg 0).map (smallCrc crc32 fa.size)
  else
    ((List.range 4).mapM fun i => (List.range 32).mapM fun j =>
      frawread fa (answers (i * 32 + j)) 64 (blockAt fa.size i j)).map (largeCrc crc32)

/-- `genfingerprint` on a file whose reads are answered like this. -/
def generate (crc32 : Bytes → UInt32) (newcrc : Bytes) (fa : LocalFile) (answers : ℕ → Answers)
    (f : FileFingerprint) (ignoremtime : Bool) : FileFingerprint × Bool :=
  f.genfingerprint ⟨fa.mtime.toInt, fa.size.toInt, readCrc crc32 newcrc fa answers⟩ ignoremtime

def readCount (size : Int64) : ℕ := if size ≤ 8192 then 1 else 128

def Succeeds (fa : LocalFile) (a : Answers) : Prop := openf fa a = true ∧ a.sysread = true

instance (fa : LocalFile) (a : Answers) : Decidable (Succeeds fa a) :=
  inferInstanceAs (Decidable (_ ∧ _))

/-- The checksums of a file, from its size and its bytes only. -/
def digest (crc32 : Bytes → UInt32) (size : Int64) (bytes : Nat → Int64 → Bytes) :
    Vector UInt32 4 :=
  if size ≤ 16 then tinyCrc size (bytes size.toNatClampNeg 0)
  else if size ≤ 8192 then smallCrc crc32 size (bytes size.toNatClampNeg 0)
  else largeCrc crc32
    ((List.range 4).map fun i => (List.range 32).map fun j => bytes 64 (blockAt size i j))

section Reads

variable {crc32 : Bytes → UInt32} {fa : LocalFile} {answers : ℕ → Answers}

theorem frawread_eq (fa : LocalFile) (a : Answers) (len : Nat) (pos : Int64) :
    frawread fa a len pos = if Succeeds fa a then some (fa.bytes len pos) else none := by
  rw [frawread]
  by_cases opens : openf fa a = true
  · by_cases reads : a.sysread = true
    · rw [if_pos opens, if_pos reads, if_pos ⟨opens, reads⟩]
    · rw [if_pos opens, if_neg reads, if_neg fun succeeds => reads succeeds.2]
  · rw [if_neg opens, if_neg fun succeeds => opens succeeds.1]

/-- The reads of a list succeed together or not at all. -/
theorem mapM_ite {α β : Type} (l : List α) (p : α → Prop) [DecidablePred p] (f : α → β) :
    (l.mapM fun x => if p x then some (f x) else none) =
      if ∀ x ∈ l, p x then some (l.map f) else none := by
  induction l with
  | nil => simp
  | cons x rest ih =>
    have each : (∀ y ∈ x :: rest, p y) ↔ p x ∧ ∀ y ∈ rest, p y := List.forall_mem_cons
    rw [List.mapM_cons, ih]
    by_cases first : p x
    · by_cases others : ∀ y ∈ rest, p y
      · rw [if_pos (each.mpr ⟨first, others⟩), if_pos first, if_pos others]
        rfl
      · rw [if_neg fun all => others (each.mp all).2, if_pos first, if_neg others]
        rfl
    · rw [if_neg fun all => first (each.mp all).1, if_neg first]
      rfl

theorem blocks_iff :
    (∀ i ∈ List.range 4, ∀ j ∈ List.range 32, Succeeds fa (answers (i * 32 + j))) ↔
      ∀ k < 128, Succeeds fa (answers k) := by
  constructor
  · intro blocks k inside
    have block := blocks (k / 32) (List.mem_range.mpr (by omega)) (k % 32)
      (List.mem_range.mpr (by omega))
    rwa [Nat.div_add_mod'] at block
  · intro all i checksum j block
    rw [List.mem_range] at checksum block
    exact all _ (by omega)

/-- Of a file that is not tiny, the checksums are those of its bytes unless a read fails. -/
theorem readCrc_eq (newcrc : Bytes) (large : 16 < fa.size) :
    readCrc crc32 newcrc fa answers =
      if ∀ k < readCount fa.size, Succeeds fa (answers k) then
        some (digest crc32 fa.size fa.bytes) else none := by
  have notTiny : ¬fa.size ≤ 16 := Int64.not_le.mpr large
  rw [readCrc, digest, readCount, if_neg notTiny, if_neg notTiny]
  by_cases small : fa.size ≤ 8192
  · simp only [if_pos small, frawread_eq, Nat.lt_one_iff, forall_eq]
    split
    · rfl
    · rfl
  · simp only [if_neg small, frawread_eq, mapM_ite, blocks_iff]
    split
    · rfl
    · rfl

/-- Of a tiny file they are those of its bytes if the one read succeeds. -/
theorem readCrc_tiny (newcrc : Bytes) (tiny : fa.size ≤ 16) (reads : Succeeds fa (answers 0)) :
    readCrc crc32 newcrc fa answers = some (digest crc32 fa.size fa.bytes) := by
  rw [readCrc, digest, if_pos tiny, if_pos tiny, frawread_eq, if_pos reads]
  rfl

theorem generate_some {newcrc : Bytes} {crc : Vector UInt32 4}
    (read : readCrc crc32 newcrc fa answers = some crc) (f : FileFingerprint)
    (ignoremtime : Bool) :
    (generate crc32 newcrc fa answers f ignoremtime).1 = ⟨fa.size.toInt, fa.mtime.toInt, crc, true⟩ := by
  rw [generate, read]
  rfl

theorem generate_none {newcrc : Bytes} (fails : readCrc crc32 newcrc fa answers = none)
    (f : FileFingerprint) (ignoremtime : Bool) :
    (generate crc32 newcrc fa answers f ignoremtime).2 = true ∧
      (generate crc32 newcrc fa answers f ignoremtime).1.size = -1 := by
  rw [generate, fails]
  exact ⟨rfl, rfl⟩

end Reads

end MegaSdk.FileFingerprint
