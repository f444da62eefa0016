import MegaSdk.Lib.LoggedReads
import MegaSdk.Sync.LocalRecord

/-!
# What the reader of local node records reads

`LocalNode::unserialize` with a log of its reads, on a record that may be corrupt. The check of
the fingerprint admits records that end one byte before its last integer, an error of that
integer is not noticed, and a folder has a checksum copied from behind its name.
-/

namespace MegaSdk.Sync.RecordReads

open ByteOrder LoggedReads
open Cache (Handle)

/-- `Serialize64::unserialize` on a buffer of `blen` bytes; `none` is its -1. -/
def unserialize64 (memory : Bytes) (b : Nat) (blen : Int) : Logged (Option UInt64) :=
  (fetchWord memory b 1).bind fun p =>
    if p > 8 ∨ p ≥ blen then .pure none
    else (fetchWord memory (b + 1) p).bind fun v => .pure (some (UInt64.ofNat v))

def typeOf (size : Int64) : NodeType := if size < 0 ∧ -1 ≤ size then -size.toInt else fileNode

/-- The modification time at the fingerprint of a file, 0 for a folder, and none if the record is
refused. The length of the buffer is cast to `int`. -/
def readFingerprint (memory : Bytes) (length ptr : Nat) (size : Int64) : Logged (Option UInt64) :=
  if typeOf size = fileNode then
    if ptr + 16 > length + 1 then .pure none
    else
      (unserialize64 memory (ptr + 16) (Int.bmod ((length : Int) - ptr - 16) (2 ^ 32))).bind
        -- -1 is not 0
        fun mtime => .pure (some (mtime.getD 0))
  else .pure (some 0)

/-- The `LocalNode` of an accepted record, with the checksum at `ptr`. -/
def create (known : Handle → Bool) (memory : Bytes) (ptr : Nat) (size : Int64)
    (fsid parentDbid h localnamelen : Nat) (mtime : UInt64) : Logged (Option LocalRecord) :=
  (fetch memory 28 localnamelen).bind fun localname =>
  (fetch memory ptr 16).bind fun crc =>
    .pure (some {
      type := typeOf size
      size := if size < 0 ∧ -1 ≤ size then 0 else size
      fsid := UInt64.ofNat fsid
      parentDbid := UInt32.ofNat parentDbid
      node := if known (BitVec.ofNat 48 h) then some (BitVec.ofNat 48 h) else none
      localname := localname
      crc := crcOf crc
      mtime := mtime.toInt64 })

/-- `LocalNode::unserialize`, with the NUL and the memory behind the record. -/
def unserialize (known : Handle → Bool) (beyond : Bytes) (d : Bytes) :
    Logged (Option LocalRecord) :=
  let memory := d ++ 0 :: beyond
  if d.length < 28 then .pure none
  else
    (fetchWord memory 0 8).bind fun size =>
    let size := (UInt64.ofNat size).toInt64
    (fetchWord memory 8 8).bind fun fsid =>
    (fetchWord memory 16 4).bind fun parentDbid =>
    (fetchWord memory 20 6).bind fun h =>
    (fetchWord memory 26 2).bind fun localnamelen =>
    let ptr := 28 + localnamelen
    if ptr > d.length then .pure none
    else
      (readFingerprint memory d.length ptr size).bind fun fingerprint =>
        fingerprint.elim (.pure none) (create known memory ptr size fsid parentDbid h localnamelen)

section Agreement
variable {known : Handle → Bool} (beyond : Bytes) {d : Bytes}

/-- Bytes up to the NUL as the plain reader takes them. -/
theorem bytes_drop {offset n : Nat} (inside : offset + n ≤ d.length + 1) :
    RecordReader.bytes n ((d ++ [0]).drop offset) =
      .ok (((d ++ 0 :: beyond).drop offset).take n, (d ++ [0]).drop (offset + n)) := by
  have same : ((d ++ 0 :: beyond).drop offset).take n = ((d ++ [0]).drop offset).take n := by
    rw [← List.singleton_append, ← List.append_assoc]
    exact take_drop_memory (by simpa using inside)
  rw [RecordReader.bytes_drop (by simpa using inside), same]

theorem word_drop {offset n : Nat} (inside : offset + n ≤ d.length + 1) :
    RecordReader.word n ((d ++ [0]).drop offset) =
      .ok (ofLe (((d ++ 0 :: beyond).drop offset).take n), (d ++ [0]).drop (offset + n)) := by
  rw [RecordReader.word, bytes_drop beyond inside, RecordReader.Read.bind_ok]

/-- What an outcome of the plain reader says about the value, if it is not a stray read. -/
def Agrees {α : Type} (plain : RecordReader.Read α) (value : Option α) : Prop :=
  plain = .wild ∨ plain = .null ∧ value = none ∨ ∃ a, plain = .ok a ∧ value = some a

theorem agrees_fingerprint {ptr : Nat} (size : Int64) (small : d.length < 2 ^ 31)
    (inside : ptr ≤ d.length) :
    Agrees (if typeOf size = fileNode then LocalRecord.readMtime ((d ++ [0]).drop ptr) else .ok 0)
      (readFingerprint (d ++ 0 :: beyond) d.length ptr size).value := by
  rw [readFingerprint]
  split
  · rw [LocalRecord.readMtime]
    have length : ((d ++ [0]).drop ptr).length = d.length + 1 - ptr := by simp
    by_cases short : ptr + 16 > d.length + 1
    · rw [if_neg (by omega), if_pos short]
      exact .inr (.inl ⟨rfl, rfl⟩)
    · rw [if_pos (by omega), if_neg short, List.drop_drop, Sync.unserialize64]
      by_cases atEnd : ptr + 16 = d.length + 1
      · have nothing : (d ++ [0]).drop (ptr + 16) = [] := by simp [atEnd]
        rw [nothing]
        exact .inl rfl
      · have blen : Int.bmod ((d.length : Int) - ptr - 16) (2 ^ 32) = d.length - ptr - 16 :=
          Int.bmod_eq_of_le (by omega) (by omega)
        rw [word_drop beyond (by omega), RecordReader.Read.bind_ok]
        have sameLength : ((d.length + 1 - ptr : Nat) : Int) - 1 - 16 = d.length - ptr - 16 := by
          omega
        simp only [unserialize64, value_bind, value_fetchWord, blen, length, sameLength]
        obtain ⟨p, prefixed⟩ :
          ∃ p, ofLe (((d ++ 0 :: beyond).drop (ptr + 16)).take 1) = p := ⟨_, rfl⟩
        simp only [prefixed]
        by_cases refused : p > 8 ∨ (p : Int) ≥ d.length - ptr - 16
        · simp only [if_pos refused]
          exact .inr (.inr ⟨0, rfl, rfl⟩)
        · simp only [if_neg refused]
          rw [bytes_drop beyond (by omega)]
          exact .inr (.inr ⟨_, rfl, rfl⟩)
  · exact .inr (.inr ⟨0, rfl, rfl⟩)

/-- A checksum is copied from the first sixteen bytes. -/
theorem crcOf_take (memory : Bytes) : crcOf (memory.take 16) = crcOf memory := by
  apply Vector.ext
  intro i inside
  have word : ((memory.take 16).drop (4 * i)).take 4 = (memory.drop (4 * i)).take 4 := by
    rw [List.drop_take, List.take_take]
    congr 1
    omega
  simp only [crcOf, Vector.getElem_ofFn, word]

/-- Without stray reads the value is that of the plain reader. -/
theorem agrees_unserialize (small : d.length < 2 ^ 31) :
    Agrees (LocalRecord.unserialize known beyond d) (unserialize known beyond d).value := by
  rw [LocalRecord.unserialize, unserialize, RecordReader.require]
  have length : (d ++ [0]).length = d.length + 1 := by simp
  by_cases short : d.length < 28
  · rw [if_neg (by omega), if_pos short]
    exact .inr (.inl ⟨rfl, rfl⟩)
  · have size := @word_drop beyond d 0 8 (by omega)
    rw [List.drop_zero, Nat.zero_add] at size
    rw [if_pos (by omega), if_neg short, RecordReader.Read.bind_ok, size]
    simp only [RecordReader.Read.bind_ok]
    rw [word_drop beyond (by omega)]
    simp only [RecordReader.Read.bind_ok]
    rw [word_drop beyond (by omega)]
    simp only [RecordReader.Read.bind_ok]
    rw [word_drop beyond (by omega)]
    simp only [RecordReader.Read.bind_ok]
    rw [word_drop beyond (by omega)]
    simp only [RecordReader.Read.bind_ok, value_bind, value_fetchWord, Nat.reduceAdd,
      List.drop_zero]
    obtain ⟨localnamelen, name⟩ :
      ∃ n, ofLe (((d ++ 0 :: beyond).drop 26).take 2) = n := ⟨_, rfl⟩
    simp only [name]
    rw [RecordReader.require, List.length_drop, length]
    by_cases unnamed : 28 + localnamelen > d.length
    · rw [if_neg (by omega), if_pos unnamed]
      exact .inr (.inl ⟨rfl, rfl⟩)
    · rw [if_pos (by omega), if_neg unnamed, RecordReader.Read.bind_ok,
        bytes_drop beyond (by omega)]
      simp only [RecordReader.Read.bind_ok, value_bind]
      obtain ⟨size, word⟩ :
        ∃ size, (UInt64.ofNat (ofLe ((d ++ 0 :: beyond).take 8))).toInt64 = size := ⟨_, rfl⟩
      simp only [word]
      have checksum : crcOf ((d ++ [0]).drop (28 + localnamelen) ++ beyond) =
          crcOf (((d ++ 0 :: beyond).drop (28 + localnamelen)).take 16) := by
        rw [crcOf_take, ← List.drop_append_of_le_length (by omega), List.append_assoc,
          List.singleton_append]
      rw [checksum]
      rcases agrees_fingerprint beyond size small (Nat.le_of_not_lt unnamed) with
        wild | ⟨refused, value⟩ | ⟨mtime, accepted, value⟩
      · left
        rw [typeOf] at wild
        rw [wild]
        rfl
      · rw [typeOf] at refused
        rw [refused, value]
        exact .inr (.inl ⟨rfl, rfl⟩)
      · rw [typeOf] at accepted
        rw [accepted, value]
        exact .inr (.inr ⟨_, rfl, rfl⟩)

end Agreement

def nameEnd (d : Bytes) : Nat := 28 + ofLe ((d.drop 26).take 2)

def IsFolder (d : Bytes) : Prop := ofLe (d.take 8) = 2 ^ 64 - 1

instance (d : Bytes) : Decidable (IsFolder d) := Nat.decEq _ _

def mtimeLength (d : Bytes) : Nat := ofLe ((d.drop (nameEnd d + 16)).take 1)

/-- The checksum and the modification time lie within the record. -/
structure Fingerprint (d : Bytes) : Prop where
  crc : nameEnd d + 16 < d.length
  short : mtimeLength d ≤ 8
  mtime : nameEnd d + 17 + mtimeLength d ≤ d.length

/-- A complete record at the beginning of `d`. -/
structure WellFormed (d : Bytes) : Prop where
  header : 28 ≤ d.length
  name : nameEnd d ≤ d.length
  fingerprint : ¬IsFolder d → Fingerprint d

/-- All reads are of bytes of `d`, and nothing but a complete record is accepted. -/
def Rejects (known : Handle → Bool) (beyond : Bytes) (d : Bytes) : Prop :=
  Within d.length (unserialize known beyond d) ∧
    ((unserialize known beyond d).value.isSome → WellFormed d)

def Benign (d : Bytes) : Prop :=
  d.length < 28 ∨ d.length < nameEnd d ∨
    if IsFolder d then nameEnd d + 16 ≤ d.length
    else d.length < nameEnd d + 15 ∨ Fingerprint d

/-- -1 is the only negative number that stands for a type. -/
theorem negative_iff (size : Int64) : (size < 0 ∧ -1 ≤ size) ↔ size = -1 := by
  have minus : (-1 : Int64).toInt = -1 := by decide
  have zero : (0 : Int64).toInt = 0 := by decide
  rw [Int64.lt_iff_toInt_lt, Int64.le_iff_toInt_le, ← Int64.toInt_inj]
  omega

theorem typeOf_eq_iff {w : Nat} (small : w < 2 ^ 64) :
    typeOf (UInt64.ofNat w).toInt64 = fileNode ↔ w ≠ 2 ^ 64 - 1 := by
  have minus : (UInt64.ofNat w).toInt64 = -1 ↔ w = 2 ^ 64 - 1 := by
    constructor
    · intro eq
      have word := congrArg (fun s => s.toUInt64.toNat) eq
      rw [UInt64.toUInt64_toInt64, UInt64.toNat_ofNat', Nat.mod_eq_of_lt small] at word
      exact word
    · rintro rfl
      decide
  rw [typeOf]
  simp only [negative_iff, minus]
  split
  · next folder =>
    rw [minus.mpr folder]
    exact iff_of_false (by decide) (not_not.mpr folder)
  · next file => exact iff_of_true rfl file

section Reads
variable {known : Handle → Bool} {beyond d : Bytes}

/-- The header is read from the record itself. -/
theorem header_word {offset n : Nat} (inside : offset + n ≤ d.length) :
    ofLe (((d ++ 0 :: beyond).drop offset).take n) = ofLe ((d.drop offset).take n) := by
  rw [take_drop_memory inside]

theorem size_lt (long : 28 ≤ d.length) : ofLe (d.take 8) < 2 ^ 64 := by
  have bound := ofLe_lt (d.take 8)
  rw [List.length_take_of_le (by omega)] at bound
  exact bound

theorem within_create {limit ptr fsid parentDbid h n : Nat} {memory : Bytes} {size : Int64}
    {mtime : UInt64} :
    Within limit (create known memory ptr size fsid parentDbid h n mtime) ↔
      28 + n ≤ limit ∧ ptr + 16 ≤ limit := by
  simp [create]

theorem isSome_create {memory : Bytes} {ptr fsid parentDbid h n : Nat} {size : Int64}
    {mtime : UInt64} :
    (create known memory ptr size fsid parentDbid h n mtime).value.isSome = true := rfl

/-- What remains to be checked behind the name of a record. -/
theorem rejects_named (long : 28 ≤ d.length) (named : nameEnd d ≤ d.length)
    {fingerprint : Logged (Option UInt64)}
    (reads : readFingerprint (d ++ 0 :: beyond) d.length (nameEnd d)
      (UInt64.ofNat (ofLe (d.take 8))).toInt64 = fingerprint) :
    Rejects known beyond d ↔ Within d.length fingerprint ∧
      (fingerprint.value.isSome → nameEnd d + 16 ≤ d.length ∧ WellFormed d) := by
  have short : ¬d.length < 28 := Nat.not_lt.mpr long
  have name : ofLe (((d ++ 0 :: beyond).drop 26).take 2) = ofLe ((d.drop 26).take 2) :=
    header_word long
  have behind : 28 + ofLe ((d.drop 26).take 2) = nameEnd d := rfl
  have size : ofLe ((d ++ 0 :: beyond).take 8) = ofLe (d.take 8) :=
    @header_word beyond d 0 8 (by omega)
  have inside : ¬nameEnd d > d.length := Nat.not_lt.mpr named
  have header : 0 + 8 ≤ d.length ∧ 8 + 8 ≤ d.length ∧ 16 + 4 ≤ d.length ∧ 20 + 6 ≤ d.length ∧
      26 + 2 ≤ d.length := by omega
  simp only [Rejects, unserialize, if_neg short, within_bind, value_bind, within_fetchWord,
    value_fetchWord, name, behind, List.drop_zero, size, if_neg inside, reads, header, true_and]
  cases fingerprint.value with
  | none => simp
  | some mtime =>
    simp only [Option.elim_some, within_create, isSome_create, behind, named, true_and,
      Option.isSome_some, forall_const, and_assoc]

theorem rejects_folder (long : 28 ≤ d.length) (named : nameEnd d ≤ d.length)
    (folder : IsFolder d) : Rejects known beyond d ↔ nameEnd d + 16 ≤ d.length := by
  have type : typeOf (UInt64.ofNat (ofLe (d.take 8))).toInt64 ≠ fileNode := by
    rw [Ne, typeOf_eq_iff (size_lt long), not_not]
    exact folder
  have formed : WellFormed d := ⟨long, named, fun file => absurd folder file⟩
  rw [rejects_named long named rfl, readFingerprint, if_neg type]
  simp [formed]

theorem rejects_file (long : 28 ≤ d.length) (named : nameEnd d ≤ d.length)
    (file : ¬IsFolder d) :
    Rejects known beyond d ↔ d.length < nameEnd d + 15 ∨ Fingerprint d := by
  have type : typeOf (UInt64.ofNat (ofLe (d.take 8))).toInt64 = fileNode := by
    rw [typeOf_eq_iff (size_lt long)]
    exact file
  have formed : WellFormed d ↔ Fingerprint d :=
    ⟨fun formed => formed.fingerprint file, fun fingerprint => ⟨long, named, fun _ => fingerprint⟩⟩
  rw [rejects_named long named rfl, readFingerprint, if_pos type, formed]
  by_cases tooShort : nameEnd d + 16 > d.length + 1
  · have cut : d.length < nameEnd d + 15 := by omega
    simp [tooShort, cut]
  · have uncut : ¬d.length < nameEnd d + 15 := by omega
    simp only [if_neg tooShort, within_bind, value_bind, within_pure, and_true, value_pure,
      Option.isSome_some, forall_const, uncut, false_or]
    constructor
    · rintro ⟨-, -, fingerprint⟩
      exact fingerprint
    · intro fingerprint
      refine ⟨?_, Nat.le_of_lt fingerprint.crc, fingerprint⟩
      have prefixed : ofLe (((d ++ 0 :: beyond).drop (nameEnd d + 16)).take 1) = mtimeLength d :=
        header_word fingerprint.crc
      have crc := fingerprint.crc
      have mtime := fingerprint.mtime
      rw [unserialize64, within_bind, within_fetchWord, value_fetchWord, prefixed]
      refine ⟨crc, ?_⟩
      split
      · exact within_pure _
      · rw [within_bind, within_fetchWord]
        exact ⟨mtime, within_pure _⟩

/-- A record is read within its bounds and only accepted if it is complete, exactly if it is
benign. -/
theorem rejects_iff (known : Handle → Bool) (beyond d : Bytes) :
    Rejects known beyond d ↔ Benign d := by
  by_cases short : d.length < 28
  · simp [Rejects, Benign, unserialize, short]
  have long : 28 ≤ d.length := Nat.le_of_not_lt short
  by_cases unnamed : d.length < nameEnd d
  · have name : ofLe (((d ++ 0 :: beyond).drop 26).take 2) = ofLe ((d.drop 26).take 2) :=
      header_word long
    have behind : 28 + ofLe ((d.drop 26).take 2) = nameEnd d := rfl
    have header : 0 + 8 ≤ d.length ∧ 8 + 8 ≤ d.length ∧ 16 + 4 ≤ d.length ∧ 20 + 6 ≤ d.length ∧
        26 + 2 ≤ d.length := by omega
    simp [Rejects, Benign, unserialize, short, name, behind, unnamed, header]
  have named : nameEnd d ≤ d.length := Nat.le_of_not_lt unnamed
  simp only [Benign, short, unnamed, false_or]
  split
  · next folder => exact rejects_folder long named folder
  · next file => exact rejects_file long named file

/-- Sixteen bytes behind the name of a file: the NUL behind the record is taken for the prefix of
the modification time. -/
theorem rejects_truncated : ¬Rejects (fun _ => false) [] (List.replicate 44 0) := by
  intro rejects
  exact absurd (rejects.1 (44, 1) (by decide)) (by decide)

end Reads

end MegaSdk.Sync.RecordReads
