import MegaSdk.Cache.NodeRecord
import MegaSdk.Lib.RecordReader

/-!
# State cache records of local nodes

`LocalNode::serialize` and `LocalNode::unserialize`, with the variable-length integers of
`Serialize64`. Type and size share one word, in which -1 stands for a folder; the handle of
the associated node is cut to six bytes, so that its absence reads as a handle.
-/

namespace MegaSdk.Sync

open ByteOrder RecordReader
open Cache (Handle)

/-- The bytes of `Serialize64::serialize` behind the count, at most `width` of them. -/
def digits64 : Nat → Nat → Bytes
  | 0, _ => []
  | width + 1, v => if v = 0 then [] else UInt8.ofNat v :: digits64 width (v / 256)

def serialize64 (v : UInt64) : Bytes :=
  UInt8.ofNat (digits64 8 v.toNat).length :: digits64 8 v.toNat

/-- `Serialize64::unserialize` on a buffer of `blen` bytes; `none` is its -1. -/
def unserialize64 (b : Bytes) (blen : Int) : Read (Option UInt64) :=
  (word 1 b).bind fun (p, rest) =>
    if p > 8 ∨ p ≥ blen then .ok none
    else (bytes p rest).bind fun (value, _) => .ok (some (UInt64.ofNat (ofLe value)))

theorem ofLe_digits64 {width v : Nat} (fits : v < 256 ^ width) : ofLe (digits64 width v) = v := by
  induction width generalizing v with
  | zero =>
    rw [Nat.pow_zero, Nat.lt_one_iff] at fits
    rw [digits64, fits, ofLe]
  | succ width ih =>
    rw [digits64]
    split
    case isTrue zero => rw [ofLe, zero]
    case isFalse some =>
      have less : v / 256 < 256 ^ width := by
        rw [Nat.div_lt_iff_lt_mul (by decide), ← Nat.pow_succ]
        exact fits
      rw [ofLe, ih less, UInt8.toNat_ofNat']
      omega

theorem length_digits64 (width v : Nat) : (digits64 width v).length ≤ width := by
  induction width generalizing v with
  | zero => simp [digits64]
  | succ width ih =>
    rw [digits64]
    split
    case isTrue => simp
    case isFalse => simpa using ih (v / 256)

/-- A written integer is read back, if the buffer holds all of it. -/
theorem unserialize64_serialize64 (v : UInt64) (rest : Bytes) {blen : Int}
    (whole : (serialize64 v).length ≤ blen) :
    unserialize64 (serialize64 v ++ rest) blen = .ok (some v) := by
  have short := length_digits64 8 v.toNat
  have count : (UInt8.ofNat (digits64 8 v.toNat).length).toNat = (digits64 8 v.toNat).length := by
    rw [UInt8.toNat_ofNat']
    omega
  rw [serialize64, List.length_cons] at whole
  have inside : ¬((digits64 8 v.toNat).length > 8 ∨ ((digits64 8 v.toNat).length : Int) ≥ blen) := by
    omega
  rw [unserialize64, serialize64, List.cons_append, word_one, Read.bind_ok]
  simp only [count, if_neg inside, bytes_append rfl, Read.bind_ok,
    ofLe_digits64 (show v.toNat < 256 ^ 8 from v.toNat_lt), UInt64.ofNat_toNat]

/-- The part of a `LocalNode` that its record holds. -/
structure LocalRecord where
  type : NodeType
  size : Int64
  fsid : UInt64
  parentDbid : UInt32
  node : Option Handle
  localname : Bytes
  crc : Vector UInt32 4
  mtime : Int64
  deriving DecidableEq

/-- The low six bytes of `UNDEF`. -/
def undefHandle : Handle := 0xFFFFFFFFFFFF

def crcBytes (crc : Vector UInt32 4) : Bytes := crc.toList.flatMap fun c => leBytes 4 c.toNat

def crcOf (memory : Bytes) : Vector UInt32 4 :=
  Vector.ofFn fun i => UInt32.ofNat (ofLe ((memory.drop (4 * i)).take 4))

namespace LocalRecord

def serialize (l : LocalRecord) : Bytes :=
  let ll := l.localname.length % 65536
  Cache.word64 (if l.type = fileNode then l.size else Int64.ofInt (-l.type)) ++
    leBytes 8 l.fsid.toNat ++ leBytes 4 l.parentDbid.toNat ++
    leBytes 6 (l.node.getD undefHandle).toNat ++ leBytes 2 ll ++ l.localname.take ll ++
    if l.type = fileNode then crcBytes l.crc ++ serialize64 l.mtime.toUInt64 else []

/-- The modification time behind the checksum. A malformed one is not noticed, as its -1 is
not 0. -/
def readMtime (ptr : Bytes) : Read UInt64 :=
  if 16 ≤ ptr.length then
    (unserialize64 (ptr.drop 16) (ptr.length - 1 - 16)).bind fun v => .ok (v.getD 0)
  else .null

/-- `LocalNode::unserialize`: `known` are the handles of nodes, and `beyond` is the memory behind
the record, from where the checksum of a folder is copied. -/
def unserialize (known : Handle → Bool) (beyond : Bytes) (d : Bytes) : Read LocalRecord :=
  (require 28 (d ++ [0])).bind fun _ =>
  (word 8 (d ++ [0])).bind fun (size, ptr) =>
  let size := (UInt64.ofNat size).toInt64
  let type := if size < 0 ∧ -1 ≤ size then -size.toInt else fileNode
  (word 8 ptr).bind fun (fsid, ptr) =>
  (word 4 ptr).bind fun (parentDbid, ptr) =>
  (word 6 ptr).bind fun (h, ptr) =>
  (word 2 ptr).bind fun (localnamelen, ptr) =>
  (require localnamelen ptr).bind fun _ =>
  (bytes localnamelen ptr).bind fun (localname, ptr) =>
  (if type = fileNode then readMtime ptr else .ok 0).bind fun mtime =>
    .ok {
      type := type
      size := if size < 0 ∧ -1 ≤ size then 0 else size
      fsid := UInt64.ofNat fsid
      parentDbid := UInt32.ofNat parentDbid
      node := if known (BitVec.ofNat 48 h) then some (BitVec.ofNat 48 h) else none
      localname := localname
      crc := crcOf (ptr ++ beyond)
      mtime := mtime.toInt64 }

end LocalRecord

theorem length_crcBytes (crc : Vector UInt32 4) : (crcBytes crc).length = 16 := by
  simp [crcBytes, List.length_flatMap]

theorem take_drop_flatMap (cs : List UInt32) (rest : Bytes) {i : Nat} (inside : i < cs.length) :
    (((cs.flatMap fun c => leBytes 4 c.toNat) ++ rest).drop (4 * i)).take 4 =
      leBytes 4 (cs.get ⟨i, inside⟩).toNat := by
  induction cs generalizing i with
  | nil => cases inside
  | cons c cs ih =>
    have width : (leBytes 4 c.toNat).length = 4 := length_leBytes ..
    rw [List.flatMap_cons, List.append_assoc]
    cases i with
    | zero => exact List.take_left' width
    | succ i =>
      have more := ih (i := i) (by simpa using inside)
      rw [Nat.mul_succ, Nat.add_comm, ← List.drop_drop, List.drop_left' width, more]
      rfl

theorem crcOf_append (crc : Vector UInt32 4) (rest : Bytes) :
    crcOf (crcBytes crc ++ rest) = crc := by
  apply Vector.ext
  intro i inside
  have word := take_drop_flatMap crc.toList rest (i := i) (by simpa using inside)
  simp only [crcOf, Vector.getElem_ofFn, crcBytes, word, ofLe_leBytes]
  simp

namespace LocalRecord

/-- What a loaded local node has to have in common with the written one. -/
structure Same (l m : LocalRecord) : Prop where
  type : m.type = l.type
  size : m.size = if l.type = fileNode then l.size else 0
  fsid : m.fsid = l.fsid
  parentDbid : m.parentDbid = l.parentDbid
  localname : m.localname = l.localname
  node : m.node = l.node
  crc : l.type = fileNode → m.crc = l.crc
  mtime : l.type = fileNode → m.mtime = l.mtime

variable {known : Handle → Bool} {beyond : Bytes} {l : LocalRecord}

/-- The node that the six bytes of a handle lead to. -/
def readNode (known : Handle → Bool) (l : LocalRecord) : Option Handle :=
  if known (l.node.getD undefHandle) then some (l.node.getD undefHandle) else none

def sizeWord (l : LocalRecord) : Int64 :=
  if l.type = fileNode then l.size else Int64.ofInt (-l.type)

def fingerprintBytes (l : LocalRecord) : Bytes :=
  if l.type = fileNode then crcBytes l.crc ++ serialize64 l.mtime.toUInt64 else []

/-- The fields of a record as they are read; the type is told by the size word alone. -/
theorem unserialize_eq (short : l.localname.length < 65536) :
    unserialize known beyond l.serialize =
      (if (if l.sizeWord < 0 ∧ -1 ≤ l.sizeWord then -l.sizeWord.toInt else fileNode) = fileNode then
        readMtime (l.fingerprintBytes ++ [0]) else .ok 0).bind fun mtime =>
      .ok {
        type := if l.sizeWord < 0 ∧ -1 ≤ l.sizeWord then -l.sizeWord.toInt else fileNode
        size := if l.sizeWord < 0 ∧ -1 ≤ l.sizeWord then 0 else l.sizeWord
        fsid := l.fsid
        parentDbid := l.parentDbid
        node := l.readNode known
        localname := l.localname
        crc := crcOf (l.fingerprintBytes ++ [0] ++ beyond)
        mtime := mtime.toInt64 } := by
  have written : l.serialize ++ [0] = leBytes 8 l.sizeWord.toUInt64.toNat ++
      (leBytes 8 l.fsid.toNat ++ (leBytes 4 l.parentDbid.toNat ++
      (leBytes 6 (l.node.getD undefHandle).toNat ++ (leBytes 2 l.localname.length ++
      (l.localname ++ (l.fingerprintBytes ++ [0])))))) := by
    simp [serialize, Nat.mod_eq_of_lt short, sizeWord, fingerprintBytes, Cache.word64]
  have size : l.sizeWord.toUInt64.toNat < 256 ^ 8 := UInt64.toNat_lt _
  have fsid : l.fsid.toNat < 256 ^ 8 := UInt64.toNat_lt _
  have dbid : l.parentDbid.toNat < 256 ^ 4 := UInt32.toNat_lt _
  have handle : (l.node.getD undefHandle).toNat < 256 ^ 6 := BitVec.isLt _
  have name : l.localname.length < 256 ^ 2 := short
  have long : 28 < (l.serialize ++ [0]).length := by
    rw [written]
    simp
    omega
  rw [unserialize, require, if_pos long, written]
  simp only [Read.bind_ok, word_append size, word_append fsid, word_append dbid,
    word_append handle, word_append name, require_append (Nat.le_refl _) (show
      l.fingerprintBytes ++ [0] ≠ [] by simp), bytes_append rfl, UInt64.ofNat_toNat,
    Int64.toInt64_toUInt64, UInt32.ofNat_toNat, BitVec.ofNat_toNat, BitVec.setWidth_eq, readNode]

/-- Small negative sizes and folders are what the word cannot tell apart. -/
theorem sizeWord_negative_iff (kind : l.type = fileNode ∨ l.type = folderNode) :
    (l.sizeWord < 0 ∧ -1 ≤ l.sizeWord) ↔ (l.type = folderNode ∨ l.size = -1) := by
  rw [sizeWord]
  rcases kind with file | folder
  · rw [if_pos file, file]
    constructor
    · rintro ⟨below, above⟩
      refine Or.inr (Int64.toInt_inj.mp ?_)
      rw [Int64.lt_iff_toInt_lt] at below
      rw [Int64.le_iff_toInt_le] at above
      have minus : (-1 : Int64).toInt = -1 := by decide
      have zero : (0 : Int64).toInt = 0 := by decide
      omega
    · rintro (no | size)
      · exact absurd no (by decide)
      · rw [size]
        decide
  · rw [folder, if_neg (by decide)]
    exact ⟨fun _ => Or.inl rfl, fun _ => by decide⟩

theorem readMtime_fingerprintBytes (file : l.type = fileNode) :
    readMtime (l.fingerprintBytes ++ [0]) = .ok l.mtime.toUInt64 := by
  have front := length_crcBytes l.crc
  have length : (crcBytes l.crc ++ (serialize64 l.mtime.toUInt64 ++ [0])).length =
      16 + (serialize64 l.mtime.toUInt64).length + 1 := by
    simp [front]
    omega
  rw [fingerprintBytes, if_pos file, readMtime, List.append_assoc, if_pos (by omega),
    List.drop_left' front, unserialize64_serialize64 _ _ (by omega)]
  rfl

theorem unserialize_file (file : l.type = fileNode) (sized : l.size ≠ -1)
    (short : l.localname.length < 65536) :
    unserialize known beyond l.serialize = .ok { l with node := l.readNode known } := by
  have positive : ¬(l.sizeWord < 0 ∧ -1 ≤ l.sizeWord) := by
    rw [sizeWord_negative_iff (Or.inl file), file]
    rintro (no | size)
    · exact absurd no (by decide)
    · exact sized size
  have crc : crcOf (l.fingerprintBytes ++ [0] ++ beyond) = l.crc := by
    rw [fingerprintBytes, if_pos file, List.append_assoc, List.append_assoc, crcOf_append]
  have size : l.sizeWord = l.size := if_pos file
  rw [unserialize_eq short]
  simp only [if_neg positive, if_true, readMtime_fingerprintBytes file, Read.bind_ok, crc,
    Int64.toInt64_toUInt64]
  rw [← file, size]

/-- The record of a folder has no fingerprint. -/
theorem unserialize_folder (folder : l.type = folderNode) (short : l.localname.length < 65536) :
    unserialize known beyond l.serialize = .ok { l with
      size := 0
      node := l.readNode known
      crc := crcOf ([0] ++ beyond)
      mtime := 0 } := by
  have negative := (sizeWord_negative_iff (Or.inr folder)).mpr (Or.inl folder)
  have other : l.type ≠ fileNode := by
    rw [folder]
    decide
  have type : -l.sizeWord.toInt = folderNode := by
    rw [sizeWord, if_neg other, folder]
    decide
  have nothing : l.fingerprintBytes = [] := if_neg other
  rw [unserialize_eq short]
  simp only [if_pos negative, type, nothing]
  rw [if_neg (by decide), Read.bind_ok, ← folder]
  rfl

/-- The file whose content could not be read comes back as a folder. -/
theorem unserialize_unsized (file : l.type = fileNode) (lost : l.size = -1)
    (short : l.localname.length < 65536) :
    ∃ m, unserialize known beyond l.serialize = .ok m ∧ m.type = folderNode := by
  have negative := (sizeWord_negative_iff (Or.inl file)).mpr (Or.inr lost)
  have type : -l.sizeWord.toInt = folderNode := by
    rw [sizeWord, if_pos file, lost]
    decide
  rw [unserialize_eq short]
  simp only [if_pos negative, type]
  rw [if_neg (by decide), Read.bind_ok]
  exact ⟨_, rfl, rfl⟩

theorem readNode_eq_iff (present : ∀ h, l.node = some h → known h = true) :
    l.readNode known = l.node ↔ (l.node = none → known undefHandle = false) := by
  rw [readNode]
  cases associated : l.node with
  | none => simp
  | some h => simp [present h associated]

theorem unserialize_same (kind : l.type = fileNode ∨ l.type = folderNode)
    (short : l.localname.length < 65536) (present : ∀ h, l.node = some h → known h = true)
    (sized : ¬(l.type = fileNode ∧ l.size = -1))
    (absent : l.node = none → known undefHandle = false) :
    ∃ m, unserialize known beyond l.serialize = .ok m ∧ Same l m := by
  have node := (readNode_eq_iff present).mpr absent
  rcases kind with file | folder
  · refine ⟨_, unserialize_file file (fun lost => sized ⟨file, lost⟩) short, ?_⟩
    exact ⟨rfl, (if_pos file).symm, rfl, rfl, rfl, node, fun _ => rfl, fun _ => rfl⟩
  · have other : l.type ≠ fileNode := by
      rw [folder]
      decide
    refine ⟨_, unserialize_folder folder short, ?_⟩
    exact ⟨rfl, (if_neg other).symm, rfl, rfl, rfl, node, fun file => (other file).elim,
      fun file => (other file).elim⟩

/-- A record is read as it was written unless it is that of a file of size -1, which becomes a
folder, or that of an unassociated local node while a node has the handle that stands for
none. -/
theorem unserialize_same_iff (kind : l.type = fileNode ∨ l.type = folderNode)
    (short : l.localname.length < 65536) (present : ∀ h, l.node = some h → known h = true) :
    (∃ m, unserialize known beyond l.serialize = .ok m ∧ Same l m) ↔
      ¬(l.type = fileNode ∧ l.size = -1) ∧ (l.node = none → known undefHandle = false) := by
  constructor
  · rintro ⟨m, read, same⟩
    have sized : ¬(l.type = fileNode ∧ l.size = -1) := by
      rintro ⟨file, lost⟩
      obtain ⟨_, other, folder⟩ := unserialize_unsized file lost short
      rw [read] at other
      cases other
      rw [same.type, file] at folder
      exact absurd folder (by decide)
    refine ⟨sized, (readNode_eq_iff present).mp ?_⟩
    rw [← same.node]
    rcases kind with file | folder
    · rw [unserialize_file file (fun lost => sized ⟨file, lost⟩) short] at read
      cases read
      rfl
    · rw [unserialize_folder folder short] at read
      cases read
      rfl
  · rintro ⟨sized, absent⟩
    exact unserialize_same kind short present sized absent

/-- A file of which nothing could be read, as `genfingerprint` leaves it. -/
def unreadable : LocalRecord where
  type := fileNode
  size := -1
  fsid := 77
  parentDbid := 19
  node := none
  localname := ascii "a.txt"
  crc := Vector.replicate 4 0
  mtime := 1400000000

theorem unreadable_not_same :
    ¬∃ m, unserialize (fun _ => false) [] unreadable.serialize = .ok m ∧ Same unreadable m := by
  rintro ⟨m, read, same⟩
  have read' : unserialize (fun _ => false) [] unreadable.serialize = .ok { unreadable with
      type := folderNode, size := 0, crc := crcOf (unreadable.fingerprintBytes ++ [0]),
      mtime := 0 } := by
    decide +kernel
  rw [read'] at read
  cases read
  exact absurd same.type (by decide)

/-- The same file, read before the first second of 1970. -/
theorem unserialize_early : ∃ m,
    unserialize (fun h => h == 5) [] { unreadable with size := 12, node := some 5, mtime := -3 }.serialize =
      .ok m ∧ Same { unreadable with size := 12, node := some 5, mtime := -3 } m := by
  refine (unserialize_same_iff ?_ ?_ ?_).mpr ⟨?_, ?_⟩
  · decide
  · decide
  · intro h associated
    obtain rfl := Option.some.inj associated
    decide
  · decide
  · intro none
    cases none

end LocalRecord

end MegaSdk.Sync
