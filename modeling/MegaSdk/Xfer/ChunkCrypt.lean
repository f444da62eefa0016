import MegaSdk.Crypto.SymmCipher
import MegaSdk.Xfer.Chunks
import MegaSdk.Lib.ByteFile
import Std.Data.ExtTreeMap

/-!
# Encrypting, decrypting and authenticating chunks

`HttpReqUL::prepare` and `HttpReqDL::finalize` of http.cpp, `TransferSlot::macsmac`
and the file key of transferslot.cpp, and the key setup of `MegaClient::dispatch`.
Chunk MACs are kept by chunk position.
-/

namespace MegaSdk.Xfer

open ByteOrder Crypto

/-- `chunkmac_map`. -/
abbrev ChunkMacs := Std.ExtTreeMap Nat Block

/-- `FileAccess::fread`: `len` bytes at `pos`, NUL-padded; a short read fails. -/
def fread (file : Bytes) (len pad pos : Nat) : Option Bytes :=
  let data := (file.drop pos).take len
  if data.length = len then some (data ++ List.replicate pad 0) else none

/-- `HttpReqUL::prepare`: the request body and the chunk MACs. -/
def prepareUL (ecb : Block → Block) (file : Bytes) (ctriv : UInt64) (pos npos : Nat)
    (macs : ChunkMacs) : Option (Bytes × ChunkMacs) :=
  let size := (npos - pos) % 2 ^ 32
  match fread file size (padLen size) pos with
  | none => none
  | some out =>
    let sealed := ctrCrypt ecb out size pos ctriv true
    some (sealed.1.take size, macs.insert pos sealed.2)

/-- The receive buffer of a chunk: its ciphertext, then whatever fills the last block. -/
def buffer (cipher : Bytes) (padding : Nat → UInt8) : Bytes :=
  cipher ++ (List.range (padLen cipher.length)).map padding

/-- The bytes of a decrypted chunk that `finalize` writes, and where; an end position
of -1 stands for no pruning and is `none`. -/
def writeRange (plain : Bytes) (bufpos dlpos startpos : Nat) (endpos : Option Nat) : Bytes × Nat :=
  let skip := match endpos with
    | none => 0
    | some _ => startpos - dlpos
  let prune := match endpos with
    | none => 0
    | some e => dlpos + bufpos - e
  ((plain.drop skip).take (bufpos - skip - prune), dlpos + skip)

/-- `HttpReqDL::finalize`: the file and the chunk MACs after decrypting `bufpos` bytes of
the padded buffer `buf`. `fwrite` says what a write leaves in the file; its result is not
checked. -/
def finalizeDL (ecb : Block → Block) (fwrite : Bytes → Bytes → Nat → Bytes) (file : Bytes)
    (macs : ChunkMacs) (ctriv : UInt64) (startpos : Nat) (endpos : Option Nat) (buf : Bytes)
    (bufpos dlpos : Nat) : Bytes × ChunkMacs :=
  let opened := ctrCrypt ecb buf bufpos dlpos ctriv false
  let range := writeRange opened.1 bufpos dlpos startpos endpos
  (fwrite file range.1 range.2, macs.insert dlpos opened.2)

/-- `m[0] ^= m[1]; m[1] = m[2] ^ m[3]` on 32-bit words, read as one 64-bit integer. -/
def foldMac (mac : Block) : UInt64 :=
  UInt64.ofNat (ofLe (List.ofFn fun i : Fin 8 =>
    if i.val < 4 then mac.toList.getD i 0 ^^^ mac.toList.getD (i + 4) 0
    else mac.toList.getD (i + 4) 0 ^^^ mac.toList.getD (i + 8) 0))

/-- `macsmac`: coalesce chunk macs into the file mac; the map is cleared. -/
def macsMac (ecb : Block → Block) (macs : ChunkMacs) : UInt64 × ChunkMacs :=
  (foldMac (macs.toList.foldl (fun mac e => ecb (xorBlock e.2 mac)) (load [])), ∅)

/-- The key of an uploaded file: cipher key, `ctriv` and meta MAC, with the upper half
folded into the lower. -/
def fileKey (key : Block) (ctriv metamac : UInt64) : Bytes :=
  let upper := load (leBytes 8 ctriv.toNat ++ leBytes 8 metamac.toNat)
  (xorBlock upper key).toList ++ upper.toList

/-- `SymmCipher::setkey`: file keys are folded. -/
def setKey (newkey : Bytes) (type : NodeType) : Block :=
  if type = fileNode then xorBlock (load (newkey.drop 16)) (load newkey) else load newkey

/-- The counter start that `dispatch` takes from a file key. -/
def keyCtriv (k : Bytes) : UInt64 := UInt64.ofNat (ofLe ((k.drop 16).take 8))

/-- The meta MAC that `dispatch` takes from a file key. -/
def keyMetaMac (k : Bytes) : UInt64 := UInt64.ofNat (ofLe ((k.drop 24).take 8))

theorem ofLe_leBytes_uint64 (n : UInt64) : UInt64.ofNat (ofLe (leBytes 8 n.toNat)) = n := by
  rw [ofLe_leBytes, Nat.mod_eq_of_lt (by simpa using n.toNat_lt), UInt64.ofNat_toNat]

section FileKey
variable (key : Block) (ctriv metamac : UInt64)

theorem setKey_fileKey : setKey (fileKey key ctriv metamac) fileNode = key := by
  rw [setKey, if_pos rfl, fileKey, load_toList_append, List.drop_left' (by simp),
    ← List.append_nil (Vector.toList _), load_toList_append, xorBlock_cancel]

theorem drop_fileKey : (fileKey key ctriv metamac).drop 16 =
    leBytes 8 ctriv.toNat ++ leBytes 8 metamac.toNat := by
  have size : (leBytes 8 ctriv.toNat ++ leBytes 8 metamac.toNat).length = 16 := by simp
  rw [fileKey, List.drop_left' (by simp), toList_load (by rw [size]), blockSize,
    List.take_of_length_le (by rw [size])]

theorem keyCtriv_fileKey : keyCtriv (fileKey key ctriv metamac) = ctriv := by
  rw [keyCtriv, drop_fileKey, List.take_left' (by simp), ofLe_leBytes_uint64]

theorem keyMetaMac_fileKey : keyMetaMac (fileKey key ctriv metamac) = metamac := by
  have upper : (fileKey key ctriv metamac).drop 24 = leBytes 8 metamac.toNat := by
    rw [← List.drop_drop (i := 8) (j := 16), drop_fileKey, List.drop_left' (by simp)]
  rw [keyMetaMac, upper, List.take_of_length_le (by simp), ofLe_leBytes_uint64]

end FileKey

end MegaSdk.Xfer
