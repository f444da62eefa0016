import MegaSdk.Types
import MegaSdk.Lib.ByteOrder

/-!
# Counter mode with a running MAC

`SymmCipher` of crypto/cryptopp.cpp. AES in ECB mode is a fixed function of key
and block, so the cipher object is that function with its key. Encryption MACs
the NUL-padded plaintext, decryption MACs only the bytes that are part of the
data.
-/

namespace MegaSdk.Crypto

open ByteOrder

abbrev Block := Vector UInt8 16

def blockSize : Nat := 16

abbrev Aes := Block → Block → Block

def load (data : Bytes) : Block := Vector.ofFn fun i => data.getD i 0

/-- `xorblock(src, dst)`. -/
def xorBlock (src dst : Block) : Block := Vector.ofFn fun i => dst[i] ^^^ src[i]

/-- `xorblock(src, dst, len)`. -/
def xorBlockLen (src dst : Block) (len : Nat) : Block :=
  Vector.ofFn fun i => if i.val < len then dst[i] ^^^ src[i] else dst[i]

def incBytes : Bytes → Bytes
  | [] => []
  | b :: rest => if b + 1 ≠ 0 then (b + 1) :: rest else 0 :: incBytes rest

def incBlock (dst : Block) : Block := load (incBytes dst.toList.reverse).reverse

/-- `ctriv` in host order, then the block number in network order. -/
def ctrBlock (ctriv : UInt64) (pos : Nat) : Block :=
  load (leBytes 8 ctriv.toNat ++ beBytes 8 (pos / blockSize))

def initialMac (ctriv : UInt64) : Block :=
  load (leBytes 8 ctriv.toNat ++ leBytes 8 ctriv.toNat)

/-- The block loop of `ctr_crypt`; `len` counts the bytes left and ends the loop when it
is used up (the source's unsigned counter turns negative). -/
def ctrLoop (ecb : Block → Block) (encrypt : Bool) :
    Nat → Bytes → Nat → Block → Block → Bytes × Block
  | 0, data, _, _, mac => (data, mac)
  | fuel + 1, data, len, ctr, mac =>
    if len = 0 then (data, mac)
    else
      let block := load data
      let crypted := xorBlock (ecb ctr) block
      let mac :=
        if encrypt then ecb (xorBlock block mac)
        else if len ≥ blockSize then ecb (xorBlock crypted mac)
        else ecb (xorBlockLen crypted mac len)
      let rest :=
        ctrLoop ecb encrypt fuel (data.drop blockSize) (len - blockSize) (incBlock ctr) mac
      (crypted.toList ++ rest.1, rest.2)

/-- `ctr_crypt`: the transformed buffer and the MAC. -/
def ctrCrypt (ecb : Block → Block) (data : Bytes) (len pos : Nat) (ctriv : UInt64)
    (encrypt : Bool) : Bytes × Block :=
  ctrLoop ecb encrypt len data len (ctrBlock ctriv pos) (initialMac ctriv)

/-- Bytes missing to a multiple of the block size: `(-(int)size) & (BLOCKSIZE - 1)`. -/
def padLen (size : Nat) : Nat := (blockSize - size % blockSize) % blockSize

theorem getElem_xorBlock (src dst : Block) (i : Nat) (hi : i < 16) :
    (xorBlock src dst)[i] = dst[i] ^^^ src[i] := by
  simp [xorBlock]

theorem xorBlock_cancel (key block : Block) : xorBlock key (xorBlock key block) = block := by
  ext i hi
  rw [getElem_xorBlock, getElem_xorBlock, UInt8.xor_assoc, UInt8.xor_self, UInt8.xor_zero]

theorem getElem_load (data : Bytes) (i : Nat) (hi : i < 16) : (load data)[i] = data.getD i 0 := by
  simp [load]

/-- A block at the start of a buffer is loaded whole. -/
theorem load_toList_append (block : Block) (rest : Bytes) :
    load (block.toList ++ rest) = block := by
  refine Vector.ext fun i hi => ?_
  have inside : i < block.toList.length := by simpa using hi
  rw [getElem_load, List.getD_eq_getElem?_getD, List.getElem?_append_left inside]
  simp [hi]

/-- A short last block: the MAC over the data bytes is the MAC over the NUL-padded block. -/
theorem xorBlockLen_eq {src padded mac : Block} {len : Nat}
    (same : ∀ i (hi : i < 16), i < len → src[i] = padded[i])
    (zero : ∀ i (hi : i < 16), len ≤ i → padded[i] = 0) :
    xorBlockLen src mac len = xorBlock padded mac := by
  ext i hi
  by_cases short : i < len
  · simp [xorBlockLen, xorBlock, short, same i hi short]
  · simp [xorBlockLen, xorBlock, short, zero i hi (by omega)]

theorem toList_load {data : Bytes} (long : 16 ≤ data.length) :
    (load data).toList = data.take blockSize := by
  refine List.ext_getElem (by simp [blockSize, long]) fun i hi _ => ?_
  have hi : i < 16 := by simpa using hi
  have inside : i < data.length := by omega
  simp [load, blockSize, inside]

@[simp] theorem ctrLoop_done (ecb : Block → Block) (encrypt : Bool) (fuel : Nat) (data : Bytes)
    (ctr mac : Block) : ctrLoop ecb encrypt fuel data 0 ctr mac = (data, mac) := by
  cases fuel with
  | zero => rfl
  | succ fuel => simp [ctrLoop]

theorem length_ctrLoop (ecb : Block → Block) (encrypt : Bool) {fuel len : Nat} (enough : len ≤ fuel)
    (data : Bytes) (ctr mac : Block) :
    len ≤ (ctrLoop ecb encrypt fuel data len ctr mac).1.length := by
  induction fuel generalizing len data ctr mac with
  | zero => omega
  | succ fuel ih =>
    rw [ctrLoop]
    split
    · omega
    · dsimp only
      rw [List.length_append, Vector.length_toList]
      have rest := @ih (len - blockSize) (by simp only [blockSize]; omega)
        (data.drop blockSize) (incBlock ctr)
      simp only [blockSize] at rest ⊢
      refine Nat.le_trans ?_ (Nat.add_le_add_left (rest _) 16)
      omega

/-- Decryption restores the data and arrives at the MAC of its encryption. -/
def Agree (ecb : Block → Block) (fuel : Nat) (plain garbage : Bytes) (ctr mac : Block) : Prop :=
  let sealed := ctrLoop ecb true fuel (plain ++ List.replicate (padLen plain.length) 0)
    plain.length ctr mac
  let opened := ctrLoop ecb false fuel (sealed.1.take plain.length ++ garbage)
    plain.length ctr mac
  plain.length ≤ sealed.1.length ∧ opened.1.take plain.length = plain ∧ opened.2 = sealed.2

/-- The last block, with fewer bytes than a block. -/
theorem agree_short (ecb : Block → Block) (fuel : Nat) (plain garbage : Bytes) (ctr mac : Block)
    (some : plain.length ≠ 0) (short : plain.length < 16) :
    Agree ecb (fuel + 1) plain garbage ctr mac := by
  have last : plain.length - blockSize = 0 := by simp only [blockSize]; omega
  have partly : ¬ plain.length ≥ blockSize := by simp only [blockSize]; omega
  let padded := load (plain ++ List.replicate (padLen plain.length) 0)
  let crypted := xorBlock (ecb ctr) padded
  have data : ∀ i (hi : i < 16), i < plain.length → padded[i] = plain.getD i 0 := by
    intro i hi inside
    simp [padded, getElem_load, List.getD_eq_getElem?_getD, List.getElem?_append_left inside]
  have zero : ∀ i (hi : i < 16), plain.length ≤ i → padded[i] = 0 := by
    intro i hi outside
    simp only [padded, getElem_load, List.getD_eq_getElem?_getD,
      List.getElem?_append_right outside, List.getElem?_replicate]
    split <;> rfl
  have taken : (crypted.toList ++ (plain ++ List.replicate (padLen plain.length) 0).drop
      blockSize).take plain.length = crypted.toList.take plain.length :=
    List.take_append_of_le_length (by simp; omega)
  let opened := xorBlock (ecb ctr) (load (crypted.toList.take plain.length ++ garbage))
  have restored : ∀ i (hi : i < 16), i < plain.length → opened[i] = padded[i] := by
    intro i hi inside
    have front : i < (crypted.toList.take plain.length).length := by
      simp only [List.length_take, Vector.length_toList]
      omega
    have byte : (load (crypted.toList.take plain.length ++ garbage))[i] = crypted[i] := by
      rw [getElem_load, List.getD_eq_getElem?_getD, List.getElem?_append_left front]
      simp [inside, hi]
    simp only [opened, crypted, getElem_xorBlock, byte]
    rw [UInt8.xor_assoc, UInt8.xor_self, UInt8.xor_zero]
  rw [Agree]
  simp only [ctrLoop, some, last, partly, ctrLoop_done, if_false, if_true]
  refine ⟨?_, ?_, ?_⟩
  · simp
    omega
  · change List.take plain.length (Vector.toList (xorBlock (ecb ctr) (load
      ((crypted.toList ++ _).take plain.length ++ garbage))) ++ _) = plain
    rw [taken, List.take_append_of_le_length (by simp; omega)]
    refine List.ext_getElem (by simp; omega) fun i hi inside => ?_
    have hi : i < 16 := by omega
    have byte := (restored i hi inside).trans (data i hi inside)
    simpa [opened, inside] using byte
  · change ecb (xorBlockLen (xorBlock (ecb ctr) (load
      ((crypted.toList ++ _).take plain.length ++ garbage))) mac plain.length) =
      ecb (xorBlock padded mac)
    rw [taken, xorBlockLen_eq restored zero]

theorem padLen_sub {size : Nat} (long : 16 ≤ size) : padLen (size - 16) = padLen size := by
  simp only [padLen, blockSize]
  omega

/-- A whole block, with the rest of the data behind it. -/
theorem agree_cons (ecb : Block → Block) (fuel : Nat) (plain garbage : Bytes) (ctr mac : Block)
    (long : 16 ≤ plain.length)
    (rest : ∀ mac, Agree ecb fuel (plain.drop blockSize) garbage (incBlock ctr) mac) :
    Agree ecb (fuel + 1) plain garbage ctr mac := by
  have some : plain.length ≠ 0 := by omega
  have whole : plain.length ≥ blockSize := long
  let zeros : Bytes := List.replicate (padLen plain.length) 0
  let block := load (plain ++ zeros)
  have front : block.toList = plain.take blockSize := by
    rw [toList_load (by simp; omega), List.take_append_of_le_length whole]
  have behind : (plain ++ zeros).drop blockSize =
      plain.drop blockSize ++ List.replicate (padLen (plain.drop blockSize).length) 0 := by
    rw [List.drop_append_of_le_length whole, List.length_drop, blockSize, padLen_sub long]
  obtain ⟨covers, restored, macs⟩ := rest (ecb (xorBlock block mac))
  rw [← behind, List.length_drop] at covers restored macs
  let tail := ctrLoop ecb true fuel ((plain ++ zeros).drop blockSize)
    (plain.length - blockSize) (incBlock ctr) (ecb (xorBlock block mac))
  have size : (xorBlock (ecb ctr) block).toList.length = blockSize := by simp [blockSize]
  have sent : ((xorBlock (ecb ctr) block).toList ++ tail.1).take plain.length ++ garbage =
      (xorBlock (ecb ctr) block).toList ++ (tail.1.take (plain.length - blockSize) ++ garbage) := by
    rw [List.take_append, size, List.take_of_length_le (by rw [size]; exact whole),
      List.append_assoc]
  have sealedEq : ctrLoop ecb true (fuel + 1) (plain ++ zeros) plain.length ctr mac =
      ((xorBlock (ecb ctr) block).toList ++ tail.1, tail.2) := by
    simp [ctrLoop, some, tail, block]
  have openedEq : ctrLoop ecb false (fuel + 1) ((xorBlock (ecb ctr) block).toList ++
      (tail.1.take (plain.length - blockSize) ++ garbage)) plain.length ctr mac =
      (block.toList ++ (ctrLoop ecb false fuel (tail.1.take (plain.length - blockSize) ++ garbage)
        (plain.length - blockSize) (incBlock ctr) (ecb (xorBlock block mac))).1, tail.2) := by
    rw [ctrLoop, if_neg some]
    simp only [load_toList_append, xorBlock_cancel, List.drop_left' size, whole, if_true,
      Bool.false_eq_true, if_false]
    exact congrArg _ macs
  rw [Agree]
  change plain.length ≤ (ctrLoop ecb true (fuel + 1) (plain ++ zeros) plain.length ctr mac).1.length ∧ _
  rw [sealedEq, sent, openedEq]
  refine ⟨?_, ?_, rfl⟩
  · rw [List.length_append, size]
    have covers : plain.length - blockSize ≤ tail.1.length := covers
    omega
  · rw [List.take_append, front, List.length_take, Nat.min_eq_left whole, restored,
      List.take_take, Nat.min_eq_right whole, List.take_append_drop]

theorem ctrLoop_agree (ecb : Block → Block) (fuel : Nat) (plain garbage : Bytes) (ctr mac : Block)
    (enough : plain.length ≤ fuel) : Agree ecb fuel plain garbage ctr mac := by
  induction fuel generalizing plain ctr mac with
  | zero =>
    have empty : plain = [] := List.eq_nil_of_length_eq_zero (by omega)
    subst empty
    simp [Agree, ctrLoop]
  | succ fuel ih =>
    by_cases long : 16 ≤ plain.length
    · refine agree_cons ecb fuel plain garbage ctr mac long fun mac => ih _ _ mac ?_
      rw [List.length_drop, blockSize]
      omega
    · by_cases none : plain.length = 0
      · have empty : plain = [] := List.eq_nil_of_length_eq_zero none
        subst empty
        simp [Agree]
      · exact agree_short ecb fuel plain garbage ctr mac none (by omega)

end MegaSdk.Crypto
