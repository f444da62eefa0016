import MegaSdk.Crypto.SymmCipher

/-!
# Cipher block chaining

`cbc_encrypt` and `cbc_decrypt` of crypto/cryptopp.cpp: the chain starts from the zero
block with every call, and only whole blocks are processed.
-/

namespace MegaSdk.Crypto

def zeroiv : Block := Vector.replicate 16 0

def cbcEncryptFrom (ecb : Block → Block) : Nat → Block → Bytes → Bytes
  | 0, _, data => data
  | blocks + 1, previous, data =>
    let crypted := ecb (xorBlock previous (load data))
    crypted.toList ++ cbcEncryptFrom ecb blocks crypted (data.drop blockSize)

def cbcEncrypt (ecb : Block → Block) (data : Bytes) : Bytes :=
  cbcEncryptFrom ecb (data.length / blockSize) zeroiv data

def cbcDecryptFrom (ecbd : Block → Block) : Nat → Block → Bytes → Bytes
  | 0, _, data => data
  | blocks + 1, previous, data =>
    (xorBlock previous (ecbd (load data))).toList ++
      cbcDecryptFrom ecbd blocks (load data) (data.drop blockSize)

def cbcDecrypt (ecbd : Block → Block) (data : Bytes) : Bytes :=
  cbcDecryptFrom ecbd (data.length / blockSize) zeroiv data

theorem length_cbcEncryptFrom (ecb : Block → Block) (blocks : Nat) (previous : Block)
    {data : Bytes} (whole : data.length = blocks * blockSize) :
    (cbcEncryptFrom ecb blocks previous data).length = data.length := by
  induction blocks generalizing previous data with
  | zero => rfl
  | succ blocks ih =>
    have tail : (data.drop blockSize).length = blocks * blockSize := by
      rw [List.length_drop, whole, Nat.succ_mul]
      omega
    rw [cbcEncryptFrom, List.length_append, ih _ tail, Vector.length_toList, tail, whole]
    simp only [blockSize]
    omega

/-- Encryption keeps the length of whole blocks. -/
theorem length_cbcEncrypt (ecb : Block → Block) {data : Bytes} (whole : blockSize ∣ data.length) :
    (cbcEncrypt ecb data).length = data.length :=
  length_cbcEncryptFrom ecb _ _ (Nat.div_mul_cancel whole).symm

theorem length_cbcDecryptFrom (ecbd : Block → Block) (blocks : Nat) (previous : Block)
    {data : Bytes} (whole : data.length = blocks * blockSize) :
    (cbcDecryptFrom ecbd blocks previous data).length = data.length := by
  induction blocks generalizing previous data with
  | zero => rfl
  | succ blocks ih =>
    have tail : (data.drop blockSize).length = blocks * blockSize := by
      rw [List.length_drop, whole, Nat.succ_mul]
      omega
    rw [cbcDecryptFrom, List.length_append, ih _ tail, Vector.length_toList, tail, whole]
    simp only [blockSize]
    omega

/-- Decryption keeps the length of whole blocks. -/
theorem length_cbcDecrypt (ecbd : Block → Block) {data : Bytes} (whole : blockSize ∣ data.length) :
    (cbcDecrypt ecbd data).length = data.length :=
  length_cbcDecryptFrom ecbd _ _ (Nat.div_mul_cancel whole).symm

theorem drop_block (block : Block) (rest : Bytes) :
    (block.toList ++ rest).drop blockSize = rest :=
  List.drop_left' Vector.length_toList

variable {ecb ecbd : Block → Block}

theorem cbcDecryptFrom_encrypt (inverts : ∀ b, ecbd (ecb b) = b) (blocks : Nat)
    (previous : Block) {data : Bytes} (whole : data.length = blocks * blockSize) :
    cbcDecryptFrom ecbd blocks previous (cbcEncryptFrom ecb blocks previous data) = data := by
  induction blocks generalizing previous data with
  | zero => rfl
  | succ blocks ih =>
    have long : 16 ≤ data.length := by
      rw [whole, Nat.succ_mul, blockSize]
      omega
    have tail : (data.drop blockSize).length = blocks * blockSize := by
      rw [List.length_drop, whole, Nat.succ_mul]
      omega
    rw [cbcEncryptFrom, cbcDecryptFrom, load_toList_append, inverts, xorBlock_cancel,
      drop_block, ih _ tail, toList_load long]
    exact List.take_append_drop 16 data

/-- Decryption with the inverse of the block cipher inverts encryption on whole blocks. -/
theorem cbcDecrypt_encrypt (inverts : ∀ b, ecbd (ecb b) = b) {data : Bytes}
    (whole : blockSize ∣ data.length) : cbcDecrypt ecbd (cbcEncrypt ecb data) = data := by
  rw [cbcDecrypt, length_cbcEncrypt ecb whole]
  exact cbcDecryptFrom_encrypt inverts _ _ (Nat.div_mul_cancel whole).symm

end MegaSdk.Crypto
