import MegaSdk.Crypto.PrivateOperation
import Mathlib.Tactic.NormNum.Prime
import Mathlib.Data.UInt

/-!
# Signatures over hashes

A signature is the private operation on the integer of a hash. Both directions write their result
without leading zero bytes, and the check compares the number of bytes with the length of the hash.
-/

namespace MegaSdk.Crypto

open Residues

/-- The end of `rawencrypt` and `rawdecrypt`: the bytes that are written; their number is
returned. -/
def rawbytes (t buflen : Nat) : Bytes :=
  if byteCount t > buflen then [] else (List.range (byteCount t)).reverse.map (getByte t)

def rawencrypt (key : PublicKey) (plain : Bytes) (buflen : Nat) : Bytes :=
  rawbytes (rsaencrypt key (integer plain)) buflen

def rawdecrypt (key : PrivateKey) (c : Bytes) (buflen : Nat) : Bytes :=
  rawbytes (rsadecrypt key (integer c)) buflen

/-- A hash function and what has been added to the hash. -/
structure HashSignature where
  hash : Bytes → Bytes
  data : Bytes

namespace HashSignature

def add (signature : HashSignature) (data : Bytes) : HashSignature :=
  { signature with data := signature.data ++ data }

def get (signature : HashSignature) (privk : PrivateKey) (sigbuflen : Nat) : Bytes :=
  rawdecrypt privk (signature.hash signature.data) sigbuflen

def check (signature : HashSignature) (pubk : PublicKey) (sig : Bytes) : Bool :=
  let h := signature.hash signature.data
  let bytes := rawencrypt pubk sig h.length
  -- `s` has been resized to the length of the hash.
  let s := bytes ++ List.replicate (h.length - bytes.length) 0
  bytes.length = h.length && s = h

end HashSignature

/-- The bytes of an integer are those of the string that it was made of, if that is not longer. -/
theorem getBytes_integer {bytes : Bytes} (whole : byteCount (integer bytes) = bytes.length) :
    (List.range (byteCount (integer bytes))).reverse.map (getByte (integer bytes)) = bytes := by
  apply List.ext_getElem
  · simp [whole]
  · intro j _ inside
    rw [List.getElem_map, List.getElem_reverse, List.getElem_range, List.length_range, whole,
      getByte_integer bytes inside, List.getD_eq_getElem _ _ inside]

/-- No byte of the integer is missing exactly if the string does not begin with a zero byte. -/
theorem byteCount_integer_iff (bytes : Bytes) :
    byteCount (integer bytes) = bytes.length ↔ bytes.head? ≠ some 0 := by
  have short : byteCount (integer bytes) ≤ bytes.length := byteCount_le.mpr (integer_lt bytes)
  rcases eq_or_ne bytes [] with rfl | nonempty
  · exact ⟨fun _ => nofun, fun _ => Nat.le_zero.mp short⟩
  · have first := head_ne_zero_iff [] nonempty
    rw [List.append_nil] at first
    rw [first]
    omega

/-- The public operation undoes the private one, also where the private one adds the modulus. -/
theorem RsaKey.public_undoes_private (key : RsaKey) (oddP : key.p ≠ 2) (oddQ : key.q ≠ 2) {m : Nat}
    (range : m < key.p * key.q) :
    rsaencrypt key.publicKey (rsadecrypt key.toPrivateKey m) = m := by
  let xp := powMod (m % key.p) (key.d % (key.p - 1)) key.p
  let xq := powMod (m % key.q) (key.d % (key.q - 1)) key.q
  let x := recombine key.p key.q key.u xp xq
  have left : x ≡ m ^ (key.d % (key.p - 1)) [MOD key.p] := by
    refine (recombine_modEq_left ..).trans ?_
    rw [Nat.ModEq, show xp = _ from powMod_eq _ _ _, Nat.mod_mod, ← Nat.pow_mod]
  have right : x ≡ m ^ (key.d % (key.q - 1)) [MOD key.q] := by
    refine (recombine_modEq_right key.inverseP key.primeQ.pos).trans ?_
    rw [Nat.ModEq, show xq = _ from powMod_eq _ _ _, Nat.mod_mod, ← Nat.pow_mod]
  have backP : x ^ key.e ≡ m [MOD key.p] :=
    (left.pow key.e).trans (reduced_pow key.primeP oddP key.inverseE_p m)
  have backQ : x ^ key.e ≡ m [MOD key.q] :=
    (right.pow key.e).trans (reduced_pow key.primeQ oddQ key.inverseE_q m)
  have coprime : Nat.Coprime key.p key.q :=
    (Nat.coprime_primes key.primeP key.primeQ).mpr key.distinct
  have back : x ^ key.e ≡ m [MOD key.p * key.q] :=
    (Nat.modEq_and_modEq_iff_modEq_mul coprime).mp ⟨backP, backQ⟩
  rw [rsaencrypt, publicKey, powMod_eq]
  exact Eq.trans back (Nat.mod_eq_of_lt range)

section Check

variable {signature : HashSignature} {pubk : PublicKey} {privk : PrivateKey} {sigbuflen n : Nat}

/-- What the check makes of a genuine signature is the hash without its leading zero bytes. -/
theorem rawencrypt_get {h : Bytes} (hashed : signature.hash signature.data = h)
    (inverts : ∀ m < pubk.pq, rsaencrypt pubk (rsadecrypt privk m) = m)
    (longer : h.length < byteCount pubk.pq)
    (room : byteCount (rsadecrypt privk (integer h)) ≤ sigbuflen) :
    rawencrypt pubk (signature.get privk sigbuflen) h.length =
      (List.range (byteCount (integer h))).reverse.map (getByte (integer h)) := by
  have range : integer h < pubk.pq := by
    calc integer h < 256 ^ h.length := integer_lt h
      _ ≤ pubk.pq := lt_byteCount.mp longer
  have short : ¬byteCount (integer h) > h.length := Nat.not_lt.mpr (byteCount_le.mpr (integer_lt h))
  rw [HashSignature.get, hashed, rawdecrypt, rawbytes, if_neg (Nat.not_lt.mpr room), rawencrypt,
    integer_getBytes, inverts _ range, rawbytes, if_neg short]

/-- A genuine signature is accepted exactly if the hash does not begin with a zero byte. -/
theorem check_get_iff (inverts : ∀ m < pubk.pq, rsaencrypt pubk (rsadecrypt privk m) = m)
    (fixed : ∀ data, (signature.hash data).length = n) (longer : n < byteCount pubk.pq)
    (room : byteCount (rsadecrypt privk (integer (signature.hash signature.data))) ≤ sigbuflen) :
    signature.check pubk (signature.get privk sigbuflen) = true ↔
      (signature.hash signature.data).head? ≠ some 0 := by
  rw [← fixed signature.data] at longer
  have bytes := rawencrypt_get rfl inverts longer room
  have length : (rawencrypt pubk (signature.get privk sigbuflen)
      (signature.hash signature.data).length).length =
        byteCount (integer (signature.hash signature.data)) := by
    rw [bytes, List.length_map, List.length_reverse, List.length_range]
  rw [HashSignature.check, Bool.and_eq_true, decide_eq_true_eq, decide_eq_true_eq, length,
    ← byteCount_integer_iff, and_iff_left_iff_imp]
  intro whole
  rw [whole, Nat.sub_self, List.replicate_zero, List.append_nil, bytes, getBytes_integer whole]

def threeByteKey : RsaKey where
  p := 257
  q := 263
  d := 11179
  u := 219
  e := 3
  primeP := by norm_num
  primeQ := by norm_num
  distinct := by decide
  coprimeP := by norm_num
  coprimeQ := by norm_num
  inverseE := by decide
  inverseP := by decide

def sumSignature (data : Bytes) : HashSignature := ⟨fun data => [data.sum, 2 * data.sum + 7], data⟩

theorem sumSignature_accepted : (sumSignature [1, 2]).check threeByteKey.publicKey
    ((sumSignature [1, 2]).get threeByteKey.toPrivateKey 512) = true :=
  (check_get_iff (fun _ range => threeByteKey.public_undoes_private (by decide) (by decide) range)
    (fun _ => rfl) (show 2 < _ by decide) (by decide)).mpr (by decide)

/-- The hash begins with a zero byte, and its signature is rejected. -/
theorem sumSignature_rejected : (sumSignature [255, 1]).check threeByteKey.publicKey
    ((sumSignature [255, 1]).get threeByteKey.toPrivateKey 512) = false := by
  decide

end Check

end MegaSdk.Crypto
