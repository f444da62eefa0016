import MegaSdk.Types
import MegaSdk.Lib.ByteOrder
import MegaSdk.Lib.Residues
import Mathlib.Data.List.GetD

/-!
# RSA transport

The public side pads a plaintext to a block two bytes shorter than the modulus; the private
side recombines the integer from its residues modulo the two primes and cuts the plaintext
out of it. The private side has no modulus and takes the length of the block from the
private exponent and from the integer itself.
-/

namespace MegaSdk.Crypto

open ByteOrder Residues

def bitCount (m : Nat) : Nat := if m = 0 then 0 else m.log2 + 1

def byteCount (m : Nat) : Nat := (bitCount m + 7) / 8

def getByte (m i : Nat) : UInt8 := UInt8.ofNat (m / 256 ^ i)

/-- The integer of a byte string, most significant byte first. -/
def integer (bytes : Bytes) : Nat := ofLe bytes.reverse

structure PublicKey where
  pq : Nat
  e : Nat

structure PrivateKey where
  p : Nat
  q : Nat
  d : Nat
  u : Nat

def rsaencrypt (key : PublicKey) (m : Nat) : Nat := powMod m key.e key.pq

def rsadecrypt (key : PrivateKey) (m : Nat) : Nat :=
  let xp := powMod (m % key.p) (key.d % (key.p - 1)) key.p
  let xq := powMod (m % key.q) (key.d % (key.q - 1)) key.q
  recombine key.p key.q key.u xp xq

/-- One integer as `encrypt` and `serializeintarray` write it: bits, then bytes. -/
def serializeint (t : Nat) : Bytes :=
  UInt8.ofNat (bitCount t / 256) :: UInt8.ofNat (bitCount t) ::
    (List.range (byteCount t)).reverse.map (getByte t)

/-- `AsymmCipher::encrypt`, with the block of `PrnGen::genblock` as an argument. -/
def encrypt (key : PublicKey) (plain padding : Bytes) (buflen : Nat) : Option Bytes :=
  if byteCount key.pq + 2 > buflen then none
  else some (serializeint (rsaencrypt key (integer (plain ++ padding))))

/-- The integers of the loop in `decodeintarray`, and the bytes after them. -/
def decodeints : Nat → Bytes → Option (List Nat × Bytes)
  | 0, data => some ([], data)
  | numints + 1, high :: low :: data =>
    let n := (high.toNat * 256 + low.toNat + 7) / 8
    if n > data.length then none
    else (decodeints numints (data.drop n)).map fun ⟨ts, rest⟩ => (integer (data.take n) :: ts, rest)
  | _ + 1, _ => none

def decodeintarray (numints : Nat) (data : Bytes) : Option (List Nat) :=
  match decodeints numints data with
  | some (ts, rest) => if rest.length < 16 then some ts else none
  | none => none

/-- `AsymmCipher::decrypt`: `l` is unsigned, and bytes past the integer are zero. -/
def decrypt (key : PrivateKey) (c : Bytes) (numbytes : Nat) : Option Bytes :=
  match decodeintarray 1 c with
  | some [t] =>
    let m := rsadecrypt key t
    let least := (byteCount key.d + 2 ^ 32 - 2) % 2 ^ 32
    let l := if byteCount m > least then byteCount m else least
    let l := (l + 2 ^ 32 - numbytes) % 2 ^ 32
    some ((List.range numbytes).reverse.map fun i => getByte m ((l + i) % 2 ^ 32))
  | _ => none

/-- The least prime of a pair whose product has `size` bits. -/
def minPrime (size : Nat) : Nat :=
  if size % 2 = 0 then 182 * 2 ^ (size / 2 - 8) else 2 ^ ((size - 1) / 2)

def maxPrime (size : Nat) : Nat :=
  if size % 2 = 0 then 2 ^ (size / 2) - 1 else 181 * 2 ^ ((size + 1) / 2 - 8)

/-- What `RSAPrimeSelector` and the range let through. -/
structure Candidate (size p : Nat) : Prop where
  prime : p.Prime
  least : minPrime size ≤ p
  most : p ≤ maxPrime size
  acceptable : Nat.Coprime 17 (p - 1)

/-- A key pair of `genkeypair`. -/
structure KeyPair (size : Nat) extends PrivateKey where
  candidateP : Candidate size p
  candidateQ : Candidate size q
  distinct : p ≠ q
  inverseE : 17 * d ≡ 1 [MOD (p - 1).lcm (q - 1)]
  reducedD : d < (p - 1).lcm (q - 1)
  inverseP : u * p ≡ 1 [MOD q]
  reducedU : u < q

def KeyPair.publicKey {size : Nat} (key : KeyPair size) : PublicKey := ⟨key.p * key.q, 17⟩

theorem KeyPair.publicKey_pq {size : Nat} (key : KeyPair size) :
    key.publicKey.pq = key.p * key.q := rfl

section Digits

theorem bitCount_le {m n : Nat} : bitCount m ≤ n ↔ m < 2 ^ n := by
  rw [bitCount]
  split
  case isTrue zero => simp [zero]
  case isFalse some => rw [Nat.succ_le_iff, Nat.log2_lt some]

theorem byteCount_le {m n : Nat} : byteCount m ≤ n ↔ m < 256 ^ n := by
  have bits : byteCount m ≤ n ↔ bitCount m ≤ 8 * n := by rw [byteCount]; omega
  rw [bits, bitCount_le, pow_mul]
  rfl

theorem lt_byteCount {m n : Nat} : n < byteCount m ↔ 256 ^ n ≤ m := by
  rw [← not_le, byteCount_le, not_lt]

theorem getByte_eq_zero {m i : Nat} (past : byteCount m ≤ i) : getByte m i = 0 := by
  rw [getByte, Nat.div_eq_of_lt (byteCount_le.mp past)]
  rfl

/-- The most significant byte is not zero. -/
theorem getByte_top {m : Nat} (some : 0 < byteCount m) : getByte m (byteCount m - 1) ≠ 0 := by
  have least : 256 ^ (byteCount m - 1) ≤ m := lt_byteCount.mp (by omega)
  have most : m < 256 ^ (byteCount m - 1) * 256 := by
    rw [← pow_succ, Nat.sub_add_cancel some]
    exact byteCount_le.mp le_rfl
  have positive : 0 < 256 ^ (byteCount m - 1) := by positivity
  have high : m / 256 ^ (byteCount m - 1) < 256 :=
    (Nat.div_lt_iff_lt_mul positive).mpr (by linarith)
  have low : 0 < m / 256 ^ (byteCount m - 1) := Nat.div_pos least positive
  intro zero
  have value := congrArg UInt8.toNat zero
  rw [getByte, UInt8.toNat_ofNat', Nat.mod_eq_of_lt high] at value
  exact absurd value (by simpa using low.ne')

theorem leBytes_eq_map (n m : Nat) : leBytes n m = (List.range n).map (getByte m) := by
  induction n generalizing m with
  | zero => rfl
  | succ n ih =>
    rw [leBytes, List.range_succ_eq_map, List.map_cons, List.map_map, ih]
    congr 1
    · rw [getByte, pow_zero, Nat.div_one]
    · apply List.map_congr_left
      intro i _
      rw [Function.comp_apply, getByte, getByte, Nat.div_div_eq_div_mul, Nat.succ_eq_add_one,
        pow_succ']

theorem integer_lt (bytes : Bytes) : integer bytes < 256 ^ bytes.length := by
  have bound := ofLe_lt bytes.reverse
  rwa [List.length_reverse] at bound

/-- The bytes of an integer are those it was made of, counted from the end. -/
theorem getByte_integer (bytes : Bytes) {i : Nat} (inside : i < bytes.length) :
    getByte (integer bytes) (bytes.length - 1 - i) = bytes.getD i 0 := by
  have all := leBytes_ofLe bytes.reverse 0
  rw [Nat.add_zero, List.replicate_zero, List.append_nil, leBytes_eq_map] at all
  have at_i := congrArg (fun l => l.getD (bytes.length - 1 - i) 0) all
  simp only [List.length_reverse] at at_i
  rw [List.getD_eq_getElem _ _ (by simp; omega), List.getD_eq_getElem _ _ (by simp; omega),
    List.getElem_map, List.getElem_range, List.getElem_reverse] at at_i
  rw [integer, at_i, List.getD_eq_getElem _ _ inside]
  congr 1
  omega

end Digits

section Transport

theorem integer_getBytes (t : Nat) :
    integer ((List.range (byteCount t)).reverse.map (getByte t)) = t := by
  rw [integer, List.map_reverse, List.reverse_reverse, ← leBytes_eq_map, ofLe_leBytes]
  exact Nat.mod_eq_of_lt (byteCount_le.mp le_rfl)

/-- An integer of less than 65536 bits is read as it was written, in front of others. -/
theorem decodeints_serializeint {t : Nat} (fits : bitCount t < 65536) (numints : Nat)
    (data : Bytes) : decodeints (numints + 1) (serializeint t ++ data) =
      (decodeints numints data).map fun ⟨ts, rest⟩ => (t :: ts, rest) := by
  have header : ((UInt8.ofNat (bitCount t / 256)).toNat * 256 + (UInt8.ofNat (bitCount t)).toNat + 7)
      / 8 = byteCount t := by
    simp only [UInt8.toNat_ofNat', byteCount]
    omega
  have length : ((List.range (byteCount t)).reverse.map (getByte t)).length = byteCount t := by simp
  rw [serializeint, List.cons_append, List.cons_append, decodeints, header,
    if_neg (by rw [List.length_append, length]; omega), List.take_left' length,
    List.drop_left' length, integer_getBytes]

theorem decodeintarray_serializeint {t : Nat} (fits : bitCount t < 65536) :
    decodeintarray 1 (serializeint t) = some [t] := by
  have read := decodeints_serializeint fits 0 []
  rw [List.append_nil] at read
  rw [decodeintarray, read]
  rfl

/-- The bytes below position `l`, from the most significant one, and zeros after them. -/
def cut (m l numbytes : Nat) : Bytes :=
  (List.range numbytes).map fun j => if j < l then getByte m (l - 1 - j) else 0

/-- The counter of `decrypt` may pass zero: the bytes before that lie past the integer. -/
theorem map_getByte_eq_cut {m l numbytes : Nat} (covers : byteCount m ≤ l) (small : l < 2 ^ 31)
    (few : numbytes < 2 ^ 31) :
    ((List.range numbytes).reverse.map fun i =>
      getByte m (((l + 2 ^ 32 - numbytes) % 2 ^ 32 + i) % 2 ^ 32)) = cut m l numbytes := by
  apply List.ext_getElem
  · simp [cut]
  · intro j inside _
    have bound : j < numbytes := by simpa using inside
    simp only [cut, List.getElem_map, List.getElem_reverse, List.getElem_range, List.length_range]
    by_cases before : j < l
    · rw [if_pos before]
      congr 1
      omega
    · rw [if_neg before, getByte_eq_zero]
      omega

theorem rsadecrypt_rsaencrypt {size : Nat} (key : KeyPair size) {m : Nat}
    (range : m < key.p * key.q)
    (oddP : key.p ≠ 2) (oddQ : key.q ≠ 2) :
    rsadecrypt key.toPrivateKey (rsaencrypt key.publicKey m) =
      if key.q ≤ m ∧ m < key.p then m + key.p * key.q else m := by
  have residueP : powMod (powMod m 17 (key.p * key.q) % key.p) (key.d % (key.p - 1)) key.p
      = m % key.p := by
    rw [powMod_eq, powMod_eq, Nat.mod_mul_right_mod, ← Nat.pow_mod]
    exact pow_reduced key.candidateP.prime oddP (key.inverseE.of_dvd (Nat.dvd_lcm_left _ _)) m
  have residueQ : powMod (powMod m 17 (key.p * key.q) % key.q) (key.d % (key.q - 1)) key.q
      = m % key.q := by
    rw [powMod_eq, powMod_eq, Nat.mod_mul_left_mod, ← Nat.pow_mod]
    exact pow_reduced key.candidateQ.prime oddQ (key.inverseE.of_dvd (Nat.dvd_lcm_right _ _)) m
  rw [rsadecrypt, rsaencrypt, KeyPair.publicKey, residueP, residueQ]
  exact recombine_eq key.inverseP range

end Transport

section Sizes

variable {size p : Nat}

theorem minPrime_sq (large : 48 ≤ size) : 2 ^ (size - 1) ≤ minPrime size * minPrime size := by
  rw [minPrime]
  split
  case isTrue even =>
    have exponent : 2 ^ (size - 1) = 32768 * (2 ^ (size / 2 - 8) * 2 ^ (size / 2 - 8)) := by
      rw [← pow_add, show (32768 : Nat) = 2 ^ 15 from rfl, ← pow_add]
      congr 1
      omega
    rw [exponent]
    nlinarith [Nat.zero_le (2 ^ (size / 2 - 8) * 2 ^ (size / 2 - 8))]
  case isFalse odd =>
    rw [← pow_add]
    apply Nat.pow_le_pow_right (by omega)
    omega

theorem maxPrime_sq (large : 48 ≤ size) : maxPrime size * maxPrime size < 2 ^ size := by
  rw [maxPrime]
  split
  case isTrue even =>
    have exponent : 2 ^ size = 2 ^ (size / 2) * 2 ^ (size / 2) := by
      rw [← pow_add]
      congr 1
      omega
    have positive : 0 < 2 ^ (size / 2) := by positivity
    rw [exponent]
    apply Nat.mul_self_lt_mul_self
    omega
  case isFalse odd =>
    have exponent : 2 ^ size = 32768 * (2 ^ ((size + 1) / 2 - 8) * 2 ^ ((size + 1) / 2 - 8)) := by
      rw [← pow_add, show (32768 : Nat) = 2 ^ 15 from rfl, ← pow_add]
      congr 1
      omega
    have positive : 0 < 2 ^ ((size + 1) / 2 - 8) * 2 ^ ((size + 1) / 2 - 8) := by positivity
    rw [exponent]
    nlinarith

theorem maxPrime_lt (large : 48 ≤ size) : maxPrime size < 2 ^ ((size + 1) / 2) := by
  have positive : 0 < 2 ^ ((size + 1) / 2 - 8) := by positivity
  have exponent : 2 ^ ((size + 1) / 2) = 256 * 2 ^ ((size + 1) / 2 - 8) := by
    rw [show (256 : Nat) = 2 ^ 8 from rfl, ← pow_add]
    congr 1
    omega
  rw [maxPrime]
  split
  case isTrue even =>
    rw [show (size + 1) / 2 = size / 2 by omega] at *
    omega
  case isFalse odd => omega

end Sizes

namespace KeyPair

variable {size : Nat} (key : KeyPair size)

theorem pq_lt (large : 48 ≤ size) : key.p * key.q < 2 ^ size :=
  lt_of_le_of_lt (Nat.mul_le_mul key.candidateP.most key.candidateQ.most) (maxPrime_sq large)

theorem byteCount_pq (large : 48 ≤ size) : byteCount key.publicKey.pq = (size + 7) / 8 := by
  have least : 2 ^ (size - 1) ≤ key.p * key.q :=
    (minPrime_sq large).trans (Nat.mul_le_mul key.candidateP.least key.candidateQ.least)
  have upper : bitCount (key.p * key.q) ≤ size := bitCount_le.mpr (key.pq_lt large)
  have lower : ¬bitCount (key.p * key.q) ≤ size - 1 := by
    rw [bitCount_le]
    omega
  rw [key.publicKey_pq, byteCount]
  omega

/-- A block lies below the modulus. -/
theorem block_lt (large : 48 ≤ size) {block : Bytes}
    (length : block.length = byteCount key.publicKey.pq - 2) : integer block < key.p * key.q := by
  have count := key.byteCount_pq large
  have below : byteCount (integer block) ≤ block.length := byteCount_le.mpr (integer_lt block)
  have whole : block.length < byteCount (key.p * key.q) := by
    rw [key.publicKey_pq] at length count
    omega
  calc integer block < 256 ^ block.length := byteCount_le.mp below
    _ ≤ key.p * key.q := lt_byteCount.mp whole

theorem lt_minPrime (large : 48 ≤ size) : 2 ^ 23 ≤ minPrime size := by
  have sq := minPrime_sq large
  have exponent : 2 ^ 23 * 2 ^ 23 < 2 ^ (size - 1) := by
    rw [← pow_add]
    apply Nat.pow_lt_pow_right (by omega)
    omega
  by_contra less
  have small : minPrime size * minPrime size ≤ 2 ^ 23 * 2 ^ 23 :=
    Nat.mul_le_mul (by omega) (by omega)
  omega

/-- Either prime is too short for the first byte of a block. -/
theorem p_le (large : 48 ≤ size) : key.p < 256 ^ (byteCount key.publicKey.pq - 3) := by
  rw [key.byteCount_pq large, show (256 : Nat) = 2 ^ 8 from rfl, ← pow_mul]
  calc key.p < 2 ^ ((size + 1) / 2) := lt_of_le_of_lt key.candidateP.most (maxPrime_lt large)
    _ ≤ 2 ^ (8 * ((size + 7) / 8 - 3)) := Nat.pow_le_pow_right (by omega) (by omega)

theorem byteCount_d (large : 48 ≤ size) :
    2 ≤ byteCount key.d ∧ byteCount key.d ≤ byteCount key.publicKey.pq := by
  have least := key.candidateP.least
  have leastQ := key.candidateQ.least
  have bound := lt_minPrime large
  have positive : 0 < (key.p - 1).lcm (key.q - 1) := Nat.lcm_pos (by omega) (by omega)
  have atLeast : key.p - 1 ≤ (key.p - 1).lcm (key.q - 1) :=
    Nat.le_of_dvd positive (Nat.dvd_lcm_left _ _)
  have atMost : (key.p - 1).lcm (key.q - 1) ≤ (key.p - 1) * (key.q - 1) :=
    Nat.le_of_dvd (Nat.mul_pos (by omega) (by omega)) (Nat.lcm_dvd_mul _ _)
  constructor
  · have inverse := key.inverseE
    rw [Nat.ModEq, Nat.mod_eq_of_lt (show 1 < (key.p - 1).lcm (key.q - 1) by omega)] at inverse
    have whole : (key.p - 1).lcm (key.q - 1) ≤ 17 * key.d := by
      by_contra less
      rw [Nat.mod_eq_of_lt (by omega)] at inverse
      omega
    apply lt_byteCount.mpr
    omega
  · apply byteCount_le.mpr
    calc key.d < (key.p - 1).lcm (key.q - 1) := key.reducedD
      _ ≤ (key.p - 1) * (key.q - 1) := atMost
      _ ≤ key.p * key.q := Nat.mul_le_mul (Nat.sub_le _ _) (Nat.sub_le _ _)
      _ ≤ 256 ^ byteCount (key.p * key.q) := (byteCount_le.mp le_rfl).le

end KeyPair

section Shift

variable {block : Bytes} {z t len : Nat}

/-- A list whose first `z` bytes are zero moves to the left by `min z t` places: its first
bytes stay the same if nothing moves or they and what moves in are all zero. -/
theorem shifted_iff (zeros : ∀ i < z, block.getD i 0 = 0)
    (next : z < block.length → block.getD z 0 ≠ 0) (some : 0 < len) :
    (∀ j < len, block.getD (j + min z t) 0 = block.getD j 0) ↔
      t = 0 ∨ z = 0 ∨ ∀ i < len + t, block.getD i 0 = 0 := by
  constructor
  · intro same
    by_contra! none
    obtain ⟨moves, leading, i, inside, other⟩ := none
    -- by strong induction every byte up to `len + min z t` is a copy of a leading zero
    have spread : ∀ i < len + min z t, block.getD i 0 = 0 := by
      intro i
      induction i using Nat.strong_induction_on with
      | _ i ih =>
        intro inside
        by_cases first : i < z
        · exact zeros i first
        · have copy := same (i - min z t) (by omega)
          rw [Nat.sub_add_cancel (by omega)] at copy
          rw [copy, ih (i - min z t) (by omega) (by omega)]
    by_cases short : z ≤ t
    · have past : block.length ≤ z := by
        by_contra more
        exact next (by omega) (spread z (by omega))
      by_cases before : i < z
      · exact other (zeros i before)
      · exact other (List.getD_eq_default _ _ (by omega))
    · exact other (spread i (by omega))
  · rintro (none | none | all) j inside
    · rw [none, Nat.min_zero, Nat.add_zero]
    · rw [none, Nat.zero_min, Nat.add_zero]
    · rw [all j (by omega), all (j + min z t) (by omega)]

end Shift

section RoundTrip

variable {size : Nat} (key : KeyPair size) {plain padding : Bytes} {buflen : Nat}

/-- What `rsadecrypt` makes of the ciphertext of `m`. -/
def KeyPair.recovered (m : Nat) : Nat :=
  if key.q ≤ m ∧ m < key.p then m + key.p * key.q else m

theorem byteCount_recovered {m : Nat} (range : m < key.p * key.q) :
    byteCount (key.recovered m) ≤ byteCount key.publicKey.pq + 1 := by
  have product : key.p * key.q < 256 ^ byteCount key.publicKey.pq := byteCount_le.mp le_rfl
  apply byteCount_le.mpr
  rw [pow_succ, KeyPair.recovered]
  split <;> omega

/-- What the recipient gets is cut out of the recovered integer. -/
theorem decrypt_encrypt (large : 48 ≤ size) (fits : size < 65536)
    (length : (plain ++ padding).length = byteCount key.publicKey.pq - 2)
    (room : byteCount key.publicKey.pq + 2 ≤ buflen) :
    ((encrypt key.publicKey plain padding buflen).bind fun c =>
        decrypt key.toPrivateKey c plain.length) =
      some (cut (key.recovered (integer (plain ++ padding)))
        (max (byteCount (key.recovered (integer (plain ++ padding)))) (byteCount key.d - 2))
        plain.length) := by
  have count := key.byteCount_pq large
  have bound := KeyPair.lt_minPrime large
  have leastP := key.candidateP.least
  have leastQ := key.candidateQ.least
  have digits := key.byteCount_d large
  have range := key.block_lt large length
  have cipher : bitCount (rsaencrypt key.publicKey (integer (plain ++ padding))) < 65536 := by
    refine lt_of_le_of_lt (bitCount_le.mpr ?_) fits
    rw [rsaencrypt, powMod_eq]
    exact (Nat.mod_lt _ (lt_of_le_of_lt (Nat.zero_le _) range)).trans (key.pq_lt large)
  have short := byteCount_recovered key range
  have few : plain.length ≤ byteCount key.publicKey.pq - 2 := by
    rw [← length, List.length_append]
    omega
  have least : (byteCount key.d + 2 ^ 32 - 2) % 2 ^ 32 = byteCount key.d - 2 := by omega
  have back : rsadecrypt key.toPrivateKey
      (rsaencrypt key.publicKey (integer (plain ++ padding))) =
        key.recovered (integer (plain ++ padding)) :=
    rsadecrypt_rsaencrypt key range (by omega) (by omega)
  have longer (a b : Nat) : (if a > b then a else b) = max a b := by
    split <;> omega
  rw [encrypt, if_neg (by omega), Option.bind_some, decrypt, decodeintarray_serializeint cipher]
  simp only [back, least, longer]
  rw [map_getByte_eq_cut (le_max_left _ _) (by omega) (by omega)]

theorem cut_eq_iff {m l : Nat} : cut m l plain.length = plain ↔
    ∀ j < plain.length, (if j < l then getByte m (l - 1 - j) else 0) = plain.getD j 0 := by
  constructor
  · intro same j inside
    rw [← congrArg (fun bytes => bytes.getD j 0) same]
    simp [cut, inside]
  · intro same
    apply List.ext_getElem
    · simp [cut]
    · intro j _ inside
      rw [← List.getD_eq_getElem _ 0 inside, ← same j inside]
      simp [cut]

theorem zeros_iff {block : Bytes} {n : Nat} :
    (∀ i < n, block.getD i 0 = 0) ↔ ∀ b ∈ block.take n, b = 0 := by
  constructor
  · intro zeros b taken
    obtain ⟨i, inside, rfl⟩ := List.getElem_of_mem taken
    rw [List.length_take] at inside
    rw [List.getElem_take, ← List.getD_eq_getElem _ 0 (by omega)]
    exact zeros i (by omega)
  · intro zeros i inside
    by_cases past : i < block.length
    · rw [List.getD_eq_getElem _ _ past]
      apply zeros
      rw [List.mem_take_iff_getElem]
      exact ⟨i, by omega, rfl⟩
    · exact List.getD_eq_default _ _ (by omega)

/-- The leading zeros of a block are what its integer is short of. -/
theorem leading_zeros (block : Bytes) :
    (∀ i < block.length - byteCount (integer block), block.getD i 0 = 0) ∧
      (block.length - byteCount (integer block) < block.length →
        block.getD (block.length - byteCount (integer block)) 0 ≠ 0) := by
  have short : byteCount (integer block) ≤ block.length := byteCount_le.mpr (integer_lt block)
  constructor
  · intro i inside
    rw [← getByte_integer block (by omega)]
    exact getByte_eq_zero (by omega)
  · intro inside
    rw [← getByte_integer block inside, Nat.sub_sub, Nat.add_comm, ← Nat.sub_sub,
      Nat.sub_sub_self short]
    exact getByte_top (by omega)

/-- The bytes below the larger of two positions are those of the block, moved to the left. -/
theorem getByte_shift (block : Bytes) (t j : Nat) :
    (if j < max (byteCount (integer block)) (block.length - t) then
      getByte (integer block) (max (byteCount (integer block)) (block.length - t) - 1 - j) else 0) =
      block.getD (j + min (block.length - byteCount (integer block)) t) 0 := by
  have short : byteCount (integer block) ≤ block.length := byteCount_le.mpr (integer_lt block)
  split
  case isTrue inside =>
    rw [← getByte_integer block (by omega)]
    congr 1
    omega
  case isFalse past => rw [List.getD_eq_default _ _ (by omega)]

theorem head_ne_zero_iff (padding : Bytes) (some : plain ≠ []) : plain.head? ≠ .some 0 ↔
    (plain ++ padding).length - byteCount (integer (plain ++ padding)) = 0 := by
  have zeros := leading_zeros (plain ++ padding)
  obtain ⟨b, rest, rfl⟩ := List.exists_cons_of_ne_nil some
  have first : (b :: rest ++ padding).getD 0 0 = b := rfl
  constructor
  · intro nonzero
    by_contra leading
    exact nonzero (congrArg Option.some (first.symm.trans (zeros.1 0 (by omega))))
  · intro none zero
    rw [none, first] at zeros
    exact zeros.2 (by simp) (Option.some.inj zero)

/-- Of an integer past the modulus the recipient gets the wrong first byte. -/
theorem cut_recovered_ne (large : 48 ≤ size) (some : plain ≠ [])
    (length : (plain ++ padding).length = byteCount key.publicKey.pq - 2)
    (between : key.q ≤ integer (plain ++ padding) ∧ integer (plain ++ padding) < key.p) :
    cut (key.recovered (integer (plain ++ padding)))
      (max (byteCount (key.recovered (integer (plain ++ padding)))) (byteCount key.d - 2))
      plain.length ≠ plain := by
  have positive : 0 < plain.length := List.length_pos_iff.mpr some
  have digits := key.byteCount_d large
  have count := key.byteCount_pq large
  have long : byteCount key.publicKey.pq ≤ byteCount (key.recovered (integer (plain ++ padding))) := by
    rw [KeyPair.recovered, if_pos between]
    exact byteCount_le.mpr (lt_of_le_of_lt (Nat.le_add_left _ _) (byteCount_le.mp le_rfl))
  have first : plain.getD 0 0 = 0 := by
    have short : byteCount (integer (plain ++ padding)) ≤ byteCount key.publicKey.pq - 3 :=
      byteCount_le.mpr (between.2.trans (key.p_le large))
    rw [← List.getD_append plain padding 0 0 positive]
    exact (leading_zeros (plain ++ padding)).1 0 (by omega)
  intro same
  have top := cut_eq_iff.mp same 0 positive
  rw [max_eq_left (by omega), if_pos (by omega), first, Nat.sub_zero] at top
  exact getByte_top (by omega) top

/-- The plaintext comes back just if the block is not one to which the recombination adds
the modulus, and nothing is lost at its start: the private exponent is as long as the
modulus, or there is no leading zero byte, or there are only zeros. -/
theorem decrypt_encrypt_iff (large : 48 ≤ size) (fits : size < 65536)
    (length : (plain ++ padding).length = byteCount key.publicKey.pq - 2)
    (room : byteCount key.publicKey.pq + 2 ≤ buflen) :
    ((encrypt key.publicKey plain padding buflen).bind fun c =>
        decrypt key.toPrivateKey c plain.length) = some plain ↔
      plain = [] ∨
        ¬(key.q ≤ integer (plain ++ padding) ∧ integer (plain ++ padding) < key.p) ∧
          (byteCount key.d = byteCount key.publicKey.pq ∨ plain.head? ≠ some 0 ∨
            ∀ b ∈ (plain ++ padding).take
              (plain.length + (byteCount key.publicKey.pq - byteCount key.d)), b = 0) := by
  rw [decrypt_encrypt key large fits length room, Option.some_inj]
  by_cases none : plain = []
  · simp [none, cut]
  by_cases between : key.q ≤ integer (plain ++ padding) ∧ integer (plain ++ padding) < key.p
  · simp [none, between, cut_recovered_ne key large none length between]
  have positive : 0 < plain.length := List.length_pos_iff.mpr none
  have digits := key.byteCount_d large
  have bound := byteCount_le.mpr (integer_lt (plain ++ padding))
  have zeros := leading_zeros (plain ++ padding)
  have least : byteCount key.d - 2 =
      (plain ++ padding).length - (byteCount key.publicKey.pq - byteCount key.d) := by omega
  have equal : byteCount key.d = byteCount key.publicKey.pq ↔
      byteCount key.publicKey.pq - byteCount key.d = 0 := by omega
  rw [KeyPair.recovered, if_neg between, cut_eq_iff, least, equal, ← zeros_iff,
    head_ne_zero_iff padding none]
  simp only [none, between, not_false_eq_true, true_and, false_or]
  rw [← shifted_iff zeros.1 zeros.2 positive]
  apply forall₂_congr
  intro j inside
  rw [getByte_shift, List.getD_append _ _ _ _ inside]

end RoundTrip

section Sample

def smoothSucc (a b c : Nat) : Nat := 2 ^ a * 3 ^ b * 5 ^ c + 1

theorem prime_smoothSucc {a b c : Nat} (g : Nat)
    (order : powMod g (smoothSucc a b c - 1) (smoothSucc a b c) = 1)
    (proper : ∀ r ∈ [2, 3, 5], powMod g ((smoothSucc a b c - 1) / r) (smoothSucc a b c) ≠ 1) :
    (smoothSucc a b c).Prime := by
  have positive : 0 < 2 ^ a * 3 ^ b * 5 ^ c := by positivity
  refine prime_of_generator g [2, 3, 5] (by rw [smoothSucc]; omega) ?_ order proper
  intro r prime divides
  have base {x n : Nat} (primeX : x.Prime) (power : r ∣ x ^ n) : r = x :=
    (Nat.prime_dvd_prime_iff_eq prime primeX).mp (prime.dvd_of_dvd_pow power)
  rw [smoothSucc, Nat.add_sub_cancel] at divides
  rcases prime.dvd_mul.mp divides with both | five
  · rcases prime.dvd_mul.mp both with two | three
    · simp [base Nat.prime_two two]
    · simp [base Nat.prime_three three]
  · simp [base Nat.prime_five five]

def sampleP : Nat := smoothSucc 951 37 6

def sampleQ : Nat := smoothSucc 863 100 1

theorem candidate_sampleP : Candidate 2048 sampleP where
  prime := prime_smoothSucc 17 (by decide +kernel) (by decide +kernel)
  least := by decide +kernel
  most := by decide +kernel
  acceptable := by decide +kernel

theorem candidate_sampleQ : Candidate 2048 sampleQ where
  prime := prime_smoothSucc 22 (by decide +kernel) (by decide +kernel)
  least := by decide +kernel
  most := by decide +kernel
  acceptable := by decide +kernel

/-- A key pair whose primes minus one have a large common divisor, so that the private
exponent is 115 bytes shorter than the modulus. -/
def sampleKey : KeyPair 2048 where
  p := sampleP
  q := sampleQ
  d := (13 * (sampleP - 1).lcm (sampleQ - 1) + 1) / 17
  u := powMod sampleP (sampleQ - 2) sampleQ
  candidateP := candidate_sampleP
  candidateQ := candidate_sampleQ
  distinct := by decide +kernel
  inverseE := by unfold Nat.ModEq; decide +kernel
  reducedD := by decide +kernel
  inverseP := by unfold Nat.ModEq; decide +kernel
  reducedU := by decide +kernel

/-- The leading zero byte is lost: the recipient gets `[1, 2]`. -/
theorem decrypt_leadingZero :
    ((encrypt sampleKey.publicKey [0, 1] (2 :: List.replicate 251 3) 258).bind fun c =>
      decrypt sampleKey.toPrivateKey c 2) ≠ some [0, 1] := by
  decide +kernel

theorem decrypt_encrypt_sample :
    ((encrypt sampleKey.publicKey [1, 0] (2 :: List.replicate 251 3) 258).bind fun c =>
      decrypt sampleKey.toPrivateKey c 2) = some [1, 0] := by
  refine (decrypt_encrypt_iff sampleKey (by decide) (by decide) ?_ ?_).mpr (Or.inr ⟨?_, ?_⟩)
  · decide +kernel
  · decide +kernel
  · decide +kernel
  · exact Or.inr (Or.inl (by decide))

end Sample

end MegaSdk.Crypto
