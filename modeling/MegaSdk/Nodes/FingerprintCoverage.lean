import MegaSdk.Nodes.FingerprintReads

/-!
# What a fingerprint covers

The four ranges of a small file are the file, and the 128 blocks of a large one reach from its
first byte to its last. The offsets are computed in 64 bits, of which the product of a size and a
block number needs all.
-/

namespace MegaSdk.FileFingerprint

theorem toNat_toUInt64 {size : Int64} (positive : 0 ≤ size.toInt) :
    (size.toUInt64.toNat : Int) = size.toInt := by
  have sign : 0 ≤ size := Int64.le_iff_toInt_le.mpr positive
  rw [Int64.toNat_toUInt64_of_le sign, Int64.toInt_eq_toNatClampNeg sign]

/-- A small unsigned value is the same as a signed one. -/
theorem toInt_toInt64 {x : UInt64} (small : x.toNat < 2 ^ 63) : x.toInt64.toInt = x.toNat := by
  have value : x.toInt64.toInt = (x.toNat : Int).bmod (2 ^ 64) :=
    BitVec.toInt_eq_toNat_bmod x.toBitVec
  rw [value, Int.bmod]
  omega

theorem cuts_mono {f : Nat → Int} {n i j : Nat} (ordered : ∀ i < n, f i ≤ f (i + 1)) (le : i ≤ j)
    (inside : j ≤ n) : f i ≤ f j := by
  induction j, le using Nat.le_induction with
  | base => exact Int.le_refl _
  | succ j _ ih => exact (ih (by omega)).trans (ordered j (by omega))

/-- Between the first and the last of some ordered cuts, every point is in one part. -/
theorem existsUnique_part {f : Nat → Int} {n : Nat} (ordered : ∀ i < n, f i ≤ f (i + 1)) {x : Int}
    (low : f 0 ≤ x) (high : x < f n) : ∃! i, i < n ∧ f i ≤ x ∧ x < f (i + 1) := by
  have here : ∃ i < n, f i ≤ x ∧ x < f (i + 1) := by
    induction n with
    | zero => exact absurd high (Int.not_lt.mpr low)
    | succ n ih =>
      by_cases before : x < f n
      · obtain ⟨i, inside, part⟩ := ih (fun i inside => ordered i (by omega)) before
        exact ⟨i, by omega, part⟩
      · exact ⟨n, Nat.lt_succ_self n, Int.not_lt.mp before, high⟩
  obtain ⟨i, inside, above, below⟩ := here
  refine ⟨i, ⟨inside, above, below⟩, ?_⟩
  rintro j ⟨inside', above', below'⟩
  rcases Nat.lt_trichotomy j i with less | same | more
  · have cut : f (j + 1) ≤ f i := cuts_mono ordered less (by omega)
    omega
  · exact same
  · have cut : f (i + 1) ≤ f j := cuts_mono ordered more (by omega)
    omega

/-- The beginning of a range, computed without overflow. -/
theorem toInt_rangeStart {size : Int64} (positive : 0 ≤ size.toInt) (small : size.toInt ≤ 8192)
    {i : Nat} (inside : i ≤ 4) :
    (rangeStart size (UInt32.ofNat i)).toInt = i * size.toInt / 4 := by
  obtain ⟨n, value⟩ : ∃ n : Nat, size.toInt = n := ⟨size.toInt.toNat, by omega⟩
  have bits : size.toUInt64.toNat = n := by
    have := toNat_toUInt64 positive
    omega
  have index : (UInt32.ofNat i).toUInt64.toNat = i := by simp; omega
  have product : ((UInt32.ofNat i).toUInt64.toInt64 * size).toUInt64.toNat = i * n := by
    rw [Int64.toUInt64_mul, UInt64.toUInt64_toInt64, UInt64.toNat_mul, index, bits]
    have : i * n ≤ 4 * 8192 := Nat.mul_le_mul inside (by omega)
    omega
  have bound : i * n / 4 ≤ 8192 := by
    have : i * n ≤ 4 * 8192 := Nat.mul_le_mul inside (by omega)
    omega
  have quotient : (((UInt32.ofNat i).toUInt64.toInt64 * size).toUInt64 / 4).toNat = i * n / 4 := by
    rw [UInt64.toNat_div, product]
    rfl
  rw [rangeStart, Int64.toInt_toInt32, toInt_toInt64 (by omega), quotient, value,
    Int.bmod_eq_of_le (by omega) (by omega)]
  exact Int.natCast_ediv (i * n) 4

/-- Parts between ordered cuts, put together again. -/
theorem flatMap_slice (buf : Bytes) {f : Nat → Int} {n : Nat} (start : f 0 = 0)
    (ordered : ∀ i < n, f i ≤ f (i + 1)) :
    (List.range n).flatMap (fun i => slice buf (f i) (f (i + 1))) = buf.take (f n).toNat := by
  induction n with
  | zero => simp [start]
  | succ n ih =>
    have before : 0 ≤ f n := by
      rw [← start]
      exact cuts_mono ordered (Nat.zero_le n) (Nat.le_succ n)
    have step := ordered n (Nat.lt_succ_self n)
    have total : (f (n + 1)).toNat = (f n).toNat + (f (n + 1) - f n).toNat := by omega
    rw [List.range_succ, List.flatMap_append, ih fun i inside => ordered i (by omega),
      List.flatMap_singleton, slice, total, List.take_add]

/-- The four ranges of a small file lie one behind the other, every byte of the file is in exactly
one of them, and together they are the file. -/
structure Quartered (size : Int64) : Prop where
  first : rangeStart size 0 = 0
  last : (rangeStart size 4).toInt = size.toInt
  ordered : ∀ i < 4, (rangeStart size (UInt32.ofNat i)).toInt ≤
    (rangeStart size (UInt32.ofNat i + 1)).toInt
  once : ∀ x : Int, 0 ≤ x → x < size.toInt →
    ∃! i, i < 4 ∧ (rangeStart size (UInt32.ofNat i)).toInt ≤ x ∧
      x < (rangeStart size (UInt32.ofNat i + 1)).toInt
  whole : ∀ buf : Bytes, buf.length = size.toInt → ((List.range 4).flatMap fun i =>
    slice buf (rangeStart size (UInt32.ofNat i)).toInt
      (rangeStart size (UInt32.ofNat i + 1)).toInt) = buf

theorem ofNat_succ (i : Nat) : UInt32.ofNat i + 1 = UInt32.ofNat (i + 1) := by
  simp

theorem quartered {size : Int64} (positive : 0 ≤ size.toInt) (small : size.toInt ≤ 8192) :
    Quartered size := by
  have start : ∀ i ≤ 4, (rangeStart size (UInt32.ofNat i)).toInt = i * size.toInt / 4 :=
    fun i => toInt_rangeStart positive small
  have ordered : ∀ i < 4, (rangeStart size (UInt32.ofNat i)).toInt ≤
      (rangeStart size (UInt32.ofNat (i + 1))).toInt := by
    intro i inside
    rw [start i (by omega), start (i + 1) (by omega)]
    refine Int.ediv_le_ediv (by decide) (Int.mul_le_mul_of_nonneg_right ?_ positive)
    omega
  refine ⟨?first, ?last, ?ordered, ?once, ?whole⟩
  case first =>
    have zero := start 0 (by decide)
    exact Int32.toInt_inj.mp (by simpa using zero)
  case last =>
    have four := start 4 (by decide)
    rw [show UInt32.ofNat 4 = 4 from rfl] at four
    omega
  case ordered =>
    intro i inside
    rw [ofNat_succ]
    exact ordered i inside
  case once =>
    intro x low high
    simp only [ofNat_succ]
    refine existsUnique_part ordered ?_ ?_
    · rw [start 0 (by decide)]
      simpa using low
    · rw [start 4 (by decide)]
      omega
  case whole =>
    intro buf length
    simp only [ofNat_succ]
    have zero : (rangeStart size (UInt32.ofNat 0)).toInt = 0 := by
      rw [start 0 (by decide)]
      simp
    rw [flatMap_slice buf zero ordered, start 4 (by decide)]
    exact List.take_of_length_le (by omega)

/-- Where block `k` of 128 begins, without a bound on the integers. -/
def offsetOf (size : Int) (k : Nat) : Int := (size - 64) * k / 127

/-- The offsets of the blocks of checksum `i`. -/
def sparseReads (size : Int64) (i : Nat) : List Int64 := (List.range 32).map (blockAt size i)

def allReads (size : Int64) : List Int64 := (List.range 4).flatMap (sparseReads size)

/-- The product of the size and a block number fits into 64 bits. -/
theorem toInt_blockOffset {size : Int64} (large : 8192 < size.toInt) (bounded : size.toInt < 2 ^ 57)
    {i j : Nat} (checksum : i < 4) (block : j < 32) :
    (blockOffset size (UInt32.ofNat i) (UInt32.ofNat j)).toInt =
      offsetOf size.toInt (i * 32 + j) := by
  obtain ⟨n, value⟩ : ∃ n : Nat, size.toInt = n + 64 := ⟨(size.toInt - 64).toNat, by omega⟩
  have bits : (size.toUInt64 - 64).toNat = n := by
    have whole : (size.toUInt64.toNat : Int) = size.toInt := toNat_toUInt64 (by omega)
    rw [UInt64.toNat_sub_of_le _ _ (UInt64.le_iff_toNat_le.mpr ?_)]
    · change size.toUInt64.toNat - 64 = n
      omega
    · change 64 ≤ size.toUInt64.toNat
      omega
  have number : (UInt32.ofNat i * 32 + UInt32.ofNat j).toUInt64.toNat = i * 32 + j := by
    simp
    omega
  have room : n * (i * 32 + j) ≤ n * 127 := Nat.mul_le_mul_left n (by omega)
  have product : ((size.toUInt64 - 64) * (UInt32.ofNat i * 32 + UInt32.ofNat j).toUInt64).toNat =
      n * (i * 32 + j) := by
    rw [UInt64.toNat_mul, bits, number, Nat.mod_eq_of_lt (by omega)]
  have quotient : ((size.toUInt64 - 64) * (UInt32.ofNat i * 32 + UInt32.ofNat j).toUInt64 / 127).toNat =
      n * (i * 32 + j) / 127 := by
    rw [UInt64.toNat_div, product]
    rfl
  rw [blockOffset, toInt_toInt64 (by omega), quotient, offsetOf, value, Int.natCast_ediv,
    Int.natCast_mul]
  congr 2
  omega

theorem range_blocks :
    (List.range 4).flatMap (fun i => (List.range 32).map fun j => i * 32 + j) = List.range 128 := by
  decide

theorem map_toInt_allReads {size : Int64} (large : 8192 < size.toInt)
    (bounded : size.toInt < 2 ^ 57) :
    (allReads size).map Int64.toInt = (List.range 128).map (offsetOf size.toInt) := by
  rw [← range_blocks, allReads, List.map_flatMap, List.map_flatMap]
  refine List.flatMap_congr fun i checksum => ?_
  rw [sparseReads, List.map_map, List.map_map]
  refine List.map_congr_left fun j block => ?_
  exact toInt_blockOffset large bounded (List.mem_range.mp checksum) (List.mem_range.mp block)

theorem offsetOf_mono {size : Int} (large : 8192 < size) {k l : Nat} (le : k ≤ l) :
    offsetOf size k ≤ offsetOf size l :=
  Int.ediv_le_ediv (by decide) (Int.mul_le_mul_of_nonneg_left (by omega) (by omega))

theorem offsetOf_last (size : Int) : offsetOf size 127 = size - 64 := by
  rw [offsetOf]
  omega

/-- The 128 reads of a large file: computed as without overflow, inside the file, in order, from
its first byte to its last. -/
structure Sampled (size : Int64) : Prop where
  count : (allReads size).length = 128
  exact : ∀ i < 4, ∀ j < 32, (blockOffset size (UInt32.ofNat i) (UInt32.ofNat j)).toInt =
    (size.toInt - 64) * (i * 32 + j : Nat) / 127
  unwrapped : (size.toInt - 64) * 127 < 2 ^ 64
  inside : ∀ o ∈ allReads size, 0 ≤ o.toInt ∧ o.toInt + 64 ≤ size.toInt
  ordered : (allReads size).Pairwise fun o o' => o.toInt ≤ o'.toInt
  first : ((allReads size).map Int64.toInt).head? = some 0
  last : ((allReads size).map fun o => o.toInt + 64).getLast? = some size.toInt

theorem sampled {size : Int64} (large : 8192 < size.toInt) (bounded : size.toInt < 2 ^ 57) :
    Sampled size := by
  have values := map_toInt_allReads large bounded
  refine ⟨?count, ?exact, by omega, ?inside, ?ordered, ?first, ?last⟩
  case count =>
    have lengths := congrArg List.length values
    simpa using lengths
  case exact =>
    intro i checksum j block
    exact toInt_blockOffset large bounded checksum block
  case inside =>
    intro o mem
    have listed := List.mem_map_of_mem (f := Int64.toInt) mem
    rw [values] at listed
    obtain ⟨k, inside, eq⟩ := List.mem_map.mp listed
    have low := offsetOf_mono large (Nat.zero_le k)
    have high := offsetOf_mono large (Nat.le_of_lt_succ (List.mem_range.mp inside))
    rw [offsetOf_last] at high
    rw [← eq]
    refine ⟨?_, by omega⟩
    simpa [offsetOf] using low
  case ordered =>
    rw [← List.pairwise_map (f := Int64.toInt) (R := (· ≤ ·)), values, List.pairwise_map]
    exact List.pairwise_lt_range.imp fun less => offsetOf_mono large (Nat.le_of_lt less)
  case first =>
    have head : (List.range 128).head? = some 0 := by decide
    rw [values, List.head?_map, head]
    simp [offsetOf]
  case last =>
    have shifted := congrArg (List.map (· + 64)) values
    rw [List.map_map, List.map_map] at shifted
    change ((allReads size).map ((· + 64) ∘ Int64.toInt)).getLast? = _
    rw [shifted, List.getLast?_map]
    have last := offsetOf_last size.toInt
    simp [last, List.getLast?_range]

/-- The blocks of one checksum among all reads. -/
theorem take_allReads (size : Int64) {i : Nat} (checksum : i < 4) :
    ((allReads size).drop (32 * i)).take 32 = sparseReads size i := by
  have length : ∀ i, (sparseReads size i).length = 32 := fun i => by simp [sparseReads]
  have blocks : allReads size =
      sparseReads size 0 ++ sparseReads size 1 ++ sparseReads size 2 ++ sparseReads size 3 := by
    simp [allReads, List.range_succ]
  have behind : ∀ i n, 32 ≤ n → (sparseReads size i).drop n = [] :=
    fun i n le => List.drop_eq_nil_of_le ((length i).symm ▸ le)
  have whole : ∀ i, (sparseReads size i).take 32 = sparseReads size i :=
    fun i => List.take_of_length_le (Nat.le_of_eq (length i))
  obtain rfl | rfl | rfl | rfl : i = 0 ∨ i = 1 ∨ i = 2 ∨ i = 3 := by omega
  all_goals simp [blocks, List.drop_append, length, behind, whole]

/-- The fingerprint of a small file: its one read is hashed in four ranges, or fails. -/
structure HashesRanges (crc32 : Bytes → UInt32) (fa : LocalFile) (answers : ℕ → Answers)
    (result : FileFingerprint) : Prop where
  fails : ¬Succeeds fa (answers 0) → result.size = -1
  size : Succeeds fa (answers 0) → result.size = fa.size.toInt
  crc : Succeeds fa (answers 0) → ∀ i : Fin 4, result.crc.get i =
    htonl (crc32 (slice (fa.bytes fa.size.toNatClampNeg 0)
      (rangeStart fa.size (UInt32.ofNat i)).toInt (rangeStart fa.size (UInt32.ofNat i + 1)).toInt))

/-- The fingerprint of a large file: 32 of its reads go into each checksum, or one fails. -/
structure HashesBlocks (crc32 : Bytes → UInt32) (fa : LocalFile) (answers : ℕ → Answers)
    (result : FileFingerprint) : Prop where
  fails : (∃ k < 128, ¬Succeeds fa (answers k)) → result.size = -1
  size : (∀ k < 128, Succeeds fa (answers k)) → result.size = fa.size.toInt
  crc : (∀ k < 128, Succeeds fa (answers k)) → ∀ i : Fin 4, result.crc.get i =
    htonl (crc32 ((((allReads fa.size).drop (32 * i)).take 32).flatMap (fa.bytes 64)))

section Checksums

variable {crc32 : Bytes → UInt32} {fa : LocalFile} {answers : ℕ → Answers}

theorem hashesRanges (newcrc : Bytes) (large : 16 < fa.size) (small : fa.size ≤ 8192)
    (f : FileFingerprint) (ignoremtime : Bool) :
    HashesRanges crc32 fa answers (generate crc32 newcrc fa answers f ignoremtime).1 := by
  have read := @readCrc_eq crc32 fa answers newcrc large
  have one : readCount fa.size = 1 := if_pos small
  have ranges : digest crc32 fa.size fa.bytes =
      smallCrc crc32 fa.size (fa.bytes fa.size.toNatClampNeg 0) := by
    rw [digest, if_neg (Int64.not_le.mpr large), if_pos small]
  simp only [one, Nat.lt_one_iff, forall_eq] at read
  constructor
  · intro fails
    exact (generate_none (read.trans (if_neg fails)) f ignoremtime).2
  · intro succeeds
    rw [generate_some (read.trans (if_pos succeeds))]
  · intro succeeds i
    rw [generate_some (read.trans (if_pos succeeds)), ranges]
    exact Vector.getElem_ofFn i.isLt

theorem hashesBlocks (newcrc : Bytes) (large : 8192 < fa.size) (f : FileFingerprint)
    (ignoremtime : Bool) :
    HashesBlocks crc32 fa answers (generate crc32 newcrc fa answers f ignoremtime).1 := by
  have notTiny : 16 < fa.size := Int64.lt_trans (by decide) large
  have read := @readCrc_eq crc32 fa answers newcrc notTiny
  have many : readCount fa.size = 128 := if_neg (Int64.not_le.mpr large)
  have blocks : digest crc32 fa.size fa.bytes = largeCrc crc32
      ((List.range 4).map fun i => (List.range 32).map fun j => fa.bytes 64 (blockAt fa.size i j)) := by
    rw [digest, if_neg (Int64.not_le.mpr notTiny), if_neg (Int64.not_le.mpr large)]
  rw [many] at read
  constructor
  · rintro ⟨k, inside, fails⟩
    exact (generate_none (read.trans (if_neg fun all => fails (all k inside))) f ignoremtime).2
  · intro all
    rw [generate_some (read.trans (if_pos all))]
  · intro all i
    have entry : (largeCrc crc32 ((List.range 4).map fun i =>
        (List.range 32).map fun j => fa.bytes 64 (blockAt fa.size i j)))[i] =
          htonl (crc32 ((List.range 32).map fun j => fa.bytes 64 (blockAt fa.size i j)).flatten) := by
      simp [largeCrc]
    rw [generate_some (read.trans (if_pos all)), blocks, take_allReads fa.size i.isLt, sparseReads,
      List.flatMap_map]
    exact entry

end Checksums

/-- What `genfingerprint` reads and hashes of a file of more than 16 bytes. -/
theorem genfingerprint_covers (crc32 : Bytes → UInt32) (newcrc : Bytes) (fa : LocalFile)
    (answers : ℕ → Answers) (f : FileFingerprint) (ignoremtime : Bool) :
    (17 ≤ fa.size.toInt ∧ fa.size.toInt ≤ 8192 → Quartered fa.size ∧
      HashesRanges crc32 fa answers (generate crc32 newcrc fa answers f ignoremtime).1) ∧
    (8192 < fa.size.toInt ∧ fa.size.toInt < 2 ^ 57 → Sampled fa.size ∧
      HashesBlocks crc32 fa answers (generate crc32 newcrc fa answers f ignoremtime).1) := by
  constructor
  · rintro ⟨large, small⟩
    have above : 16 < fa.size := Int64.lt_iff_toInt_lt.mpr (Int.lt_of_add_one_le large)
    have below : fa.size ≤ 8192 := Int64.le_iff_toInt_le.mpr small
    exact ⟨quartered (by omega) small, hashesRanges newcrc above below f ignoremtime⟩
  · rintro ⟨large, bounded⟩
    have above : 8192 < fa.size := Int64.lt_iff_toInt_lt.mpr large
    exact ⟨sampled large bounded, hashesBlocks newcrc above f ignoremtime⟩

/-- A file of this size that consists of one letter, and is not opened by its name. -/
def letterFile (size : Int64) (sized : 0 ≤ size) : LocalFile :=
  ⟨false, 0, size, fun len _ => List.replicate len 97, sized⟩

/-- The smallest file that is hashed in ranges, and the largest one whose offsets are covered. -/
theorem genfingerprint_covers_limits :
    let answers : ℕ → Answers := fun _ => ⟨none, true, true⟩
    let f : FileFingerprint := ⟨0, 0, Vector.replicate 4 0, false⟩
    let small := letterFile 17 (by decide)
    let large := letterFile (Int64.ofInt (2 ^ 57 - 1)) (by decide)
    (Quartered 17 ∧ HashesRanges (fun _ => 7) small answers
      (generate (fun _ => 7) [] small answers f false).1) ∧
    Sampled (Int64.ofInt (2 ^ 57 - 1)) ∧ HashesBlocks (fun _ => 7) large answers
      (generate (fun _ => 7) [] large answers f false).1 :=
  ⟨(genfingerprint_covers (fun _ => 7) [] (letterFile 17 (by decide)) _ _ false).1 (by decide),
    (genfingerprint_covers (fun _ => 7) [] (letterFile (Int64.ofInt (2 ^ 57 - 1)) (by decide)) _ _
      false).2 (by decide)⟩

end MegaSdk.FileFingerprint
