import MegaSdk.Xfer.Chunks
import Mathlib.Order.Monotone.Basic

/-!
# Chunk boundaries

`ChunkedHash::chunkfloor` and `ChunkedHash::chunkceil` on 64-bit file positions, and the
sequence of boundaries that the documentation of the file encryption lists. Signed arithmetic
that leaves the range of `m_off_t` has no result.
-/

namespace MegaSdk.Xfer

/-- The documented boundaries: chunks grow by a segment up to eight of them. -/
def boundary : Nat → Nat
  | 0 => 0
  | n + 1 => boundary n + min (n + 1) 8 * segSize

-- 0, 128K, 384K, 768K, 1280K, 1920K, 2688K, 3584K, 4608K, ... (every 1024 KB)
example : (List.range 11).map boundary =
    [0, 128, 384, 768, 1280, 1920, 2688, 3584, 4608, 5632, 6656].map (1024 * ·) := by decide

/-- A position, if `m_off_t` can hold it. -/
def representable (position : Nat) : Option Int :=
  if position < 9223372036854775808 then some position else none

def plus (a b : Int64) : Option Int64 :=
  if -9223372036854775808 ≤ a.toInt + b.toInt ∧ a.toInt + b.toInt < 9223372036854775808 then
    some (a + b)
  else none

def minus (a b : Int64) : Option Int64 :=
  if -9223372036854775808 ≤ a.toInt - b.toInt ∧ a.toInt - b.toInt < 9223372036854775808 then
    some (a - b)
  else none

/-- `i * SEGSIZE` for an unsigned `i`. -/
def segments (i : UInt32) : Int64 := (i * 131072).toUInt64.toInt64

/-- `(p - cp) & -(8 * SEGSIZE)`. -/
def alignedOffset (p cp : Int64) : Option Int64 :=
  (minus p cp).map fun offset => offset &&& -(8 * 131072)

/-- The loop of `chunkfloor` from one of the values of `i` on. -/
def floorLoop (p : Int64) : List UInt32 → Int64 → Option Int64
  | [], cp => (alignedOffset p cp).bind fun offset => plus offset cp
  | i :: more, cp =>
    (plus cp (segments i)).bind fun np =>
      if p ≥ cp ∧ p < np then some cp else floorLoop p more np

def chunkfloor (p : Int64) : Option Int64 := floorLoop p [1, 2, 3, 4, 5, 6, 7, 8] 0

/-- The loop of `chunkceil` from one of the values of `i` on. -/
def ceilLoop (p : Int64) : List UInt32 → Int64 → Option Int64
  | [], cp =>
    (alignedOffset p cp).bind fun offset =>
      (plus offset cp).bind fun start => plus start (8 * 131072)
  | i :: more, cp =>
    (plus cp (segments i)).bind fun np =>
      if p ≥ cp ∧ p < np then some np else ceilLoop p more np

def chunkceil (p : Int64) : Option Int64 := ceilLoop p [1, 2, 3, 4, 5, 6, 7, 8] 0

/-- `chunkceil` applied again and again, from 0. -/
def ceilings : Nat → Option Int64
  | 0 => some 0
  | n + 1 => (ceilings n).bind chunkceil

theorem boundary_strictMono : StrictMono boundary := by
  apply strictMono_nat_of_lt_succ
  intro n
  rw [boundary, segSize]
  omega

/-- Behind the growing chunks there is a boundary every eight segments. -/
theorem boundary_eight_add (n : Nat) : boundary (8 + n) = boundary 8 + n * (8 * segSize) := by
  induction n with
  | zero => rw [Nat.add_zero, Nat.zero_mul, Nat.add_zero]
  | succ n ih =>
    have size : min (8 + n + 1) 8 = 8 := by omega
    rw [← Nat.add_assoc, boundary, ih, size, Nat.succ_mul n, Nat.add_assoc]

def InChunk (n p : Nat) : Prop := boundary n ≤ p ∧ p < boundary (n + 1)

theorem InChunk.unique {n m p : Nat} (first : InChunk n p) (second : InChunk m p) : n = m := by
  have low := boundary_strictMono.lt_iff_lt.mp (Nat.lt_of_le_of_lt first.1 second.2)
  have high := boundary_strictMono.lt_iff_lt.mp (Nat.lt_of_le_of_lt second.1 first.2)
  omega

theorem inChunk_boundary (n : Nat) : InChunk n (boundary n) :=
  ⟨Nat.le_refl _, boundary_strictMono (Nat.lt_succ_self n)⟩

/-- The loop of `chunkfloor`, on naturals. -/
def chunkFloorFrom (p : Nat) : List Nat → Nat → Nat
  | [], cp => (p - cp) / (8 * segSize) * (8 * segSize) + cp
  | i :: rest, cp =>
    let np := cp + i * segSize
    if p ≥ cp ∧ p < np then cp else chunkFloorFrom p rest np

/-- Start of the chunk that holds position `p`. -/
def chunkFloor (p : Nat) : Nat := chunkFloorFrom p [1, 2, 3, 4, 5, 6, 7, 8] 0

/-- From chunk `k` on, both loops find the chunk of the position. -/
theorem loops_spec {p k more : Nat} (sizes : k + more = 8) (start : boundary k ≤ p) :
    ∃ n, InChunk n p ∧ chunkFloorFrom p (List.range' (k + 1) more) (boundary k) = boundary n ∧
      chunkCeilFrom p (List.range' (k + 1) more) (boundary k) = boundary (n + 1) := by
  induction more generalizing k with
  | zero =>
    obtain rfl : k = 8 := by omega
    obtain ⟨n, quotient⟩ : ∃ n, (p - boundary 8) / (8 * segSize) = n := ⟨_, rfl⟩
    have low := boundary_eight_add n
    have high := boundary_eight_add (n + 1)
    have whole := Nat.div_add_mod' (p - boundary 8) (8 * segSize)
    have less := Nat.mod_lt (p - boundary 8) (show 0 < 8 * segSize by decide)
    rw [quotient] at whole
    rw [Nat.succ_mul n, ← Nat.add_assoc] at high
    rw [List.range'_zero, chunkFloorFrom, chunkCeilFrom, quotient]
    refine ⟨8 + n, ⟨?_, ?_⟩, ?_, ?_⟩
    · omega
    · rw [high]
      omega
    · rw [low, Nat.add_comm]
    · rw [high, Nat.add_comm (n * _), Nat.add_assoc]
  | succ more ih =>
    have next : boundary (k + 1) = boundary k + (k + 1) * segSize := by
      rw [boundary, Nat.min_eq_left (by omega)]
    rw [List.range'_succ, chunkFloorFrom, chunkCeilFrom, ← next]
    by_cases inside : p < boundary (k + 1)
    · rw [if_pos ⟨start, inside⟩, if_pos ⟨start, inside⟩]
      exact ⟨k, ⟨start, inside⟩, rfl, rfl⟩
    · rw [if_neg fun here => inside here.2, if_neg fun here => inside here.2]
      exact ih (by omega) (Nat.le_of_not_lt inside)

theorem chunkFloor_chunkCeil_spec (p : Nat) :
    ∃ n, InChunk n p ∧ chunkFloor p = boundary n ∧ chunkCeil p = boundary (n + 1) :=
  loops_spec (Nat.zero_add 8) (Nat.zero_le p)

theorem chunkFloor_boundary (n : Nat) : chunkFloor (boundary n) = boundary n := by
  obtain ⟨m, holds, floor, -⟩ := chunkFloor_chunkCeil_spec (boundary n)
  rw [floor, holds.unique (inChunk_boundary n)]

theorem chunkCeil_boundary (n : Nat) : chunkCeil (boundary n) = boundary (n + 1) := by
  obtain ⟨m, holds, -, ceil⟩ := chunkFloor_chunkCeil_spec (boundary n)
  rw [ceil, holds.unique (inChunk_boundary n)]

/-- A mask without its `k` low bits rounds down to a multiple of `2 ^ k`. -/
theorem and_highMask {x k w : Nat} (low : k ≤ w) (fits : x < 2 ^ w) :
    x &&& (2 ^ w - 2 ^ k) = x / 2 ^ k * 2 ^ k := by
  have mask : 2 ^ w - 2 ^ k = (2 ^ (w - k) - 1) <<< k := by
    rw [Nat.shiftLeft_eq, Nat.sub_mul, ← Nat.pow_add, Nat.sub_add_cancel low, Nat.one_mul]
  rw [mask, ← Nat.shiftRight_eq_div_pow, ← Nat.shiftLeft_eq]
  apply Nat.eq_of_testBit_eq
  intro i
  rw [Nat.testBit_and, Nat.testBit_shiftLeft, Nat.testBit_shiftLeft, Nat.testBit_shiftRight,
    Nat.testBit_two_pow_sub_one]
  by_cases above : i ≥ k
  · rw [Nat.add_sub_cancel' above]
    by_cases inside : i < w
    · simp [above, show i - k < w - k by omega]
    · have small : x < 2 ^ i :=
        Nat.lt_of_lt_of_le fits (Nat.pow_le_pow_right (by decide) (Nat.le_of_not_lt inside))
      rw [Nat.testBit_lt_two_pow small]
      simp
  · simp [above]

/-- What the source's mask leaves of an offset that is not negative. -/
theorem toInt_and_mask {x : Int64} {n : Nat} (value : x.toInt = n) :
    (x &&& -(8 * 131072)).toInt = (n / 1048576 * 1048576 : Nat) := by
  have small := x.toBitVec.isLt
  have word : x.toBitVec.toNat = n := by
    have cond := BitVec.toInt_eq_toNat_cond x.toBitVec
    rw [Int64.toInt_toBitVec, value] at cond
    split at cond <;> omega
  have below : n < 9223372036854775808 := by
    have bound := x.toInt_lt
    omega
  have mask : (-(8 * 131072) : Int64).toBitVec.toNat = 2 ^ 64 - 2 ^ 20 := by decide
  have masked : (x &&& -(8 * 131072)).toBitVec.toNat = n / 1048576 * 1048576 := by
    rw [Int64.toBitVec_and, BitVec.toNat_and, word, mask]
    exact and_highMask (by decide) (by omega)
  rw [← Int64.toInt_toBitVec, BitVec.toInt_eq_toNat_of_lt, masked]
  rw [masked]
  omega

section Machine
variable {a b p cp : Int64} {start position : Nat}

theorem plus_of_lt (first : 0 ≤ a.toInt) (second : 0 ≤ b.toInt)
    (fits : a.toInt + b.toInt < 9223372036854775808) :
    plus a b = some (a + b) ∧ (a + b).toInt = a.toInt + b.toInt := by
  rw [plus, if_pos ⟨by omega, fits⟩, Int64.toInt_add]
  exact ⟨rfl, Int.bmod_eq_of_le (by omega) (by omega)⟩

theorem minus_of_le (first : 0 ≤ b.toInt) (order : b.toInt ≤ a.toInt) :
    minus a b = some (a - b) ∧ (a - b).toInt = a.toInt - b.toInt := by
  have bound := a.toInt_lt
  rw [minus, if_pos ⟨by omega, by omega⟩, Int64.toInt_sub]
  exact ⟨rfl, Int.bmod_eq_of_le (by omega) (by omega)⟩

theorem toInt_segments {i : UInt32} (small : i.toNat ≤ 8) :
    (segments i).toInt = (i.toNat * segSize : Nat) := by
  have each : ∀ k < 9, (segments (UInt32.ofNat k)).toInt = (k * segSize : Nat) := by decide
  have value := each i.toNat (Nat.lt_succ_of_le small)
  rwa [UInt32.ofNat_toNat] at value

theorem alignedOffset_eq (value : p.toInt = position) (low : cp.toInt = start)
    (order : start ≤ position) : ∃ offset, alignedOffset p cp = some offset ∧
      offset.toInt = ((position - start) / (8 * segSize) * (8 * segSize) : Nat) := by
  obtain ⟨some, difference⟩ := minus_of_le (a := p) (b := cp) (by omega) (by omega)
  have offset : (p - cp).toInt = (position - start : Nat) := by omega
  rw [alignedOffset, some, Option.map_some]
  exact ⟨_, rfl, toInt_and_mask offset⟩

/-- The bounds of one more chunk, as long as they are far from the limit. -/
theorem plus_segments {i : UInt32} (small : i.toNat ≤ 8) (low : cp.toInt = start)
    (far : start + 1048576 < 9223372036854775808) : ∃ np, plus cp (segments i) = some np ∧
      np.toInt = (start + i.toNat * segSize : Nat) := by
  have size := toInt_segments small
  have bound : i.toNat * segSize ≤ 8 * segSize := Nat.mul_le_mul_right _ small
  have unit : 8 * segSize = 1048576 := by decide
  obtain ⟨some, sum⟩ := plus_of_lt (a := cp) (b := segments i) (by omega) (by omega) (by omega)
  exact ⟨_, some, by omega⟩

theorem inside_iff {np : Int64} {stop : Nat} (value : p.toInt = position) (low : cp.toInt = start)
    (high : np.toInt = stop) : (p ≥ cp ∧ p < np) ↔ (position ≥ start ∧ position < stop) := by
  rw [ge_iff_le, Int64.le_iff_toInt_le, Int64.lt_iff_toInt_lt]
  omega

/-- A sum of positions that are not negative, unless it leaves the range. -/
theorem map_plus (first : a.toInt = start) (second : b.toInt = position) :
    (plus a b).map Int64.toInt = representable (start + position) := by
  rw [representable]
  by_cases fits : start + position < 9223372036854775808
  · obtain ⟨some, sum⟩ := plus_of_lt (a := a) (b := b) (by omega) (by omega) (by omega)
    rw [if_pos fits, some, Option.map_some, sum, first, second, Int.natCast_add]
  · rw [if_neg fits, plus, if_neg (by omega), Option.map_none]

/-- On 64-bit positions the loops do what they do on naturals, until the end of the chunk leaves
the range. -/
theorem loops_eq (value : p.toInt = position) {is : List UInt32}
    (small : ∀ i ∈ is, i.toNat ≤ 8) (low : cp.toInt = start) (order : start ≤ position)
    (far : start + is.length * 1048576 < 9223372036854775808) :
    (floorLoop p is cp).map Int64.toInt =
      some (chunkFloorFrom position (is.map UInt32.toNat) start : Int) ∧
    (ceilLoop p is cp).map Int64.toInt =
      representable (chunkCeilFrom position (is.map UInt32.toNat) start) := by
  induction is generalizing cp start with
  | nil =>
    obtain ⟨offset, some, aligned⟩ := alignedOffset_eq value low order
    have below := Nat.div_mul_le_self (position - start) (8 * segSize)
    have limit := p.toInt_lt
    obtain ⟨added, sum⟩ := plus_of_lt (a := offset) (b := cp) (by omega) (by omega) (by omega)
    rw [aligned, low, ← Int.natCast_add] at sum
    rw [floorLoop, ceilLoop, some, Option.bind_some, Option.bind_some, added, Option.bind_some,
      Option.map_some, List.map_nil, chunkFloorFrom, chunkCeilFrom]
    exact ⟨congrArg Option.some sum, map_plus sum rfl⟩
  | cons i is ih =>
    simp only [List.length_cons] at far
    have near : start + 1048576 < 9223372036854775808 := by omega
    have size : i.toNat * segSize ≤ 8 * segSize :=
      Nat.mul_le_mul_right _ (small i List.mem_cons_self)
    have unit : 8 * segSize = 1048576 := by decide
    obtain ⟨np, some, next⟩ := plus_segments (small i List.mem_cons_self) low near
    have test := inside_iff value low next
    rw [floorLoop, ceilLoop, some, Option.bind_some, Option.bind_some, List.map_cons,
      chunkFloorFrom, chunkCeilFrom]
    by_cases inside : position ≥ start ∧ position < start + i.toNat * segSize
    · rw [if_pos (test.mpr inside), if_pos (test.mpr inside), if_pos inside, if_pos inside,
        representable, if_pos (by omega), Option.map_some, Option.map_some, low, next]
      exact ⟨rfl, rfl⟩
    · rw [if_neg (mt test.mp inside), if_neg (mt test.mp inside), if_neg inside, if_neg inside]
      have rest : start + i.toNat * segSize + is.length * 1048576 < 9223372036854775808 := by omega
      exact ih (fun j mem => small j (List.mem_cons_of_mem _ mem)) next (by omega) rest

theorem chunkfloor_chunkceil_eq (value : p.toInt = position) :
    (chunkfloor p).map Int64.toInt = some (chunkFloor position : Int) ∧
    (chunkceil p).map Int64.toInt = representable (chunkCeil position) := by
  have small : ∀ i ∈ ([1, 2, 3, 4, 5, 6, 7, 8] : List UInt32), i.toNat ≤ 8 := by simp
  have zero : (0 : Int64).toInt = (0 : Nat) := rfl
  exact loops_eq value small zero (Nat.zero_le _) (by decide)

theorem eq_some_of_map {x : Option Int64} (held : x.map Int64.toInt = representable position)
    (fits : position < 9223372036854775808) : ∃ c, x = some c ∧ c.toInt = position := by
  rw [representable, if_pos fits, Option.map_eq_some_iff] at held
  exact held

/-- An end of a chunk is the start of the next one. -/
theorem chunkfloor_chunkceil (value : p.toInt = position) :
    (chunkceil p).bind chunkfloor = chunkceil p := by
  obtain ⟨n, -, -, ceil⟩ := chunkFloor_chunkCeil_spec position
  have stop := (chunkfloor_chunkceil_eq value).2
  rw [ceil] at stop
  cases ended : chunkceil p with
  | none => rfl
  | some c =>
    rw [ended, Option.map_some, representable] at stop
    split at stop
    · have here := Option.some.inj stop
      have start := (chunkfloor_chunkceil_eq here).1
      rw [chunkFloor_boundary, ← here, Option.map_eq_some_iff] at start
      obtain ⟨f, floor, same⟩ := start
      rw [Option.bind_some, floor, Int64.toInt_inj.mp same]
    · cases stop

/-- The iteration from 0 finds one boundary after the other. -/
theorem ceilings_eq (n : Nat) : (ceilings n).map Int64.toInt = representable (boundary n) := by
  induction n with
  | zero => rfl
  | succ n ih =>
    rw [ceilings]
    by_cases fits : boundary n < 9223372036854775808
    · obtain ⟨c, reached, value⟩ := eq_some_of_map ih fits
      rw [reached, Option.bind_some, (chunkfloor_chunkceil_eq value).2, chunkCeil_boundary]
    · have later : boundary n < boundary (n + 1) := boundary_strictMono (Nat.lt_succ_self n)
      rw [representable, if_neg fits, Option.map_eq_none_iff] at ih
      rw [ih, representable, if_neg (by omega)]
      rfl

end Machine

/-- The chunk of a position lies between two boundaries that follow each other, and the iteration
of `chunkceil` from 0 runs through all of them, up to the end of the range. -/
theorem chunk_between_boundaries {p : Int64} (nonneg : 0 ≤ p) :
    (∃ n : Nat, (chunkfloor p).map Int64.toInt = some (boundary n : Int) ∧
      (chunkceil p).map Int64.toInt = representable (boundary (n + 1)) ∧
      boundary n ≤ p.toInt ∧ p.toInt < boundary (n + 1)) ∧
    (chunkceil p).bind chunkfloor = chunkceil p ∧
    ∀ n, (ceilings n).map Int64.toInt = representable (boundary n) := by
  obtain ⟨position, value⟩ := Int.eq_ofNat_of_zero_le (Int64.le_iff_toInt_le.mp nonneg)
  obtain ⟨n, ⟨low, high⟩, floor, ceil⟩ := chunkFloor_chunkCeil_spec position
  obtain ⟨started, ended⟩ := chunkfloor_chunkceil_eq value
  rw [floor] at started
  rw [ceil] at ended
  exact ⟨⟨n, started, ended, by omega, by omega⟩, chunkfloor_chunkceil value, ceilings_eq⟩

theorem chunk_between_boundaries_200000 :
    (∃ n : Nat, (chunkfloor 200000).map Int64.toInt = some (boundary n : Int) ∧
      (chunkceil 200000).map Int64.toInt = representable (boundary (n + 1)) ∧
      boundary n ≤ (200000 : Int64).toInt ∧ (200000 : Int64).toInt < boundary (n + 1)) ∧
    (chunkceil 200000).bind chunkfloor = chunkceil 200000 ∧
    ∀ n, (ceilings n).map Int64.toInt = representable (boundary n) :=
  chunk_between_boundaries (by decide)

end MegaSdk.Xfer
