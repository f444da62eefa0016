import MegaSdk.Types
import Mathlib.Data.List.TakeWhile
import Mathlib.Tactic.IntervalCases

/-!
# Modified base64

base64.cpp: no trailing `=`, and `-_` instead of `+/`. A text ends at its NUL or at
the first character outside the alphabet.
-/

namespace MegaSdk.Base64

/-- `from64`: 255 stands for a character outside the alphabet. -/
def from64 (c : UInt8) : UInt8 :=
  if 65 ≤ c ∧ c ≤ 90 then c - 65
  else if 97 ≤ c ∧ c ≤ 122 then c - 97 + 26
  else if 48 ≤ c ∧ c ≤ 57 then c - 48 + 52
  else if c = 45 then 62
  else if c = 95 then 63
  else 255

/-- Groups of four characters, as long as there is room in the target. -/
def atobFrom : Nat → Bytes → Nat → Bytes
  | 0, _, _ => []
  | fuel + 1, a, room =>
    let c := ((a.take 4).map from64).takeWhile (· ≠ 255)
    -- the character that ended a group counts as 255
    let c0 := c.getD 0 255
    let c1 := c.getD 1 255
    let c2 := c.getD 2 255
    let c3 := c.getD 3 255
    if room = 0 ∨ c.length = 0 then []
    else (c0 <<< 2 ||| (c1 &&& 0x30) >>> 4) ::
      if room = 1 ∨ c.length < 3 then []
      else (c1 <<< 4 ||| (c2 &&& 0x3c) >>> 2) ::
        if room = 2 ∨ c.length < 4 then []
        else (c2 <<< 6 ||| c3) :: atobFrom fuel (a.drop 4) (room - 3)

/-- `atob`: the decoded bytes, at most `blen` of them. -/
def atob (a : Bytes) (blen : Nat) : Bytes := atobFrom (blen + 1) a blen

/-- The characters of a group end at the first one outside the alphabet. -/
theorem group_append {rest : Bytes} (stop : from64 (rest.headD 0) = 255) (a : Bytes) (n : Nat) :
    (((a ++ rest).take n).map from64).takeWhile (· ≠ 255) =
      ((a.take n).map from64).takeWhile (· ≠ 255) := by
  induction a generalizing n with
  | nil =>
    cases n with
    | zero => rfl
    | succ n =>
      cases rest with
      | nil => rfl
      | cons c rest =>
        have ended : from64 c = 255 := stop
        simp [ended]
  | cons c a ih =>
    cases n with
    | zero => rfl
    | succ n =>
      rw [List.cons_append, List.take_succ_cons, List.take_succ_cons, List.map_cons,
        List.map_cons, List.takeWhile_cons, List.takeWhile_cons, ih]

theorem atobFrom_append {rest : Bytes} (stop : from64 (rest.headD 0) = 255) (fuel : Nat)
    (a : Bytes) (room : Nat) : atobFrom fuel (a ++ rest) room = atobFrom fuel a room := by
  induction fuel generalizing a room with
  | zero => rfl
  | succ fuel ih =>
    simp only [atobFrom, group_append stop]
    -- only a complete group is followed by another one
    by_cases complete : 4 ≤ a.length
    · rw [List.drop_append_of_le_length complete, ih]
    · have short : (((a.take 4).map from64).takeWhile (· ≠ 255)).length < 4 := by
        have bound := (@List.takeWhile_prefix _ ((a.take 4).map from64)
          fun c => decide (c ≠ 255)).length_le
        simp only [List.length_map, List.length_take] at bound
        omega
      simp only [short, or_true, if_true]

/-- The text after a character outside the alphabet does not count. -/
theorem atob_append {rest : Bytes} (stop : from64 (rest.headD 0) = 255) (a : Bytes)
    (blen : Nat) : atob (a ++ rest) blen = atob a blen :=
  atobFrom_append stop (blen + 1) a blen

def to64 (c : UInt8) : UInt8 :=
  let c := c &&& 63
  if c < 26 then c + 65
  else if c < 52 then c - 26 + 97
  else if c < 62 then c - 52 + 48
  else if c = 62 then 45
  else 95

/-- `btoa`, without the final NUL. -/
def btoa : Bytes → Bytes
  | [] => []
  | [a] => [to64 (a >>> 2), to64 (a <<< 4)]
  | [a, b] => [to64 (a >>> 2), to64 (a <<< 4 ||| b >>> 4), to64 (b <<< 2)]
  | a :: b :: c :: rest =>
    to64 (a >>> 2) :: to64 (a <<< 4 ||| b >>> 4) :: to64 (b <<< 2 ||| c >>> 6) :: to64 c ::
      btoa rest

/-- The text has characters of the alphabet only. -/
theorem mem_btoa {c : UInt8} {b : Bytes} (mem : c ∈ btoa b) : ∃ d, c = to64 d := by
  induction b using btoa.induct with
  | case1 => cases mem
  | case2 a =>
    simp only [btoa, List.mem_cons, List.not_mem_nil, or_false] at mem
    rcases mem with rfl | rfl <;> exact ⟨_, rfl⟩
  | case3 a b =>
    simp only [btoa, List.mem_cons, List.not_mem_nil, or_false] at mem
    rcases mem with rfl | rfl | rfl <;> exact ⟨_, rfl⟩
  | case4 a b c rest ih =>
    simp only [btoa, List.mem_cons] at mem
    rcases mem with rfl | rfl | rfl | rfl | mem
    all_goals first | exact ih mem | exact ⟨_, rfl⟩

theorem from64_to64 : ∀ c : UInt8, from64 (to64 c) = c &&& 63 :=
  forall_byte (by decide +kernel)

theorem sextet_ne : ∀ c : UInt8, c &&& 63 ≠ 255 := forall_byte (by decide +kernel)

theorem first_byte (a b : UInt8) :
    (a >>> 2 &&& 63) <<< 2 ||| ((a <<< 4 ||| b >>> 4) &&& 63 &&& 0x30) >>> 4 = a := by
  apply UInt8.toBitVec_inj.mp
  apply BitVec.eq_of_getLsbD_eq
  intro i low
  interval_cases i <;> simp

theorem second_byte (a b c : UInt8) :
    ((a <<< 4 ||| b >>> 4) &&& 63) <<< 4 |||
      ((b <<< 2 ||| c >>> 6) &&& 63 &&& 0x3c) >>> 2 = b := by
  apply UInt8.toBitVec_inj.mp
  apply BitVec.eq_of_getLsbD_eq
  intro i low
  interval_cases i <;> simp

theorem third_byte (b c : UInt8) :
    ((b <<< 2 ||| c >>> 6) &&& 63) <<< 6 ||| (c &&& 63) = c := by
  apply UInt8.toBitVec_inj.mp
  apply BitVec.eq_of_getLsbD_eq
  intro i low
  interval_cases i <;> simp

/-- The characters of an encoded group are those of the alphabet. -/
theorem group_to64 (sextets : Bytes) :
    ((sextets.map to64).map from64).takeWhile (· ≠ 255) = sextets.map (· &&& 63) := by
  have values : (sextets.map to64).map from64 = sextets.map (· &&& 63) := by
    rw [List.map_map]
    exact List.map_congr_left fun c _ => from64_to64 c
  rw [values, List.takeWhile_eq_self_iff]
  intro c mem
  obtain ⟨d, -, rfl⟩ := List.mem_map.mp mem
  exact decide_eq_true (sextet_ne d)

/-- A buffer with room for the bytes gets them back. -/
theorem atobFrom_btoa (b : Bytes) {fuel room : Nat} (enough : b.length < fuel)
    (fits : b.length ≤ room) : atobFrom fuel (btoa b) room = b := by
  induction b using btoa.induct generalizing fuel room with
  | case1 =>
    obtain ⟨fuel, rfl⟩ : ∃ f, fuel = f + 1 := ⟨fuel - 1, by omega⟩
    simp [btoa, atobFrom]
  | case2 a =>
    obtain ⟨fuel, rfl⟩ : ∃ f, fuel = f + 1 := ⟨fuel - 1, by omega⟩
    obtain ⟨room, rfl⟩ : ∃ r, room = r + 1 := ⟨room - 1, by simp at fits; omega⟩
    have group : (((btoa [a]).take 4).map from64).takeWhile (· ≠ 255) = _ :=
      group_to64 [a >>> 2, a <<< 4]
    have first : (a >>> 2 &&& 63) <<< 2 ||| (a <<< 4 &&& 63 &&& 48) >>> 4 = a := by
      simpa using first_byte a 0
    simp only [atobFrom, group]
    simp [first]
  | case3 a b =>
    obtain ⟨fuel, rfl⟩ : ∃ f, fuel = f + 1 := ⟨fuel - 1, by omega⟩
    obtain ⟨room, rfl⟩ : ∃ r, room = r + 2 := ⟨room - 2, by simp at fits; omega⟩
    have group : (((btoa [a, b]).take 4).map from64).takeWhile (· ≠ 255) = _ :=
      group_to64 [a >>> 2, a <<< 4 ||| b >>> 4, b <<< 2]
    have second : ((a <<< 4 ||| b >>> 4) &&& 63) <<< 4 ||| (b <<< 2 &&& 63 &&& 60) >>> 2 = b := by
      simpa using second_byte a b 0
    simp only [atobFrom, group]
    simp [first_byte, second]
  | case4 a b c rest ih =>
    obtain ⟨fuel, rfl⟩ : ∃ f, fuel = f + 1 := ⟨fuel - 1, by omega⟩
    obtain ⟨room, rfl⟩ : ∃ r, room = r + 3 := ⟨room - 3, by simp at fits; omega⟩
    have group : (((btoa (a :: b :: c :: rest)).take 4).map from64).takeWhile (· ≠ 255) = _ :=
      group_to64 [a >>> 2, a <<< 4 ||| b >>> 4, b <<< 2 ||| c >>> 6, c]
    have more : atobFrom fuel (btoa rest) room = rest := by
      simp only [List.length_cons] at enough fits
      exact ih (by omega) (by omega)
    simp only [atobFrom, group]
    simp [first_byte, second_byte, third_byte, btoa, more]

theorem atob_btoa (b : Bytes) {blen : Nat} (fits : b.length ≤ blen) : atob (btoa b) blen = b :=
  atobFrom_btoa b (by omega) fits

/-- The estimate of the decoded size that callers make is enough. -/
theorem length_le_btoa (b : Bytes) : b.length ≤ (btoa b).length * 3 / 4 := by
  induction b using btoa.induct with
  | case1 => simp
  | case2 a => simp [btoa]
  | case3 a b => simp [btoa]
  | case4 a b c rest ih =>
    simp only [btoa, List.length_cons]
    omega

example : atob (ascii "AQID-w!") 8 = [1, 2, 3, 251] := by decide

end MegaSdk.Base64
