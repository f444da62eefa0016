import MegaSdk.Base64
import MegaSdk.Lib.RecordReader

/-!
# Base64 on buffers

`Base64::atob` and `Base64::btoa` as they run: `atob` moves its pointer one character for each
one that it reads, and keeps four values from one group to the next; `btoa` counts its characters
in an int. A read past the end of the text is wild, and an overflow has no result.
-/

namespace MegaSdk.Base64

open RecordReader

/-- The array `c`, which is not initialised but for its last element. -/
abbrev Quad := Vector UInt8 4

/-- The loop over `i`, from one of its values on: the array, the value of `i` behind the loop, and
the pointer. -/
def readGroup (c : Quad) : List (Fin 4) → Bytes → Read ((Quad × Nat) × Bytes)
  | [], a => .ok ((c, 4), a)
  | _ :: _, [] => .wild
  | i :: more, x :: a =>
    let c := c.set i (from64 x)
    if from64 x = 255 then .ok ((c, i), a) else readGroup c more a

/-- What `atob` leaves: the bytes it wrote, the position it returns, and the text that it has not
read. -/
structure Decoded where
  bytes : Bytes
  p : Nat
  a : Bytes
  deriving DecidableEq

/-- The endless loop of `atob`, for at most `rounds` groups. -/
def atobGroups (blen : Nat) : Nat → Quad → Bytes → Nat → Read Decoded
  | 0, _, _, _ => .wild
  | rounds + 1, c, a, p =>
    (readGroup c [0, 1, 2, 3] a).bind fun ((c, i), a) =>
      if p ≥ blen ∨ i = 0 then .ok ⟨[], p, a⟩
      else
        let first := c.get 0 <<< 2 ||| (c.get 1 &&& 0x30) >>> 4
        let p := p + 1
        if p ≥ blen ∨ i < 3 then .ok ⟨[first], p, a⟩
        else
          let second := c.get 1 <<< 4 ||| (c.get 2 &&& 0x3c) >>> 2
          let p := p + 1
          if p ≥ blen ∨ i < 4 then .ok ⟨[first, second], p, a⟩
          else
            let third := c.get 2 <<< 6 ||| c.get 3
            (atobGroups blen rounds c a (p + 1)).bind fun rest =>
              .ok { rest with bytes := first :: second :: third :: rest.bytes }

/-- `atob`, on whatever the array holds at first. -/
def atobBuffer (c : Quad) (a : Bytes) (blen : Nat) : Read Decoded :=
  atobGroups blen (blen + 1) (c.set 3 0) a 0

/-- `a[p++] = c`, for an int `p`. -/
def put (c : UInt8) (p : Nat) (next : Nat → Option (Bytes × Nat)) : Option (Bytes × Nat) :=
  if p + 1 < 2147483648 then (next (p + 1)).map fun (text, q) => (c :: text, q) else none

/-- `btoa` from position `p` on: the characters with the final NUL, and the position it returns. -/
def btoaFrom : Bytes → Nat → Option (Bytes × Nat)
  | [], p => some ([0], p)
  | [x], p => put (to64 (x >>> 2)) p fun p => put (to64 (x <<< 4)) p fun p => some ([0], p)
  | [x, y], p =>
    put (to64 (x >>> 2)) p fun p =>
      put (to64 (x <<< 4 ||| y >>> 4)) p fun p => put (to64 (y <<< 2)) p fun p => some ([0], p)
  | x :: y :: z :: rest, p =>
    put (to64 (x >>> 2)) p fun p =>
      put (to64 (x <<< 4 ||| y >>> 4)) p fun p =>
        put (to64 (y <<< 2 ||| z >>> 6)) p fun p => put (to64 z) p fun p => btoaFrom rest p

def btoaBuffer (b : Bytes) : Option (Bytes × Nat) := btoaFrom b 0

/-- Three bytes take four characters, one or two at the end take one more than they are. -/
theorem length_btoa (b : Bytes) : (btoa b).length = (4 * b.length + 2) / 3 := by
  induction b using btoa.induct with
  | case1 => simp [btoa]
  | case2 x => simp [btoa]
  | case3 x y => simp [btoa]
  | case4 x y z rest ih =>
    simp only [btoa, List.length_cons, ih]
    omega

/-- The text has characters of the alphabet only. -/
theorem from64_ne_of_mem_btoa {b : Bytes} {c : UInt8} (mem : c ∈ btoa b) : from64 c ≠ 255 := by
  obtain ⟨d, rfl⟩ := mem_btoa mem
  rw [from64_to64]
  exact sextet_ne d

section Put
variable {c : UInt8} {p q : Nat} {text : Bytes} {next : Nat → Option (Bytes × Nat)}

theorem put_eq_some (fits : p + 1 < 2147483648) (rest : next (p + 1) = some (text, q)) :
    put c p next = some (c :: text, q) := by
  rw [put, if_pos fits, rest, Option.map_some]

theorem fits_of_put {result : Bytes × Nat} (done : put c p next = some result) :
    p + 1 < 2147483648 ∧ ∃ rest, next (p + 1) = some rest := by
  rw [put] at done
  split at done
  · rename_i fits
    obtain ⟨rest, more, -⟩ := Option.map_eq_some_iff.mp done
    exact ⟨fits, rest, more⟩
  · cases done

end Put

/-- The text of `btoa` and a NUL are written, if an int reaches the end of the text. -/
theorem btoaFrom_eq_some {b : Bytes} {p : Nat} (fits : p + (btoa b).length < 2147483648) :
    btoaFrom b p = some (btoa b ++ [0], p + (btoa b).length) := by
  induction b using btoa.induct generalizing p with
  | case1 => simp [btoa, btoaFrom]
  | case2 x =>
    simp only [btoa, List.length_cons, List.length_nil] at fits ⊢
    rw [btoaFrom]
    exact put_eq_some (by omega) (put_eq_some (by omega) rfl)
  | case3 x y =>
    simp only [btoa, List.length_cons, List.length_nil] at fits ⊢
    rw [btoaFrom]
    exact put_eq_some (by omega) (put_eq_some (by omega) (put_eq_some (by omega) rfl))
  | case4 x y z rest ih =>
    simp only [btoa, List.length_cons] at fits ⊢
    have last : p + 1 + 1 + 1 + 1 + (btoa rest).length =
        p + ((btoa rest).length + 1 + 1 + 1 + 1) := by omega
    have more := ih (last ▸ fits)
    rw [last] at more
    rw [btoaFrom]
    exact put_eq_some (by omega) (put_eq_some (by omega)
      (put_eq_some (by omega) (put_eq_some (by omega) more)))

theorem fits_of_btoaFrom {b : Bytes} {p : Nat} (inside : p < 2147483648) {result : Bytes × Nat}
    (done : btoaFrom b p = some result) : p + (btoa b).length < 2147483648 := by
  induction b using btoa.induct generalizing p result with
  | case1 => simpa [btoa] using inside
  | case2 x =>
    rw [btoaFrom] at done
    obtain ⟨-, _, done⟩ := fits_of_put done
    obtain ⟨fits, -⟩ := fits_of_put done
    simp only [btoa, List.length_cons, List.length_nil]
    omega
  | case3 x y =>
    rw [btoaFrom] at done
    obtain ⟨-, _, done⟩ := fits_of_put done
    obtain ⟨-, _, done⟩ := fits_of_put done
    obtain ⟨fits, -⟩ := fits_of_put done
    simp only [btoa, List.length_cons, List.length_nil]
    omega
  | case4 x y z rest ih =>
    rw [btoaFrom] at done
    obtain ⟨-, _, done⟩ := fits_of_put done
    obtain ⟨-, _, done⟩ := fits_of_put done
    obtain ⟨-, _, done⟩ := fits_of_put done
    obtain ⟨fits, _, done⟩ := fits_of_put done
    have more := ih fits done
    simp only [btoa, List.length_cons]
    omega

theorem btoaBuffer_isSome_iff (b : Bytes) :
    (∃ result, btoaBuffer b = some result) ↔ b.length < 1610612736 := by
  have length := length_btoa b
  constructor
  · rintro ⟨result, done⟩
    have fits := fits_of_btoaFrom (by decide) done
    omega
  · intro short
    exact ⟨_, btoaFrom_eq_some (by omega)⟩

@[simp] theorem get_eq_getElem (values : Quad) (i : Fin 4) : values.get i = values[i.val] := rfl

theorem readGroup_letter {c : Quad} {i : Fin 4} {x : UInt8} (letter : from64 x ≠ 255)
    (more : List (Fin 4)) (a : Bytes) :
    readGroup c (i :: more) (x :: a) = readGroup (c.set i (from64 x)) more a := by
  rw [readGroup]
  exact if_neg letter

theorem readGroup_stop {c : Quad} {i : Fin 4} {x : UInt8} (stop : from64 x = 255)
    (more : List (Fin 4)) (a : Bytes) :
    readGroup c (i :: more) (x :: a) = .ok ((c.set i 255, i), a) := by
  rw [readGroup, ← stop]
  exact if_pos rfl

@[simp] theorem val_three : ((3 : Fin 4) : Nat) = 3 := rfl

section Group
variable {blen rounds p : Nat} {c : Quad} {u rest a : Bytes} {x y0 y1 y2 y3 : UInt8}

/-- A group that the text ends in is the last one. -/
theorem atobGroups_last (letters : ∀ y ∈ u, from64 y ≠ 255) (incomplete : u.length < 4)
    (stop : from64 x = 255) :
    atobGroups blen (rounds + 1) c (u ++ x :: rest) p =
      .ok ⟨atobFrom (rounds + 1) u (blen - p),
        p + (atobFrom (rounds + 1) u (blen - p)).length, rest⟩ := by
  rcases u with _ | ⟨y0, _ | ⟨y1, _ | ⟨y2, _ | ⟨y3, u⟩⟩⟩⟩
  · rw [atobGroups, List.nil_append, readGroup_stop stop]
    simp [atobFrom]
  · have letter0 := letters y0 (by simp)
    rw [atobGroups, List.cons_append, readGroup_letter letter0, List.nil_append,
      readGroup_stop stop]
    by_cases full : p ≥ blen
    · simp [atobFrom, full, show blen - p = 0 by omega]
    · simp [atobFrom, full, letter0, show ¬blen - p = 0 by omega]
  · have letter0 := letters y0 (by simp)
    have letter1 := letters y1 (by simp)
    rw [atobGroups, List.cons_append, readGroup_letter letter0, List.cons_append,
      readGroup_letter letter1, List.nil_append, readGroup_stop stop]
    by_cases full : p ≥ blen
    · simp [atobFrom, full, show blen - p = 0 by omega]
    · simp [atobFrom, full, letter0, letter1, show ¬blen - p = 0 by omega]
  · have letter0 := letters y0 (by simp)
    have letter1 := letters y1 (by simp)
    have letter2 := letters y2 (by simp)
    rw [atobGroups, List.cons_append, readGroup_letter letter0, List.cons_append,
      readGroup_letter letter1, List.cons_append, readGroup_letter letter2, List.nil_append,
      readGroup_stop stop]
    by_cases full : p ≥ blen
    · simp [atobFrom, full, show blen - p = 0 by omega]
    by_cases one : p + 1 ≥ blen
    · simp [atobFrom, full, one, letter0, letter1, letter2, show blen - p = 1 by omega]
    · simp [atobFrom, full, one, letter0, letter1, letter2,
        show ¬blen - p = 0 by omega, show ¬blen - p = 1 by omega]
  · simp only [List.length_cons] at incomplete
    omega

variable (letter0 : from64 y0 ≠ 255) (letter1 : from64 y1 ≠ 255) (letter2 : from64 y2 ≠ 255)
  (letter3 : from64 y3 ≠ 255)
include letter0 letter1 letter2 letter3

theorem readGroup_letters :
    readGroup c [0, 1, 2, 3] (y0 :: y1 :: y2 :: y3 :: a) =
      .ok (((((c.set 0 (from64 y0)).set 1 (from64 y1)).set 2 (from64 y2)).set 3 (from64 y3), 4),
        a) := by
  rw [readGroup_letter letter0, readGroup_letter letter1, readGroup_letter letter2,
    readGroup_letter letter3, readGroup]
  rfl

/-- A group of four characters that there is no room for behind is the last one. -/
theorem atobGroups_cut (cut : blen < p + 3) :
    atobGroups blen (rounds + 1) c (y0 :: y1 :: y2 :: y3 :: a) p =
      .ok ⟨atobFrom (rounds + 1) (y0 :: y1 :: y2 :: y3 :: u) (blen - p),
        p + (atobFrom (rounds + 1) (y0 :: y1 :: y2 :: y3 :: u) (blen - p)).length, a⟩ := by
  rw [atobGroups, readGroup_letters letter0 letter1 letter2 letter3]
  by_cases full : p ≥ blen
  · simp [atobFrom, full, show blen - p = 0 by omega]
  by_cases one : p + 1 ≥ blen
  · simp [atobFrom, full, one, letter0, letter1, letter2, letter3, show blen - p = 1 by omega]
  have two : p + 2 ≥ blen := by omega
  simp [atobFrom, full, one, two, letter0, letter1, letter2, letter3, show blen - p = 2 by omega]

/-- Four characters become three bytes. -/
theorem atobGroups_group (room : p + 3 ≤ blen) {unread : Bytes}
    (more : atobGroups blen rounds
        ((((c.set 0 (from64 y0)).set 1 (from64 y1)).set 2 (from64 y2)).set 3 (from64 y3)) a
        (p + 3) =
      .ok ⟨atobFrom rounds u (blen - (p + 3)),
        p + 3 + (atobFrom rounds u (blen - (p + 3))).length, unread⟩) :
    atobGroups blen (rounds + 1) c (y0 :: y1 :: y2 :: y3 :: a) p =
      .ok ⟨atobFrom (rounds + 1) (y0 :: y1 :: y2 :: y3 :: u) (blen - p),
        p + (atobFrom (rounds + 1) (y0 :: y1 :: y2 :: y3 :: u) (blen - p)).length, unread⟩ := by
  have full : ¬p ≥ blen := by omega
  have one : ¬p + 1 ≥ blen := by omega
  have two : ¬p + 2 ≥ blen := by omega
  have behind : blen - (p + 3) = blen - p - 3 := by omega
  have whole : atobFrom (rounds + 1) (y0 :: y1 :: y2 :: y3 :: u) (blen - p) =
      (from64 y0 <<< 2 ||| (from64 y1 &&& 0x30) >>> 4) ::
        (from64 y1 <<< 4 ||| (from64 y2 &&& 0x3c) >>> 2) ::
          (from64 y2 <<< 6 ||| from64 y3) :: atobFrom rounds u (blen - p - 3) := by
    simp [atobFrom, letter0, letter1, letter2, letter3, show ¬blen - p = 0 by omega,
      show ¬blen - p = 1 by omega, show ¬blen - p = 2 by omega]
  have last : p + 3 + (atobFrom rounds u (blen - p - 3)).length =
      p + ((atobFrom rounds u (blen - p - 3)).length + 1 + 1 + 1) := by omega
  rw [behind, last] at more
  rw [whole, atobGroups, readGroup_letters letter0 letter1 letter2 letter3]
  simp [full, one, two, more]

end Group

/-- Before the text ends at a character outside the alphabet, `atob` reads that character at most,
and it writes what the decoder on texts yields. -/
theorem atobGroups_eq {blen rounds p : Nat} {c : Quad} {u rest : Bytes} {x : UInt8}
    (letters : ∀ y ∈ u, from64 y ≠ 255) (stop : from64 x = 255) (start : p ≤ blen)
    (enough : blen < rounds + p) :
    ∃ unread, atobGroups blen rounds c (u ++ x :: rest) p =
        .ok ⟨atobFrom rounds u (blen - p), p + (atobFrom rounds u (blen - p)).length, unread⟩ ∧
      rest <:+ unread := by
  induction rounds generalizing c u p with
  | zero => omega
  | succ rounds ih =>
    by_cases incomplete : u.length < 4
    · exact ⟨rest, atobGroups_last letters incomplete stop, List.suffix_refl rest⟩
    · obtain ⟨y0, y1, y2, y3, v, rfl⟩ : ∃ y0 y1 y2 y3 v, u = y0 :: y1 :: y2 :: y3 :: v := by
        rcases u with _ | ⟨y0, _ | ⟨y1, _ | ⟨y2, _ | ⟨y3, v⟩⟩⟩⟩ <;> simp at incomplete ⊢
      have letter0 := letters y0 (by simp)
      have letter1 := letters y1 (by simp)
      have letter2 := letters y2 (by simp)
      have letter3 := letters y3 (by simp)
      by_cases room : p + 3 ≤ blen
      · have others : ∀ y ∈ v, from64 y ≠ 255 := fun y mem => letters y (by simp [mem])
        obtain ⟨unread, more, kept⟩ := ih
          (c := (((c.set 0 (from64 y0)).set 1 (from64 y1)).set 2 (from64 y2)).set 3 (from64 y3))
          others room (show blen < rounds + (p + 3) by omega)
        exact ⟨unread, atobGroups_group letter0 letter1 letter2 letter3 room more, kept⟩
      · have behind : rest <:+ v ++ x :: rest := ⟨v ++ [x], by simp⟩
        exact ⟨v ++ x :: rest,
          atobGroups_cut letter0 letter1 letter2 letter3 (Nat.lt_of_not_le room), behind⟩

/-- A shorter buffer gets the beginning of what a longer one gets. -/
theorem atobFrom_take (fuel : Nat) (a : Bytes) (room more : Nat) :
    atobFrom fuel a room = (atobFrom fuel a (room + more)).take room := by
  induction fuel generalizing a room with
  | zero => rw [atobFrom, atobFrom, List.take_nil]
  | succ fuel ih =>
    rw [atobFrom, atobFrom]
    generalize ((a.take 4).map from64).takeWhile (· ≠ 255) = group
    rcases room with _ | _ | _ | room
    · simp
    · by_cases none : group.length = 0
      · simp [none]
      · simp [none]
    · by_cases none : group.length = 0
      · simp [none]
      by_cases short : group.length < 3
      · simp [none, short]
      · simp [none, short, show ¬2 + more = 1 by omega]
    · by_cases none : group.length = 0
      · simp [none]
      by_cases short : group.length < 3
      · simp [none, short]
      by_cases incomplete : group.length < 4
      · simp [none, short, incomplete, show ¬room + 3 + more = 1 by omega]
      · have room3 : room + 1 + 1 + 1 + more - 3 = room + more := by omega
        simp [none, short, incomplete, ih (a.drop 4) room, room3,
          show ¬room + 3 + more = 1 by omega, show ¬room + 3 + more = 2 by omega]

/-- Rounds that the buffer has no room for do not matter. -/
theorem atobFrom_fuel {fuel fuel' room : Nat} (a : Bytes) (first : room < fuel)
    (second : room < fuel') : atobFrom fuel a room = atobFrom fuel' a room := by
  induction fuel generalizing fuel' room a with
  | zero => omega
  | succ fuel ih =>
    obtain ⟨fuel', rfl⟩ : ∃ f, fuel' = f + 1 := ⟨fuel' - 1, by omega⟩
    rw [atobFrom, atobFrom]
    by_cases full : room = 0
    · simp [full]
    · rw [ih (a.drop 4) (show room - 3 < fuel by omega) (show room - 3 < fuel' by omega)]

/-- The decoder gets back as many of the encoded bytes as fit. -/
theorem atob_btoa_take (b : Bytes) (blen : Nat) : atob (btoa b) blen = b.take blen := by
  have long : atobFrom (blen + b.length + 1) (btoa b) (blen + b.length) = b :=
    atobFrom_btoa b (by omega) (by omega)
  have enough : blen < blen + b.length + 1 := by omega
  rw [atob, atobFrom_fuel (btoa b) (Nat.lt_succ_self blen) enough,
    atobFrom_take _ _ blen b.length, long]

/-- `atob` on a text that ends at a character outside the alphabet. -/
theorem atobBuffer_eq (c : Quad) {u rest : Bytes} {x : UInt8} (blen : Nat)
    (letters : ∀ y ∈ u, from64 y ≠ 255) (stop : from64 x = 255) :
    ∃ unread, atobBuffer c (u ++ x :: rest) blen =
        .ok ⟨atob u blen, (atob u blen).length, unread⟩ ∧ rest <:+ unread := by
  obtain ⟨unread, done, kept⟩ := atobGroups_eq (c := c.set 3 0) letters stop (Nat.zero_le blen)
    (show blen < blen + 1 + 0 by omega)
  rw [Nat.sub_zero, Nat.zero_add] at done
  exact ⟨unread, done, kept⟩

/-- `btoa` writes a text of the alphabet with a NUL, and `atob` in front of any other character
gets back as many of the bytes as fit, without a look behind that character. -/
def RoundTrips (b : Bytes) : Prop :=
  ∃ text, btoaBuffer b = some (text ++ [0], text.length) ∧
    text.length = (4 * b.length + 2) / 3 ∧ (∀ c ∈ text, from64 c ≠ 255) ∧
    ∀ (c : Quad) (blen : Nat) (x : UInt8) (rest : Bytes), from64 x = 255 →
      ∃ unread, atobBuffer c (text ++ x :: rest) blen =
        .ok ⟨b.take blen, min blen b.length, unread⟩ ∧ rest <:+ unread

theorem roundTrips_of_short {b : Bytes} (short : b.length < 1610612736) : RoundTrips b := by
  have length := length_btoa b
  have written : btoaBuffer b = some (btoa b ++ [0], 0 + (btoa b).length) :=
    btoaFrom_eq_some (by omega)
  rw [Nat.zero_add] at written
  refine ⟨btoa b, written, length, fun c mem => from64_ne_of_mem_btoa mem, ?_⟩
  intro c blen x rest stop
  obtain ⟨unread, done, kept⟩ := @atobBuffer_eq c (btoa b) rest x blen
    (fun y mem => from64_ne_of_mem_btoa mem) stop
  rw [atob_btoa_take, List.length_take] at done
  exact ⟨unread, done, kept⟩

theorem RoundTrips.short {b : Bytes} (roundTrips : RoundTrips b) : b.length < 1610612736 := by
  obtain ⟨text, written, -⟩ := roundTrips
  exact (btoaBuffer_isSome_iff b).mp ⟨_, written⟩

/-- Encoding and decoding are inverse as long as an int counts the characters. -/
theorem base64_roundTrips_iff (b : Bytes) : RoundTrips b ↔ b.length < 1610612736 := by
  constructor
  · exact RoundTrips.short
  · exact roundTrips_of_short

/-- The encoding of 1.5 GiB does not fit into an int. -/
theorem not_roundTrips_zeros : ¬RoundTrips (List.replicate 1610612736 0) := by
  intro roundTrips
  have short := roundTrips.short
  rw [List.length_replicate] at short
  exact Nat.lt_irrefl _ short

example : atobBuffer (Vector.replicate 4 7) (ascii "AQID-w!x") 3 =
    .ok ⟨[1, 2, 3], 3, ascii "x"⟩ := by decide

end MegaSdk.Base64
