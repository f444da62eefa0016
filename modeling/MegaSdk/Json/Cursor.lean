import MegaSdk.Json.Containers
import MegaSdk.Lib.Runs

/-!
# The scanner on a buffer

The operations of json.cpp on pointers into a NUL-terminated buffer, with every character
they read checked against the end of the buffer. Inside the buffer they do what the
scanner on texts does; the cursor can leave the buffer in `getnameid`, which moves two
characters on from wherever the name ended, and `is` compares characters behind the NUL.
-/

namespace MegaSdk.Json

open Runs

structure CString where
  bytes : Bytes
  nonzero : (0 : UInt8) ∉ bytes

abbrev Checked := Except Fault

namespace CString
variable (t : CString)

def nul : Nat := t.bytes.length

def suffix (pos : Nat) : Text := t.bytes.drop pos

/-- `*ptr`, and a fault behind the NUL. -/
def charAt (ptr : Nat) : Checked UInt8 :=
  if ptr ≤ t.nul then .ok (t.bytes.getD ptr 0) else .error .overrun

/-- `n` characters from `ptr` on. -/
def range (ptr n : Nat) : Checked Bytes :=
  if ptr + n ≤ t.nul + 1 then .ok (((t.bytes ++ [0]).drop ptr).take n) else .error .overrun

/-- `while (p(*ptr)) ptr++`. -/
def skipWhile (p : UInt8 → Bool) : Nat → Nat → Checked Nat
  | 0, _ => .error .endless
  | fuel + 1, ptr => do
    if p (← t.charAt ptr) then skipWhile p fuel (ptr + 1) else return ptr

def fuel : Nat := t.nul + 1

/-- `if (*pos == c) pos++`. -/
def skip (c : UInt8) (pos : Nat) : Checked Nat := do
  if (← t.charAt pos) = c then return pos + 1 else return pos

/-- `if (*pos == ':' || *pos == ',') pos++`. -/
def skipSeparator (pos : Nat) : Checked Nat := do
  let c ← t.charAt pos
  if c = colon ∨ c = comma then return pos + 1 else return pos

def skipBlanks (pos : Nat) : Checked Nat := do
  t.skip comma (← t.skipWhile (fun c => 0 < c && c ≤ 32) t.fuel pos)

/-- The loop over a string: it stops at the closing quote or at the NUL. -/
def skipString : Nat → Bool → Nat → Checked (Bool × Nat)
  | 0, _, _ => .error .endless
  | fuel + 1, escaped, ptr => do
    let c ← t.charAt ptr
    if c ≠ 0 ∧ (escaped ∨ c ≠ quote) then skipString fuel (c = backslash && !escaped) (ptr + 1)
    else return (escaped, ptr)

/-- The local variables of `storeobject`. -/
structure Scan where
  objects : Int
  arrays : Int
  escaped : Bool
  ptr : Nat

/-- One round of the loop, `none` for `return false`. -/
def advance (st : Scan) : Checked (Option Scan) := do
  let c ← t.charAt st.ptr
  if c = openArray then return some { st with arrays := st.arrays + 1, ptr := st.ptr + 1 }
  else if c = openObject then return some { st with objects := st.objects + 1, ptr := st.ptr + 1 }
  else if c = closeArray then return some { st with arrays := st.arrays - 1, ptr := st.ptr + 1 }
  else if c = closeObject then return some { st with objects := st.objects - 1, ptr := st.ptr + 1 }
  else if c = quote then
    let (escaped, ptr) ← t.skipString t.fuel st.escaped (st.ptr + 1)
    if (← t.charAt ptr) = 0 then return none
    else return some { st with escaped := escaped, ptr := ptr + 1 }
  else if isDigit c || c = minus || c = dot then
    let ptr ← t.skipWhile isNumberTail t.fuel (st.ptr + 1)
    return some { st with ptr := ptr }
  else if c = colon || c = comma then return some { st with ptr := st.ptr + 1 }
  else return none

def scan : Nat → Scan → Checked (Option Nat)
  | 0, _ => .error .endless
  | fuel + 1, st => do
    match ← t.advance st with
    | none => return none
    | some st => if st.objects = 0 ∧ st.arrays = 0 then return some st.ptr else scan fuel st

/-- `storeobject`: the string it assigns if it returns true, and the cursor. -/
def storeobject (pos : Nat) : Checked (Option Bytes × Nat) := do
  let pos ← t.skipBlanks pos
  match ← t.scan t.fuel ⟨0, 0, false, pos⟩ with
  | none => return (none, pos)
  | some ptr =>
    if (← t.charAt pos) = quote then return (some (← t.range (pos + 1) (ptr - pos - 2)), ptr)
    else return (some (← t.range pos (ptr - pos)), ptr)

def isnumeric (pos : Nat) : Checked (Bool × Nat) := do
  let pos ← t.skip comma pos
  let ptr ← t.skip minus pos
  return (isDigit (← t.charAt ptr), pos)

/-- The characters of a name: up to a quote or the NUL. -/
def isNameChar (c : UInt8) : Bool := c ≠ 0 && c ≠ quote

def getnameid (pos : Nat) : Checked (UInt64 × Nat) := do
  let ptr ← t.skipSeparator pos
  if (← t.charAt ptr) = quote then
    let stop ← t.skipWhile isNameChar t.fuel (ptr + 1)
    return (nameid (← t.range (ptr + 1) (stop - (ptr + 1))), stop + 2)
  else return (0, pos)

/-- `is`; `memcmp` takes all characters it is given. -/
def is (value : CString) (pos : Nat) : Checked (Bool × Nat) := do
  let pos ← t.skip comma pos
  if (← t.charAt pos) ≠ quote then return (false, pos)
  else if (← t.range (pos + 1) value.nul) ≠ value.bytes then return (false, pos)
  else if (← t.charAt (pos + value.nul + 1)) ≠ quote then return (false, pos)
  else return (true, pos + value.nul + 2)

/-- Up to `n` characters of the base64 alphabet. -/
def group : Nat → Nat → Checked Bytes
  | 0, _ => return []
  | n + 1, a => do
    let c := Base64.from64 (← t.charAt a)
    if c = 255 then return [] else return c :: (← group n (a + 1))

/-- The loop of `Base64::atob`. -/
def atobFrom : Nat → Nat → Nat → Checked Bytes
  | 0, _, _ => return []
  | fuel + 1, a, room => do
    let c ← t.group 4 a
    let c0 := c.getD 0 255
    let c1 := c.getD 1 255
    let c2 := c.getD 2 255
    let c3 := c.getD 3 255
    if room = 0 ∨ c.length = 0 then return []
    else if room = 1 ∨ c.length < 3 then return [c0 <<< 2 ||| (c1 &&& 0x30) >>> 4]
    else if room = 2 ∨ c.length < 4 then
      return [c0 <<< 2 ||| (c1 &&& 0x30) >>> 4, c1 <<< 4 ||| (c2 &&& 0x3c) >>> 2]
    else
      return (c0 <<< 2 ||| (c1 &&& 0x30) >>> 4) :: (c1 <<< 4 ||| (c2 &&& 0x3c) >>> 2) ::
        (c2 <<< 6 ||| c3) :: (← atobFrom fuel (a + 4) (room - 3))

def atob (a blen : Nat) : Checked Bytes := t.atobFrom (blen + 1) a blen

/-- `storebinary` with a buffer of `len` bytes. -/
def storebinary (len pos : Nat) : Checked (Bytes × Nat) := do
  let pos ← t.skip comma pos
  if (← t.charAt pos) = quote then
    let bytes ← t.atob (pos + 1) len
    return (bytes, (← t.storeobject pos).2)
  else return ([], pos)

/-- `storebinary` with a string: the result, and the new string if it is assigned. -/
def storebinaryString (pos : Nat) : Checked ((Bool × Option Bytes) × Nat) := do
  let pos ← t.skip comma pos
  if (← t.charAt pos) = quote then
    -- `strchr`
    let ptr ← t.skipWhile isNameChar t.fuel (pos + 1)
    if (← t.charAt ptr) = 0 then return ((false, none), pos)
    else
      let bytes ← t.atob (pos + 1) ((ptr - pos - 1) / 4 * 3 + 3)
      return ((true, some bytes), (← t.storeobject pos).2)
  else return ((true, none), pos)

/-- `n` characters from `ptr` on, none of them the NUL. -/
def holds : Nat → Nat → Checked Bool
  | 0, _ => return true
  | n + 1, ptr => do
    if (← t.charAt ptr) = 0 then return false else holds n (ptr + 1)

def ishandle (size pos : Nat) : Checked (Bool × Nat) := do
  let width := if size = 6 then 8 else 11
  let pos ← t.skip comma pos
  if (← t.charAt pos) = quote then
    if ← t.holds (width + 1) pos then return ((← t.charAt (pos + (width + 1))) = quote, pos)
    else return (false, pos)
  else return (false, pos)

def gethandle (size pos : Nat) : Checked (Option Bytes × Nat) := do
  let (bytes, pos) ← t.storebinary 9 pos
  return (handleOf size bytes, pos)

def digitsAt (ptr : Nat) : Checked Bytes := do
  let stop ← t.skipWhile isDigit t.fuel ptr
  t.range ptr (stop - ptr)

/-- `atoll`: blanks, a sign and digits. -/
def atoll (ptr : Nat) : Checked Int := do
  let ptr ← t.skipWhile (fun c => c == 32 || (9 ≤ c && c ≤ 13)) t.fuel ptr
  let sign ← t.charAt ptr
  let digits ← t.digitsAt (if sign = 45 ∨ sign = 43 then ptr + 1 else ptr)
  return saturate (if sign = 45 then -leadingDigits digits else leadingDigits digits)

def getint (pos : Nat) : Checked (Int × Nat) := do
  let pos ← t.skipSeparator pos
  let ptr ← t.skip quote pos
  let c ← t.charAt ptr
  if isDigit c ∨ c = minus then
    let r ← t.atoll ptr
    return (r, (← t.storeobject pos).2)
  else return (-1, pos)

/-- `getfloat`: the string that `atof` is given, which reads no further than its NUL. -/
def getfloat (pos : Nat) : Checked (Option Bytes × Nat) := do
  let pos ← t.skipSeparator pos
  let c ← t.charAt pos
  if isDigit c ∨ c = minus ∨ c = dot then
    let stop ← t.skipWhile (fun c => c ≠ 0) t.fuel pos
    let text ← t.range pos (stop - pos)
    return (some text, (← t.storeobject pos).2)
  else return (none, pos)

/-- `getvalue`: the returned pointer. -/
def getvalue (pos : Nat) : Checked (Nat × Nat) := do
  let pos ← t.skipSeparator pos
  let r ← t.skip quote pos
  return (r, (← t.storeobject pos).2)

def enterarray (pos : Nat) : Checked (Bool × Nat) := do
  let pos ← t.skip comma pos
  if (← t.charAt pos) = openArray then return (true, pos + 1) else return (false, pos)

def leavearray (pos : Nat) : Checked (Bool × Nat) := do
  if (← t.charAt pos) = closeArray then return (true, pos + 1) else return (false, pos)

def enterobject (pos : Nat) : Checked (Bool × Nat) := do
  let pos ← t.skip comma (← t.skip closeObject pos)
  if (← t.charAt pos) = openObject then return (true, pos + 1) else return (false, pos)

/-- The loop of `leaveobject`. -/
def skipRemainder : Nat → Nat → Checked Nat
  | 0, _ => .error .endless
  | fuel + 1, pos => do
    let c ← t.charAt pos
    if c = colon ∨ c = comma then skipRemainder fuel (pos + 1)
    else if startsValue c then skipRemainder fuel (← t.storeobject pos).2
    else return pos

/-- `leaveobject`; every round that moves the cursor brings it closer to the NUL. -/
def leaveobject (pos : Nat) : Checked (Bool × Nat) := do
  let pos ← t.skipRemainder t.fuel pos
  if (← t.charAt pos) = closeObject then return (true, pos + 1) else return (false, pos)

end CString

/-- The computation returns, and its result meets `post`. -/
def Sees {α : Type} (x : Checked α) (post : α → Prop) : Prop := ∃ a, x = .ok a ∧ post a

section Sees
variable {α β : Type} {x : Checked α} {f : α → Checked β} {post : α → Prop} {goal : β → Prop}

theorem sees_pure {a : α} (holds : post a) : Sees (pure a) post := ⟨a, rfl, holds⟩

theorem Sees.bind (first : Sees x post) (next : ∀ a, post a → Sees (f a) goal) :
    Sees (x >>= f) goal := by
  obtain ⟨a, rfl, holds⟩ := first
  exact next a holds

theorem Sees.mono {weaker : α → Prop} (first : Sees x post) (implies : ∀ a, post a → weaker a) :
    Sees x weaker := by
  obtain ⟨a, rfl, holds⟩ := first
  exact ⟨a, rfl, implies a holds⟩

end Sees

namespace CString
variable (t : CString)

/-- A position in the buffer whose text is `s`. -/
def Points (s : Text) (pos : Nat) : Prop := pos ≤ t.nul ∧ t.suffix pos = s

variable {t} {s : Text} {pos : Nat}

theorem points_suffix (inside : pos ≤ t.nul) : t.Points (t.suffix pos) pos := ⟨inside, rfl⟩

theorem Points.length (points : t.Points s pos) : pos + s.length = t.nul := by
  obtain ⟨inside, rfl⟩ := points
  rw [suffix, List.length_drop]
  simp only [nul] at inside ⊢
  omega

theorem Points.nonzero (points : t.Points s pos) : (0 : UInt8) ∉ s := by
  obtain ⟨-, rfl⟩ := points
  exact fun mem => t.nonzero (List.mem_of_mem_drop mem)

/-- The NUL is read at the end of the text only. -/
theorem Points.peek_eq_zero_iff (points : t.Points s pos) : peek s = 0 ↔ s = [] := by
  cases s with
  | nil => exact ⟨fun _ => rfl, fun _ => rfl⟩
  | cons c rest =>
    refine ⟨fun zero => ?_, fun empty => by cases empty⟩
    exact absurd (List.mem_cons.mpr (.inl zero.symm)) points.nonzero

theorem Points.drop (points : t.Points s pos) {n : Nat} (short : n ≤ s.length) :
    t.Points (s.drop n) (pos + n) := by
  have total := points.length
  obtain ⟨inside, rfl⟩ := points
  refine ⟨by omega, ?_⟩
  rw [suffix, suffix, List.drop_drop]

/-- A character other than the NUL can be passed. -/
theorem Points.tail (points : t.Points s pos) (more : peek s ≠ 0) :
    t.Points s.tail (pos + 1) := by
  have some : s ≠ [] := fun empty => more (points.peek_eq_zero_iff.mpr empty)
  rw [← List.drop_one]
  exact points.drop (List.length_pos_iff.mpr some)

theorem Points.head_ne_zero {c : UInt8} {rest : Text} (points : t.Points (c :: rest) pos) :
    c ≠ 0 := by
  rintro rfl
  exact points.nonzero List.mem_cons_self

theorem Points.next {c : UInt8} {rest : Text} (points : t.Points (c :: rest) pos) :
    t.Points rest (pos + 1) := points.tail points.head_ne_zero

theorem charAt_points (points : t.Points s pos) : t.charAt pos = .ok (peek s) := by
  obtain ⟨inside, rfl⟩ := points
  rw [charAt, if_pos inside, peek, suffix]
  congr 1
  rw [List.headD_eq_head?_getD, List.head?_drop, List.getD_eq_getElem?_getD]

theorem charAt_sees (points : t.Points s pos) : Sees (t.charAt pos) fun c => c = peek s :=
  ⟨_, charAt_points points, rfl⟩

/-- The NUL may be read too. -/
theorem range_points (points : t.Points s pos) {n : Nat} (short : n ≤ s.length + 1) :
    t.range pos n = .ok ((s ++ [0]).take n) := by
  have total := points.length
  obtain ⟨inside, rfl⟩ := points
  rw [range, if_pos (by omega), List.drop_append_of_le_length inside, suffix]

theorem range_sees (points : t.Points s pos) {n : Nat} (short : n ≤ s.length) :
    Sees (t.range pos n) fun text => text = s.take n :=
  ⟨_, range_points points (Nat.le_succ_of_le short), List.take_append_of_le_length short⟩

/-- A loop that stops at the NUL. -/
theorem skipWhile_points {p : UInt8 → Bool} (stops : p 0 = false) {fuel : Nat}
    (points : t.Points s pos) (enough : s.length < fuel) :
    t.skipWhile p fuel pos = .ok (pos + (s.takeWhile p).length) := by
  induction fuel generalizing s pos with
  | zero => omega
  | succ fuel ih =>
    rw [skipWhile, charAt_points points]
    change (if p (peek s) = true then _ else _) = _
    cases s with
    | nil =>
      rw [if_neg (by rw [show peek [] = 0 from rfl, stops]; decide)]
      rfl
    | cons c rest =>
      rw [peek_cons, List.takeWhile_cons]
      split
      · rw [ih points.next (Nat.lt_of_succ_lt_succ enough), List.length_cons]
        congr 1
        omega
      · rfl

theorem Points.length_lt_fuel (points : t.Points s pos) : s.length < t.fuel := by
  have total := points.length
  rw [fuel]
  omega

theorem skipWhile_sees {p : UInt8 → Bool} (stops : p 0 = false) (points : t.Points s pos) :
    Sees (t.skipWhile p t.fuel pos) fun stop =>
      stop = pos + (s.takeWhile p).length ∧ t.Points (s.dropWhile p) stop := by
  refine ⟨_, skipWhile_points stops points points.length_lt_fuel, rfl, ?_⟩
  have rest := points.drop (List.takeWhile_prefix p).length_le
  have split : s.drop (s.takeWhile p).length = s.dropWhile p := by
    have whole := @List.drop_left _ (s.takeWhile p) (s.dropWhile p)
    rwa [List.takeWhile_append_dropWhile] at whole
  rwa [split] at rest

theorem skip_sees {c : UInt8} (some : c ≠ 0) (points : t.Points s pos) :
    Sees (t.skip c pos) (t.Points (Json.skip c s)) := by
  refine (charAt_sees points).bind ?_
  rintro _ rfl
  rw [Json.skip]
  split
  · rename_i same
    exact sees_pure (points.tail (same ▸ some))
  · exact sees_pure points

theorem skipSeparator_sees (points : t.Points s pos) :
    Sees (t.skipSeparator pos) (t.Points (Json.skipSeparator s)) := by
  refine (charAt_sees points).bind ?_
  rintro _ rfl
  rw [Json.skipSeparator]
  split
  · rename_i same
    refine sees_pure (points.tail ?_)
    rcases same with same | same <;> (rw [same]; decide)
  · exact sees_pure points

theorem skipBlanks_sees (points : t.Points s pos) :
    Sees (t.skipBlanks pos) (t.Points (Json.skipBlanks s)) :=
  (skipWhile_sees rfl points).bind fun _ after => skip_sees (by decide) after.2

theorem skipString_sees {fuel : Nat} {escaped : Bool} (points : t.Points s pos)
    (enough : s.length < fuel) :
    Sees (t.skipString fuel escaped pos) fun r =>
      match Json.skipString escaped s with
      | none => t.Points [] r.2
      | some after => r.1 = false ∧ t.Points (quote :: after) r.2 := by
  induction fuel generalizing s pos escaped with
  | zero => omega
  | succ fuel ih =>
    refine (charAt_sees points).bind ?_
    rintro _ rfl
    cases s with
    | nil => exact sees_pure points
    | cons c rest =>
      have nonzero := points.head_ne_zero
      rw [Json.skipString, if_neg nonzero, peek_cons]
      by_cases closes : c = quote ∧ escaped = false
      · rw [if_neg (by simp [closes]), if_pos (by simp [closes])]
        obtain ⟨rfl, rfl⟩ := closes
        exact sees_pure ⟨rfl, points⟩
      · have goes : c ≠ 0 ∧ (escaped = true ∨ c ≠ quote) := by
          refine ⟨nonzero, ?_⟩
          by_contra stuck
          simp only [not_or, Bool.not_eq_true, ne_eq, not_not] at stuck
          exact closes stuck.symm
        rw [if_pos goes, if_neg (by simpa using closes)]
        exact ih points.next (Nat.lt_of_succ_lt_succ enough)

/-- What a round does on the buffer is what it does on the text. -/
theorem advance_sees (o a : Int) (points : t.Points s pos) :
    Sees (t.advance ⟨o, a, false, pos⟩) fun r =>
      match Json.advance (o, a, s) with
      | none => r = none
      | some (o', a', rest) => ∃ ptr, r = some ⟨o', a', false, ptr⟩ ∧ t.Points rest ptr := by
  refine (charAt_sees points).bind ?_
  rintro _ rfl
  cases s with
  | nil => exact sees_pure rfl
  | cons c rest =>
    have next := points.next
    rw [Json.advance, peek_cons]
    split
    · exact sees_pure ⟨_, rfl, next⟩
    split
    · exact sees_pure ⟨_, rfl, next⟩
    split
    · exact sees_pure ⟨_, rfl, next⟩
    split
    · exact sees_pure ⟨_, rfl, next⟩
    split
    · refine (skipString_sees next next.length_lt_fuel).bind ?_
      rintro ⟨escaped, ptr⟩ skipped
      cases after : Json.skipString false rest with
      | none =>
        rw [after] at skipped
        refine (charAt_sees skipped).bind ?_
        rintro _ rfl
        exact sees_pure rfl
      | some after' =>
        rw [after] at skipped
        obtain ⟨rfl, closing⟩ := skipped
        refine (charAt_sees closing).bind ?_
        rintro _ rfl
        exact sees_pure ⟨_, rfl, closing.next⟩
    split
    · refine (skipWhile_sees rfl next).bind ?_
      rintro ptr ⟨-, after⟩
      exact sees_pure ⟨ptr, rfl, after⟩
    split
    · exact sees_pure ⟨_, rfl, next⟩
    · exact sees_pure rfl

theorem scan_sees {fuel : Nat} (o a : Int) (points : t.Points s pos) (enough : s.length < fuel) :
    Sees (t.scan fuel ⟨o, a, false, pos⟩) fun r =>
      match Json.scan fuel (o, a, s) with
      | none => r = none
      | some rest => ∃ ptr, r = some ptr ∧ t.Points rest ptr := by
  induction fuel generalizing s pos o a with
  | zero => omega
  | succ fuel ih =>
    refine (advance_sees o a points).bind ?_
    intro r round
    rw [Json.scan]
    cases advanced : Json.advance (o, a, s) with
    | none =>
      rw [advanced] at round
      rw [round]
      exact sees_pure rfl
    | some next =>
      obtain ⟨o', a', rest⟩ := next
      rw [advanced] at round
      obtain ⟨ptr, rfl, after⟩ := round
      have shorter := length_advance advanced
      dsimp only at shorter ⊢
      split
      · exact sees_pure ⟨ptr, rfl, after⟩
      · exact ih o' a' after (by omega)

theorem scan_fuel {s : Text} {fuel fuel' : Nat} (enough : s.length ≤ fuel)
    (enough' : s.length ≤ fuel') (o a : Int) :
    Json.scan fuel (o, a, s) = Json.scan fuel' (o, a, s) := by
  refine Option.ext fun rest => ?_
  rw [scan_eq_some_iff enough, scan_eq_some_iff enough']

/-- The results on the buffer and on the text agree, and the cursor stays in the buffer. -/
def Agrees {α : Type} (t : CString) (x : Checked (α × Nat)) (y : α × Text) : Prop :=
  Sees x fun r => r.1 = y.1 ∧ t.Points y.2 r.2

theorem scan_length_lt {s rest : Text} (scanned : Json.scan s.length (0, 0, s) = some rest) :
    ∃ span, s = span ++ rest ∧ span ≠ [] := by
  obtain ⟨ts, evensOut⟩ := scan_iff_evensOut.mp scanned
  obtain ⟨span, rfl, -⟩ := evensOut.lexed.depths
  refine ⟨span, rfl, ?_⟩
  rintro rfl
  exact absurd evensOut.length_lt (lt_irrefl _)

theorem storeobject_agrees (points : t.Points s pos) :
    t.Agrees (t.storeobject pos) (Json.storeobject s) := by
  refine (skipBlanks_sees points).bind ?_
  intro pos here
  have enough := here.length_lt_fuel
  refine (scan_sees 0 0 here enough).bind ?_
  intro r scanned
  rw [scan_fuel enough.le le_rfl] at scanned
  rw [Json.storeobject]
  cases result : Json.scan (Json.skipBlanks s).length (0, 0, Json.skipBlanks s) with
  | none =>
    rw [result] at scanned
    rw [scanned]
    exact sees_pure ⟨rfl, here⟩
  | some rest =>
    rw [result] at scanned
    obtain ⟨ptr, rfl, after⟩ := scanned
    obtain ⟨span, text, some⟩ := scan_length_lt result
    rw [text] at here ⊢
    have whole : between (span ++ rest) rest = span := by simp [between]
    have total := here.length
    have behind := after.length
    rw [List.length_append] at total
    have width : ptr - pos = span.length := by omega
    refine (charAt_sees here).bind ?_
    rintro _ rfl
    dsimp only
    rw [whole, width]
    split
    · have room : 1 ≤ (span ++ rest).length := by
        have positive := List.length_pos_iff.mpr some
        rw [List.length_append]
        omega
      refine (range_sees (here.drop room) ?_).bind ?_
      · rw [List.length_drop, List.length_append]
        omega
      · rintro _ rfl
        refine sees_pure ⟨?_, after⟩
        dsimp only
        rw [List.drop_append_of_le_length (List.length_pos_iff.mpr some),
          List.take_append_of_le_length (by rw [List.length_drop]; omega), List.drop_one,
          List.dropLast_eq_take, List.length_tail, Nat.sub_sub]
    · refine (range_sees here ?_).bind ?_
      · rw [List.length_append]
        omega
      · rintro _ rfl
        exact sees_pure ⟨by rw [List.take_left], after⟩

theorem isnumeric_agrees (points : t.Points s pos) :
    t.Agrees (t.isnumeric pos) (Json.isnumeric s) := by
  refine (skip_sees (by decide) points).bind ?_
  intro pos here
  refine (skip_sees (by decide) here).bind ?_
  intro ptr there
  refine (charAt_sees there).bind ?_
  rintro _ rfl
  exact sees_pure ⟨rfl, here⟩

theorem group_points (n : Nat) (points : t.Points s pos) :
    t.group n pos = .ok (((s.take n).map Base64.from64).takeWhile (· ≠ 255)) := by
  induction n generalizing s pos with
  | zero => rfl
  | succ n ih =>
    rw [group, charAt_points points]
    change (if Base64.from64 (peek s) = 255 then _ else _) = _
    cases s with
    | nil => rfl
    | cons c rest =>
      rw [peek_cons, List.take_succ_cons, List.map_cons, List.takeWhile_cons]
      split
      · rename_i last
        rw [if_neg (by simp [last])]
        rfl
      · rename_i more
        rw [if_pos (by simp [more]), ih points.next]
        rfl

theorem atobFrom_points (fuel room : Nat) (points : t.Points s pos) :
    t.atobFrom fuel pos room = .ok (Base64.atobFrom fuel s room) := by
  induction fuel generalizing s pos room with
  | zero => rfl
  | succ fuel ih =>
    rw [atobFrom, group_points 4 points, Base64.atobFrom]
    have bound := (@List.takeWhile_prefix _ ((s.take 4).map Base64.from64)
      fun c => decide (c ≠ 255)).length_le
    rw [List.length_map, List.length_take] at bound
    generalize ((s.take 4).map Base64.from64).takeWhile (fun c => decide (c ≠ 255)) = c at bound ⊢
    change (if room = 0 ∨ c.length = 0 then _ else _) = _
    split
    · rfl
    split
    · rfl
    split
    · rfl
    · rename_i full
      rw [ih (room - 3) (points.drop (by omega))]
      rfl

theorem atob_points (blen : Nat) (points : t.Points s pos) :
    t.atob pos blen = .ok (Base64.atob s blen) := atobFrom_points (blen + 1) blen points

theorem storebinary_agrees (len : Nat) (points : t.Points s pos) :
    t.Agrees (t.storebinary len pos) (Json.storebinary len s) := by
  refine (skip_sees (by decide) points).bind ?_
  intro pos here
  refine (charAt_sees here).bind ?_
  rintro _ rfl
  rw [Json.storebinary]
  split
  · rename_i string
    rw [atob_points len (here.tail (string ▸ by decide))]
    refine (storeobject_agrees here).bind ?_
    rintro ⟨_, after⟩ ⟨-, there⟩
    exact sees_pure ⟨rfl, there⟩
  · exact sees_pure ⟨rfl, here⟩

theorem gethandle_agrees (size : Nat) (points : t.Points s pos) :
    t.Agrees (t.gethandle size pos) (Json.gethandle size s) := by
  refine (storebinary_agrees 9 points).bind ?_
  rintro ⟨bytes, after⟩ ⟨rfl, there⟩
  exact sees_pure ⟨rfl, there⟩

/-- There is no such operation on texts; its cursor stays in the buffer. -/
theorem storebinaryString_sees (points : t.Points s pos) :
    Sees (t.storebinaryString pos) fun r => r.2 ≤ t.nul := by
  refine (skip_sees (by decide) points).bind ?_
  intro pos here
  refine (charAt_sees here).bind ?_
  rintro _ rfl
  split
  · rename_i string
    have next := here.tail (string ▸ by decide)
    refine (skipWhile_sees rfl next).bind ?_
    rintro ptr ⟨-, there⟩
    refine (charAt_sees there).bind ?_
    rintro _ rfl
    split
    · exact sees_pure here.1
    · rw [atob_points _ next]
      refine (storeobject_agrees here).bind ?_
      rintro ⟨_, after⟩ ⟨-, behind⟩
      exact sees_pure behind.1
  · exact sees_pure here.1

theorem holds_points (n : Nat) (points : t.Points s pos) :
    t.holds n pos = .ok (decide (n ≤ s.length)) := by
  induction n generalizing s pos with
  | zero => rfl
  | succ n ih =>
    rw [holds, charAt_points points]
    change (if peek s = 0 then _ else _) = _
    split
    · rename_i last
      rw [points.peek_eq_zero_iff.mp last]
      rfl
    · rename_i more
      rw [ih (points.tail more)]
      cases s with
      | nil => exact absurd rfl more
      | cons c rest => exact congrArg Except.ok (decide_eq_decide.mpr Nat.succ_le_succ_iff.symm)

theorem getElem?_eq_some_iff_peek {s : Text} {c : UInt8} (some : c ≠ 0) (n : Nat) :
    s[n]? = Option.some c ↔ peek (s.drop n) = c := by
  rw [peek, List.headD_eq_head?_getD, List.head?_drop]
  cases s[n]? with
  | none =>
    constructor
    · intro none
      cases none
    · intro zero
      exact absurd zero.symm some
  | some d => rw [Option.getD_some, Option.some.injEq]

theorem ishandle_agrees (size : Nat) (points : t.Points s pos) :
    t.Agrees (t.ishandle size pos) (Json.ishandle size s) := by
  rw [ishandle, Json.ishandle]
  generalize (if size = 6 then 8 else 11) = width
  refine (skip_sees (by decide) points).bind ?_
  intro pos here
  refine (charAt_sees here).bind ?_
  rintro _ rfl
  generalize Json.skip comma s = u at here ⊢
  have free : (0 : UInt8) ∉ u.take (width + 1) := fun mem =>
    here.nonzero (List.mem_of_mem_take mem)
  split
  · rename_i string
    rw [holds_points _ here]
    by_cases long : width + 1 ≤ u.length
    · change Sees (if decide (width + 1 ≤ u.length) = true then _ else _) _
      rw [if_pos (decide_eq_true long)]
      refine (charAt_sees (here.drop long)).bind ?_
      rintro _ rfl
      refine sees_pure ⟨?_, here⟩
      simp [string, free, getElem?_eq_some_iff_peek (by decide : quote ≠ 0)]
    · change Sees (if decide (width + 1 ≤ u.length) = true then _ else _) _
      rw [if_neg (by simpa using long)]
      refine sees_pure ⟨?_, here⟩
      have none : u[width + 1]? = none := List.getElem?_eq_none (by omega)
      simp [none]
  · rename_i other
    exact sees_pure ⟨by simp [other], here⟩

theorem digitsAt_sees (points : t.Points s pos) :
    Sees (t.digitsAt pos) fun digits => leadingDigits digits = leadingDigits s := by
  refine (skipWhile_sees rfl points).bind ?_
  rintro stop ⟨rfl, -⟩
  rw [Nat.add_sub_cancel_left]
  have prefix_le := @List.takeWhile_prefix _ s isDigit
  refine (range_sees points prefix_le.length_le).mono ?_
  rintro _ rfl
  rw [← List.prefix_iff_eq_take.mp prefix_le, leadingDigits, leadingDigits, List.takeWhile_idem]

theorem atoll_sees (points : t.Points s pos) :
    Sees (t.atoll pos) fun r => r = MegaSdk.atoll s := by
  rw [atoll, MegaSdk.atoll, leadingInteger]
  refine (skipWhile_sees (by decide) points).bind ?_
  rintro ptr ⟨-, here⟩
  generalize s.dropWhile _ = u at here ⊢
  refine (charAt_sees here).bind ?_
  rintro _ rfl
  cases u with
  | nil =>
    refine (digitsAt_sees here).bind ?_
    intro digits same
    exact sees_pure (by rw [same]; rfl)
  | cons c rest =>
    have next := here.next
    rw [peek_cons]
    by_cases negative : c = 45
    · subst negative
      refine (digitsAt_sees next).bind ?_
      intro digits same
      exact sees_pure (by rw [same]; rfl)
    by_cases positive : c = 43
    · subst positive
      refine (digitsAt_sees next).bind ?_
      intro digits same
      exact sees_pure (by rw [same]; rfl)
    · rw [if_neg (by simp [negative, positive])]
      refine (digitsAt_sees here).bind ?_
      intro digits same
      refine sees_pure ?_
      rw [if_neg negative, same]
      simp [negative, positive]

theorem getint_agrees (points : t.Points s pos) : t.Agrees (t.getint pos) (Json.getint s) := by
  refine (skipSeparator_sees points).bind ?_
  intro pos here
  refine (skip_sees (by decide) here).bind ?_
  intro ptr there
  refine (charAt_sees there).bind ?_
  rintro _ rfl
  rw [Json.getint]
  split
  · refine (atoll_sees there).bind ?_
    rintro _ rfl
    refine (storeobject_agrees here).bind ?_
    rintro ⟨_, after⟩ ⟨-, behind⟩
    exact sees_pure ⟨rfl, behind⟩
  · exact sees_pure ⟨rfl, here⟩

/-- The cursor of `getfloat` is the one on texts. -/
theorem getfloat_sees (points : t.Points s pos) :
    Sees (t.getfloat pos) fun r => t.Points (Json.getfloat s).2 r.2 := by
  refine (skipSeparator_sees points).bind ?_
  intro pos here
  refine (charAt_sees here).bind ?_
  rintro _ rfl
  rw [Json.getfloat]
  split
  · refine (skipWhile_sees rfl here).bind ?_
    rintro stop ⟨rfl, -⟩
    refine (range_sees here ?_).bind ?_
    · rw [Nat.add_sub_cancel_left]
      exact (List.takeWhile_prefix _).length_le
    · rintro _ rfl
      refine (storeobject_agrees here).bind ?_
      rintro ⟨_, after⟩ ⟨-, behind⟩
      exact sees_pure behind
  · exact sees_pure here

theorem getvalue_sees (points : t.Points s pos) :
    Sees (t.getvalue pos) fun r => t.Points (payload s) r.1 ∧ t.Points (Json.getvalue s).2 r.2 := by
  refine (skipSeparator_sees points).bind ?_
  intro pos here
  refine (skip_sees (by decide) here).bind ?_
  intro ptr there
  refine (storeobject_agrees here).bind ?_
  rintro ⟨_, after⟩ ⟨-, behind⟩
  exact sees_pure ⟨there, behind⟩

/-- `if (*pos == c) { pos++; return true; } return false`. -/
theorem enter_agrees {c : UInt8} (some : c ≠ 0) (points : t.Points s pos) :
    t.Agrees (do if (← t.charAt pos) = c then return (true, pos + 1) else return (false, pos))
      (if peek s = c then (true, s.tail) else (false, s)) := by
  refine (charAt_sees points).bind ?_
  rintro _ rfl
  split
  · rename_i same
    exact sees_pure ⟨rfl, points.tail (same ▸ some)⟩
  · exact sees_pure ⟨rfl, points⟩

theorem enterarray_agrees (points : t.Points s pos) :
    t.Agrees (t.enterarray pos) (Json.enterarray s) :=
  (skip_sees (by decide) points).bind fun _ here => enter_agrees (by decide) here

theorem leavearray_agrees (points : t.Points s pos) :
    t.Agrees (t.leavearray pos) (Json.leavearray s) := enter_agrees (by decide) points

theorem enterobject_agrees (points : t.Points s pos) :
    t.Agrees (t.enterobject pos) (Json.enterobject s) :=
  (skip_sees (by decide) points).bind fun _ brace =>
    (skip_sees (by decide) brace).bind fun _ here => enter_agrees (by decide) here

theorem Points.unique {other : Nat} (points : t.Points s pos) (others : t.Points s other) :
    other = pos := by
  have total := points.length
  have total' := others.length
  omega

/-- A value that `storeobject` rejects is tried again and again. -/
theorem skipRemainder_stuck (points : t.Points s pos) (starts : Starts s)
    (stuck : Json.storeobject s = (none, s)) (fuel : Nat) :
    t.skipRemainder fuel pos = .error .endless := by
  induction fuel with
  | zero => rfl
  | succ fuel ih =>
    have goes : startsValue (peek s) := starts
    obtain ⟨⟨v, after⟩, stored, -, there⟩ := storeobject_agrees points
    rw [stuck] at there
    have same : after = pos := points.unique there
    subst same
    rw [skipRemainder, charAt_points points]
    change (if peek s = colon ∨ peek s = comma then _ else _) = _
    rw [if_neg starts.not_separator, if_pos goes, stored]
    exact ih

theorem skipRemainder_agrees {fuel : Nat} (points : t.Points s pos) :
    match Json.skipRemainder fuel s with
    | .error _ => t.skipRemainder fuel pos = .error .endless
    | .ok rest => Sees (t.skipRemainder fuel pos) (t.Points rest) := by
  induction fuel generalizing s pos with
  | zero => rfl
  | succ fuel ih =>
    have unfolded : t.skipRemainder (fuel + 1) pos =
        if peek s = colon ∨ peek s = comma then t.skipRemainder fuel (pos + 1)
        else if startsValue (peek s) then do t.skipRemainder fuel (← t.storeobject pos).2
        else return pos := by
      rw [skipRemainder, charAt_points points]
      rfl
    rcases leaveRound_cases s with last | separates | starts
    · obtain ⟨other, none⟩ := leaveRound_eq_none_iff.mp last
      rw [skipRemainder_stop last, unfolded, if_neg other, if_neg none]
      exact sees_pure points
    · rw [Json.skipRemainder, if_pos separates, unfolded, if_pos separates]
      refine ih (points.tail ?_)
      rcases separates with next | next <;> (rw [next]; decide)
    · have goes : startsValue (peek s) := starts
      rw [skipRemainder_value starts]
      rcases storeobject_starts starts with stuck | ⟨v, rest, ts, stored, -⟩
      · rw [stuck]
        exact skipRemainder_stuck points starts stuck (fuel + 1)
      · obtain ⟨⟨w, after⟩, moved, -, there⟩ := storeobject_agrees points
        rw [stored] at there ⊢
        rw [unfolded, if_neg starts.not_separator, if_pos goes, moved]
        exact ih there

theorem leaveobject_agrees (points : t.Points s pos) :
    match Json.leaveobject s with
    | .error _ => t.leaveobject pos = .error .endless
    | .ok y => t.Agrees (t.leaveobject pos) y := by
  have loop := @skipRemainder_agrees t s pos t.fuel points
  rw [skipRemainder_fuel points.length_lt_fuel (Nat.lt_succ_self s.length)] at loop
  rw [Json.leaveobject]
  cases skipped : Json.skipRemainder (s.length + 1) s with
  | error fault =>
    rw [skipped] at loop
    have stuck : t.skipRemainder t.fuel pos = .error .endless := loop
    change t.leaveobject pos = _
    rw [leaveobject, stuck]
    rfl
  | ok rest =>
    rw [skipped] at loop
    have ended : t.Agrees (t.leaveobject pos)
        (if peek rest = closeObject then (true, rest.tail) else (false, rest)) :=
      Sees.bind loop fun _ here => enter_agrees (by decide) here
    by_cases closing : peek rest = closeObject
    · simp only [if_pos closing] at ended ⊢
      exact ended
    · simp only [if_neg closing] at ended ⊢
      exact ended

/-- A name is closed, and a character follows the closing quote. -/
def NameFollowed (s : Text) : Prop :=
  peek (Json.skipSeparator s) = quote →
    (nameChars (Json.skipSeparator s).tail).length + 2 ≤ (Json.skipSeparator s).tail.length

/-- As many characters follow the quote, the NUL included, as `value` has. -/
def Comparable (value : CString) (s : Text) : Prop :=
  peek (Json.skip comma s) = quote → value.nul ≤ (Json.skip comma s).length

theorem getnameid_sees (points : t.Points s pos) :
    Sees (t.getnameid pos) fun r => r.2 ≤ t.nul ↔ NameFollowed s := by
  refine (skipSeparator_sees points).bind ?_
  intro ptr here
  refine (charAt_sees here).bind ?_
  rintro _ rfl
  split
  · rename_i string
    have next := here.tail (string ▸ by decide)
    refine (skipWhile_sees rfl next).bind ?_
    rintro stop ⟨rfl, -⟩
    rw [Nat.add_sub_cancel_left]
    refine (range_sees next (List.takeWhile_prefix _).length_le).bind ?_
    rintro _ rfl
    refine sees_pure ?_
    have total := next.length
    have same : ((Json.skipSeparator s).tail.takeWhile isNameChar).length =
      (nameChars (Json.skipSeparator s).tail).length := rfl
    dsimp only
    rw [NameFollowed, same]
    constructor
    · intro inside _
      omega
    · intro followed
      have room := followed string
      omega
  · rename_i other
    exact sees_pure ⟨fun _ string => absurd string other, fun _ => points.1⟩

/-- `memcmp` finds the value exactly if it stands in the text. -/
theorem take_nul_eq_iff (value : CString) {n : Nat} (same : n = value.nul) (s : Text) :
    (s ++ [0]).take n = value.bytes ↔ s.take n = value.bytes := by
  subst same
  by_cases short : value.nul ≤ s.length
  · rw [List.take_append_of_le_length short]
  · rw [List.take_of_length_le (l := s ++ [0]) (by rw [List.length_append]; simp; omega),
      List.take_of_length_le (l := s) (by omega)]
    constructor
    · intro whole
      exact absurd (whole ▸ List.mem_append_right s List.mem_cons_self) value.nonzero
    · intro whole
      have lengths := congrArg List.length whole
      simp only [nul] at short
      omega

theorem take_succ_eq_iff {s : Text} {v : Bytes} {c : UInt8} (some : c ≠ 0) :
    s.take (v.length + 1) = v ++ [c] ↔ s.take v.length = v ∧ peek (s.drop v.length) = c := by
  rw [← getElem?_eq_some_iff_peek some, List.take_add_one]
  constructor
  · intro whole
    have lengths := congrArg List.length whole
    have bound := s.length_take_le v.length
    cases last : s[v.length]? with
    | none =>
      rw [last, Option.toList_none, List.append_nil, List.length_append,
        List.length_singleton] at lengths
      omega
    | some d =>
      rw [last] at whole
      obtain ⟨same, tail⟩ := List.append_inj' whole rfl
      cases tail
      exact ⟨same, rfl⟩
  · rintro ⟨same, last⟩
    rw [same, last]
    rfl

theorem is_agrees (value : CString) (points : t.Points s pos) (fits : Comparable value s) :
    t.Agrees (t.is value pos) (Json.is value.bytes s) := by
  refine (skip_sees (by decide) points).bind ?_
  intro pos here
  refine (charAt_sees here).bind ?_
  rintro _ rfl
  rw [Json.is]
  rw [Comparable] at fits
  generalize Json.skip comma s = u at here fits ⊢
  by_cases string : peek u = quote
  · rw [if_neg (not_not.mpr string)]
    have next := here.tail (string ▸ by decide)
    have total := here.length
    have behind := next.length
    have room := fits string
    have compared : Sees (t.range (pos + 1) value.nul) fun text =>
        text = (u.tail ++ [0]).take value.nul := ⟨_, range_points next (by omega), rfl⟩
    refine compared.bind ?_
    rintro _ rfl
    have split : u.tail.take (value.bytes.length + 1) = value.bytes ++ [quote] ↔
        u.tail.take value.nul = value.bytes ∧ peek (u.tail.drop value.nul) = quote :=
      take_succ_eq_iff (by decide)
    by_cases found : u.tail.take value.nul = value.bytes
    · have long : value.nul ≤ u.tail.length := by
        have lengths := congrArg List.length found
        rw [List.length_take, ← nul] at lengths
        omega
      have there : t.Points (u.tail.drop value.nul) (pos + value.nul + 1) := by
        have moved := next.drop long
        rwa [Nat.add_right_comm] at moved
      rw [if_neg (not_not.mpr ((take_nul_eq_iff value rfl _).mpr found))]
      refine (charAt_sees there).bind ?_
      rintro _ rfl
      by_cases closes : peek (u.tail.drop value.nul) = quote
      · rw [if_neg (not_not.mpr closes), if_pos ⟨string, split.mpr ⟨found, closes⟩⟩]
        refine sees_pure ⟨rfl, ?_⟩
        have after := there.tail (closes ▸ by decide)
        rw [List.tail_drop, ← List.drop_one, List.drop_drop, Nat.add_comm 1] at after
        exact after
      · rw [if_pos closes, if_neg (fun both => closes (split.mp both.2).2)]
        exact sees_pure ⟨rfl, here⟩
    · rw [if_pos (mt (take_nul_eq_iff value rfl _).mp found),
        if_neg (fun both => found (split.mp both.2).1)]
      exact sees_pure ⟨rfl, here⟩
  · rw [if_pos string, if_neg (fun both => string both.1)]
    exact sees_pure ⟨rfl, here⟩

theorem is_overrun (value : CString) (points : t.Points s pos) (long : ¬Comparable value s) :
    t.is value pos = .error .overrun := by
  rw [Comparable, Classical.not_imp] at long
  obtain ⟨string, long⟩ := long
  obtain ⟨pos', skipped, here⟩ := skip_sees (c := comma) (by decide) points
  have total := here.length
  have beyond : t.range (pos' + 1) value.nul = .error .overrun := if_neg (by omega)
  rw [is, skipped]
  change (do if (← t.charAt pos') ≠ quote then _ else _) = _
  rw [charAt_points here]
  change (if peek (Json.skip comma s) ≠ quote then _ else _) = _
  rw [if_neg (not_not.mpr string), beyond]
  rfl

end CString

inductive Call where
  | storeobject | isnumeric | getnameid | is (value : CString) | storebinary (len : Nat)
  | storebinaryString | ishandle (size : Nat) | gethandle (size : Nat) | getint | getfloat
  | getvalue | enterarray | leavearray | enterobject | leaveobject

namespace CString
variable (t : CString)

def call (pos : Nat) : Call → Checked Nat
  | .storeobject => return (← t.storeobject pos).2
  | .isnumeric => return (← t.isnumeric pos).2
  | .getnameid => return (← t.getnameid pos).2
  | .is value => return (← t.is value pos).2
  | .storebinary len => return (← t.storebinary len pos).2
  | .storebinaryString => return (← t.storebinaryString pos).2
  | .ishandle size => return (← t.ishandle size pos).2
  | .gethandle size => return (← t.gethandle size pos).2
  | .getint => return (← t.getint pos).2
  | .getfloat => return (← t.getfloat pos).2
  | .getvalue => return (← t.getvalue pos).2
  | .enterarray => return (← t.enterarray pos).2
  | .leavearray => return (← t.leavearray pos).2
  | .enterobject => return (← t.enterobject pos).2
  | .leaveobject => return (← t.leaveobject pos).2

/-- A call is made at the cursor that the calls before it have left. -/
def step (cursor : Checked Nat) (call : Call) : Checked Nat := do t.call (← cursor) call

/-- No call has read behind the NUL, and the cursor is in the buffer unless a call does not
return. -/
def InBuffer : Checked Nat → Prop
  | .ok pos => pos ≤ t.nul
  | .error fault => fault = .endless

/-- The calls that stay in the buffer: a name at the cursor is closed and followed by another
character, and the buffer holds as many characters as a comparison takes. -/
def StaysInside : Checked Nat → Call → Prop
  | .ok pos, .getnameid => NameFollowed (t.suffix pos)
  | .ok pos, .is value => Comparable value (t.suffix pos)
  | _, _ => True

variable {t} {s : Text} {pos : Nat}

theorem Agrees.inBuffer {α : Type} {x : Checked (α × Nat)} {y : α × Text} (agrees : t.Agrees x y) :
    t.InBuffer (do return (← x).2) := by
  obtain ⟨r, rfl, -, points⟩ := agrees
  exact points.1

/-- A call leaves the cursor in the buffer exactly if it stays inside. -/
theorem inBuffer_step_iff {cursor : Checked Nat} (inside : t.InBuffer cursor) (call : Call) :
    t.InBuffer (t.step cursor call) ↔ t.StaysInside cursor call := by
  cases cursor with
  | error fault => exact ⟨fun _ => trivial, fun _ => inside⟩
  | ok pos =>
    have points := points_suffix inside
    cases call with
    | storeobject => exact iff_of_true (storeobject_agrees points).inBuffer trivial
    | isnumeric => exact iff_of_true (isnumeric_agrees points).inBuffer trivial
    | getnameid =>
      obtain ⟨r, read, exact_⟩ := getnameid_sees points
      rw [StaysInside, ← exact_]
      change t.InBuffer (do return (← t.getnameid pos).2) ↔ _
      rw [read]
      exact Iff.rfl
    | is value =>
      by_cases fits : Comparable value (t.suffix pos)
      · exact iff_of_true (is_agrees value points fits).inBuffer fits
      · refine iff_of_false ?_ fits
        change ¬t.InBuffer (do return (← t.is value pos).2)
        rw [is_overrun value points fits]
        intro same
        cases same
    | storebinary len => exact iff_of_true (storebinary_agrees len points).inBuffer trivial
    | storebinaryString =>
      refine iff_of_true ?_ trivial
      obtain ⟨r, read, bound⟩ := storebinaryString_sees points
      change t.InBuffer (do return (← t.storebinaryString pos).2)
      rw [read]
      exact bound
    | ishandle size => exact iff_of_true (ishandle_agrees size points).inBuffer trivial
    | gethandle size => exact iff_of_true (gethandle_agrees size points).inBuffer trivial
    | getint => exact iff_of_true (getint_agrees points).inBuffer trivial
    | getfloat =>
      refine iff_of_true ?_ trivial
      obtain ⟨r, read, after⟩ := getfloat_sees points
      change t.InBuffer (do return (← t.getfloat pos).2)
      rw [read]
      exact after.1
    | getvalue =>
      refine iff_of_true ?_ trivial
      obtain ⟨r, read, -, after⟩ := getvalue_sees points
      change t.InBuffer (do return (← t.getvalue pos).2)
      rw [read]
      exact after.1
    | enterarray => exact iff_of_true (enterarray_agrees points).inBuffer trivial
    | leavearray => exact iff_of_true (leavearray_agrees points).inBuffer trivial
    | enterobject => exact iff_of_true (enterobject_agrees points).inBuffer trivial
    | leaveobject =>
      refine iff_of_true ?_ trivial
      have agrees := leaveobject_agrees points
      cases left : Json.leaveobject (t.suffix pos) with
      | error fault =>
        rw [left] at agrees
        change t.InBuffer (do return (← t.leaveobject pos).2)
        rw [show t.leaveobject pos = .error .endless from agrees]
        exact rfl
      | ok y =>
        rw [left] at agrees
        exact Agrees.inBuffer agrees

/-- The scanner stays in its buffer through a sequence of calls exactly if every `getnameid` comes
to a name that is closed and followed by another character, and every `is` finds as many
characters as it compares. -/
theorem always_inBuffer_iff (t : CString) (calls : List Call) :
    Always t.step t.InBuffer (.ok 0) calls ↔ Meets t.step t.StaysInside (.ok 0) calls := by
  have start : t.InBuffer (.ok 0) := Nat.zero_le t.nul
  refine always_iff_meets ?_ start calls
  intro cursor call inside
  exact inBuffer_step_iff inside call

end CString

def truncated : CString := ⟨ascii "[\x7b\"h", by decide⟩

/-- The name at the end of the buffer takes the cursor two characters behind the NUL. -/
theorem truncated_leaves_buffer :
    ¬Always truncated.step truncated.InBuffer (.ok 0) [.enterarray, .enterobject, .getnameid] := by
  have left : truncated.step (truncated.step (truncated.step (.ok 0) .enterarray) .enterobject)
      .getnameid = .ok 6 := by rfl
  rintro ⟨-, -, -, inside⟩
  rw [Always, left] at inside
  have bound : 6 ≤ truncated.nul := inside
  exact absurd bound (by decide)

end MegaSdk.Json
