import MegaSdk.Base64

/-!
# The JSON scanner

json.cpp: a cursor that moves forward through a NUL-terminated text. The cursor is the
text from it on, without the terminating NUL, which is read as 0. An operation that
moves the cursor beyond the NUL, or that never returns, is a fault.
-/

namespace MegaSdk.Json

abbrev Text := Bytes

inductive Fault where
  | overrun | endless
  deriving DecidableEq, Repr

def quote : UInt8 := 34
def comma : UInt8 := 44
def minus : UInt8 := 45
def dot : UInt8 := 46
def colon : UInt8 := 58
def openArray : UInt8 := 91
def backslash : UInt8 := 92
def closeArray : UInt8 := 93
def openObject : UInt8 := 123
def closeObject : UInt8 := 125

/-- `*pos`. -/
def peek (s : Text) : UInt8 := s.headD 0

/-- `if (*pos == c) pos++`. -/
def skip (c : UInt8) (s : Text) : Text := if peek s = c then s.tail else s

/-- `if (*pos == ':' || *pos == ',') pos++`. -/
def skipSeparator (s : Text) : Text :=
  if peek s = colon ∨ peek s = comma then s.tail else s

/-- The rest of a number in `storeobject`. -/
def isNumberTail (c : UInt8) : Bool := isDigit c || c = dot || c = 101 || c = 69

/-- The text after the quote that ends a string literal. -/
def skipString (escaped : Bool) : Text → Option Text
  | [] => none
  | c :: rest =>
    if c = 0 then none
    else if c = quote && !escaped then some rest
    else skipString (c = backslash && !escaped) rest

/-- One round of the loop of `storeobject`: the open objects and arrays, fewer than 2^31 of each as
the source counts them in an `int`, and the cursor. -/
def advance : Int × Int × Text → Option (Int × Int × Text)
  | (_, _, []) => none
  | (objects, arrays, c :: rest) =>
    if c = openArray then some (objects, arrays + 1, rest)
    else if c = openObject then some (objects + 1, arrays, rest)
    else if c = closeArray then some (objects, arrays - 1, rest)
    else if c = closeObject then some (objects - 1, arrays, rest)
    else if c = quote then (skipString false rest).map fun after => (objects, arrays, after)
    else if isDigit c || c = minus || c = dot then
      some (objects, arrays, rest.dropWhile isNumberTail)
    else if c = colon || c = comma then some (objects, arrays, rest)
    else none

/-- The loop of `storeobject`: it ends when nothing is open, however that came about. -/
def scan : Nat → Int × Int × Text → Option Text
  | 0, _ => none
  | fuel + 1, state =>
    match advance state with
    | none => none
    | some (objects, arrays, rest) =>
      if objects = 0 ∧ arrays = 0 then some rest else scan fuel (objects, arrays, rest)

def skipBlanks (s : Text) : Text := skip comma (s.dropWhile fun c => 0 < c && c ≤ 32)

def between (s after : Text) : Bytes := s.take (s.length - after.length)

/-- `storeobject`: the stored text if it returns true, and the cursor. -/
def storeobject (s : Text) : Option Bytes × Text :=
  let pos := skipBlanks s
  match scan pos.length (0, 0, pos) with
  | none => (none, pos)
  | some after =>
    if peek pos = quote then (some (between pos after).tail.dropLast, after)
    else (some (between pos after), after)

def isnumeric (s : Text) : Bool × Text :=
  let pos := skip comma s
  (isDigit (peek (skip minus pos)), pos)

/-- `id = (id << 8) + *ptr`, with signed characters. -/
def pack (id : UInt64) (c : UInt8) : UInt64 :=
  id <<< 8 + (if c < 128 then c.toUInt64 else c.toUInt64 - 256)

/-- The characters of a name: up to a quote or the NUL. -/
def nameChars (s : Text) : Bytes := s.takeWhile fun c => c ≠ 0 && c ≠ quote

/-- `nameid` of a literal. -/
def nameid (name : Bytes) : UInt64 := name.foldl pack 0

/-- `getnameid`: the cursor moves behind the character after the closing quote. -/
def getnameid (s : Text) : Except Fault (UInt64 × Text) :=
  let ptr := skipSeparator s
  if peek ptr = quote then
    let name := nameChars ptr.tail
    let rest := ptr.tail.drop name.length
    if rest.length < 2 then .error .overrun else .ok (nameid name, rest.drop 2)
  else .ok (0, s)

def is (value : Bytes) (s : Text) : Bool × Text :=
  let pos := skip comma s
  if peek pos = quote ∧ pos.tail.take (value.length + 1) = value ++ [quote] then
    (true, pos.drop (value.length + 2))
  else (false, pos)

/-- `storebinary` with a buffer of `len` bytes. -/
def storebinary (len : Nat) (s : Text) : Bytes × Text :=
  let pos := skip comma s
  if peek pos = quote then (Base64.atob pos.tail len, (storeobject pos).2) else ([], pos)

def ishandle (size : Nat) (s : Text) : Bool × Text :=
  let pos := skip comma s
  let width := if size = 6 then 8 else 11
  (peek pos = quote && !(pos.take (width + 1)).contains 0 && pos[width + 1]? = some quote, pos)

/-- `UNDEF` is all ones; a handle of eight such bytes is taken for it. -/
def undef : Bytes := List.replicate 8 255

/-- The handle that a number of decoded bytes stands for, `none` for `UNDEF`. -/
def handleOf (size : Nat) (bytes : Bytes) : Option Bytes :=
  if bytes.length = size ∧ bytes ≠ undef then some bytes else none

def gethandle (size : Nat) (s : Text) : Option Bytes × Text :=
  let (bytes, pos) := storebinary 9 s
  (handleOf size bytes, pos)

/-- `getint`: a number or a string that starts like one; the cursor stays at anything else. -/
def getint (s : Text) : Int × Text :=
  let pos := skipSeparator s
  let ptr := skip quote pos
  if isDigit (peek ptr) ∨ peek ptr = minus then (atoll ptr, (storeobject pos).2) else (-1, pos)

/-- `getfloat`: the text that `atof` converts. -/
def getfloat (s : Text) : Option Bytes × Text :=
  let pos := skipSeparator s
  if isDigit (peek pos) ∨ peek pos = minus ∨ peek pos = dot then storeobject pos else (none, pos)

/-- The pointer that `getvalue` returns. -/
def payload (s : Text) : Text := skip quote (skipSeparator s)

/-- `getvalue`: what the returned pointer points to, up to the next quote. -/
def getvalue (s : Text) : Bytes × Text :=
  (nameChars (payload s), (storeobject (skipSeparator s)).2)

def enterarray (s : Text) : Bool × Text :=
  let pos := skip comma s
  if peek pos = openArray then (true, pos.tail) else (false, pos)

def leavearray (s : Text) : Bool × Text :=
  if peek s = closeArray then (true, s.tail) else (false, s)

def enterobject (s : Text) : Bool × Text :=
  let pos := skip comma (skip closeObject s)
  if peek pos = openObject then (true, pos.tail) else (false, pos)

/-- The characters with which `leaveobject` expects a value to start. -/
def startsValue (c : UInt8) : Bool :=
  c = quote || isDigit c || c = minus || c = openArray || c = openObject

/-- The loop of `leaveobject`; a value that `storeobject` rejects is tried forever. -/
def skipRemainder : Nat → Text → Except Fault Text
  | 0, _ => .error .endless
  | fuel + 1, s =>
    if peek s = colon ∨ peek s = comma then skipRemainder fuel s.tail
    else if startsValue (peek s) then
      match storeobject s with
      | (none, _) => .error .endless
      | (some _, rest) => skipRemainder fuel rest
    else .ok s

def leaveobject (s : Text) : Except Fault (Bool × Text) :=
  match skipRemainder (s.length + 1) s with
  | .error fault => .error fault
  | .ok pos => if peek pos = closeObject then .ok (true, pos.tail) else .ok (false, pos)

end MegaSdk.Json
