import MegaSdk.Types
import Mathlib.Data.List.Induction

/-!
# Local and remote names

filesystem.cpp: characters that local file systems do not allow are written as `%xx`, and
such sequences are read back as the character. The loops run over the name from the right
and replace in place. The local encoding is that of the path, and names are normalised.
-/

namespace MegaSdk.Sync

def percent : UInt8 := 37

def islchex (c : UInt8) : Bool := (48 ≤ c && c ≤ 57) || (97 ≤ c && c ≤ 102)

def islocalfscompatible (c : UInt8) : Bool := 32 ≤ c && !(ascii "\\/:?\"<>|*").contains c

/-- `%%%02x`. -/
def percentEscape (c : UInt8) : Bytes := [percent, hexDigit (c >>> 4), hexDigit (c &&& 15)]

/-- The body of the loop of `escapefsincompatible`. -/
def escapeAt (name : Bytes) (i : Nat) : Bytes :=
  let c := name.getD i 0
  if islocalfscompatible c then name else name.take i ++ percentEscape c ++ name.drop (i + 1)

def escapeFrom : Nat → Bytes → Bytes
  | 0, name => name
  | i + 1, name => escapeFrom i (escapeAt name i)

def escapefsincompatible (name : Bytes) : Bytes := escapeFrom name.length name

/-- The body of the loop of `unescapefsincompatible`; the character behind the last one is
the NUL. -/
def unescapeAt (name : Bytes) (i : Nat) : Bytes :=
  let high := name.getD (i + 1) 0
  let low := name.getD (i + 2) 0
  if name.getD i 0 = percent && islchex high && islchex low then
    let c := hexval high <<< 4 + hexval low
    if islocalfscompatible c then name else name.take i ++ [c] ++ name.drop (i + 3)
  else name

def unescapeFrom : Nat → Bytes → Bytes
  | 0, name => name
  | i + 1, name => unescapeFrom i (unescapeAt name i)

def unescapefsincompatible (name : Bytes) : Bytes := unescapeFrom (name.length - 2) name

/-- `path2local` and `local2path`. -/
def path2local (path : Bytes) : Bytes := path

def local2path (name : Bytes) : Bytes := name

def name2local (filename : Bytes) : Bytes := path2local (escapefsincompatible filename)

def local2name (filename : Bytes) : Bytes := unescapefsincompatible (local2path filename)

/-- What `addchild` compares of a remote node. -/
structure RemoteChild where
  id : Nat
  mtime : Int
  size : Int
  crc : Bytes
  deriving DecidableEq, Repr

/-- `memcmp(..) > 0`. -/
def memcmpGreater : Bytes → Bytes → Bool
  | a :: as, b :: bs => if a = b then memcmpGreater as bs else b < a
  | _, _ => false

/-- The name under which `addchild` files a node. -/
def childKey (name : Bytes) : Bytes :=
  if name.contains percent then local2name (path2local name) else name

/-- Whether a node replaces the one filed under its name. -/
def prefers (n old : RemoteChild) : Bool :=
  n.mtime > old.mtime || (n.mtime = old.mtime && n.size > old.size) ||
    (n.mtime = old.mtime && n.size = old.size && memcmpGreater n.crc old.crc)

def addchild (nchildren : Bytes → Option RemoteChild) (name : Bytes) (n : RemoteChild) :
    Bytes → Option RemoteChild := fun key =>
  if key = childKey name then
    match nchildren key with
    | none => some n
    | some old => if prefers n old then some n else some old
  else nchildren key

/-- What the escaping loop puts in the place of a character. -/
def escapeChar (c : UInt8) : Bytes := if islocalfscompatible c then [c] else percentEscape c

theorem escapeAt_append (front : Bytes) (c : UInt8) (back : Bytes) :
    escapeAt (front ++ c :: back) front.length = front ++ (escapeChar c ++ back) := by
  have here : (front ++ c :: back).getD front.length 0 = c := by simp
  rw [escapeAt, here, escapeChar]
  split
  · rfl
  · simp

theorem escapeFrom_append (front back : Bytes) :
    escapeFrom front.length (front ++ back) = front.flatMap escapeChar ++ back := by
  induction front using List.reverseRecOn generalizing back with
  | nil => rfl
  | append_singleton front c ih =>
    rw [List.length_append, List.length_singleton, List.append_assoc, List.singleton_append,
      escapeFrom, escapeAt_append, ih, List.flatMap_append, List.flatMap_singleton,
      List.append_assoc]

theorem escapefsincompatible_eq (name : Bytes) :
    escapefsincompatible name = name.flatMap escapeChar := by
  simpa [escapefsincompatible] using escapeFrom_append name []

/-- What the unescaping loop makes of a character and the finished text behind it. -/
def unescapeStep (c : UInt8) (back : Bytes) : Bytes :=
  let high := back.getD 0 0
  let low := back.getD 1 0
  if c = percent && islchex high && islchex low &&
      !islocalfscompatible (hexval high <<< 4 + hexval low) then
    (hexval high <<< 4 + hexval low) :: back.drop 2
  else c :: back

theorem unescapeAt_append (front : Bytes) (c : UInt8) (back : Bytes) :
    unescapeAt (front ++ c :: back) front.length = front ++ unescapeStep c back := by
  have here : (front ++ c :: back).getD front.length 0 = c := by simp
  have high : (front ++ c :: back).getD (front.length + 1) 0 = back.getD 0 0 := by
    simp [List.getElem?_append_right]
  have low : (front ++ c :: back).getD (front.length + 2) 0 = back.getD 1 0 := by
    simp [List.getElem?_append_right]
  have behind : (front ++ c :: back).drop (front.length + 3) = back.drop 2 := by
    simp [List.drop_append]
  simp only [unescapeAt, here, high, low, unescapeStep, behind, List.take_left]
  by_cases found : (c = percent && islchex (back.getD 0 0) && islchex (back.getD 1 0)) = true
  · by_cases allowed : islocalfscompatible
        (hexval (back.getD 0 0) <<< 4 + hexval (back.getD 1 0)) = true
    · simp only [found, allowed, if_true, Bool.not_true, Bool.and_false, Bool.false_eq_true,
        if_false]
    · simp only [found, allowed, if_true, Bool.not_false, Bool.and_true, Bool.false_eq_true,
        if_false, List.append_assoc, List.singleton_append]
  · simp only [found, Bool.false_and, Bool.false_eq_true, if_false]

theorem unescapeFrom_append (front back : Bytes) :
    unescapeFrom front.length (front ++ back) = front.foldr unescapeStep back := by
  induction front using List.reverseRecOn generalizing back with
  | nil => rfl
  | append_singleton front c ih =>
    rw [List.length_append, List.length_singleton, List.append_assoc, List.singleton_append,
      unescapeFrom, unescapeAt_append, ih, List.foldr_append]
    rfl

theorem unescapeStep_short (c : UInt8) {back : Bytes} (short : back.length ≤ 1) :
    unescapeStep c back = c :: back := by
  have missing : back.getD 1 0 = 0 := by
    simp only [List.getD_eq_getElem?_getD]
    rw [List.getElem?_eq_none short]
    rfl
  have nul : islchex 0 = false := by decide
  simp only [unescapeStep, missing, nul, Bool.and_false, Bool.false_and, Bool.false_eq_true,
    if_false]

/-- The loop starts with the third character from the right, the first one that can start a
sequence. -/
theorem unescapefsincompatible_eq (name : Bytes) :
    unescapefsincompatible name = name.foldr unescapeStep [] := by
  have front : (name.take (name.length - 2)).length = name.length - 2 := by simp
  have back : (name.drop (name.length - 2)).foldr unescapeStep [] =
      name.drop (name.length - 2) := by
    have short : (name.drop (name.length - 2)).length ≤ 2 := by
      rw [List.length_drop]
      omega
    match name.drop (name.length - 2), short with
    | [], _ => rfl
    | [a], _ => exact unescapeStep_short a (by simp)
    | [a, b], _ =>
      rw [List.foldr_cons, List.foldr_cons, List.foldr_nil, unescapeStep_short b (by simp),
        unescapeStep_short a (by simp)]
  have loop := unescapeFrom_append (name.take (name.length - 2)) (name.drop (name.length - 2))
  rw [front, List.take_append_drop] at loop
  rw [unescapefsincompatible, loop]
  conv_rhs => rw [← List.take_append_drop (name.length - 2) name, List.foldr_append, back]

theorem unescapeStep_plain {c : UInt8} (plain : c ≠ percent) (back : Bytes) :
    unescapeStep c back = c :: back := by
  simp [unescapeStep, plain]

/-- Either nothing happens, or a character that is not allowed takes the place of a
sequence. -/
theorem unescapeStep_cases (c : UInt8) (back : Bytes) :
    unescapeStep c back = c :: back ∨
      ∃ d, islocalfscompatible d = false ∧ unescapeStep c back = d :: back.drop 2 := by
  rw [unescapeStep]
  split
  · rename_i found
    simp only [Bool.and_eq_true, Bool.not_eq_true'] at found
    exact .inr ⟨_, found.2, rfl⟩
  · exact .inl rfl

theorem percent_compatible : islocalfscompatible percent = true := by decide

theorem ne_percent {d : UInt8} (refused : islocalfscompatible d = false) : d ≠ percent := by
  rintro rfl
  exact absurd percent_compatible (by rw [refused]; decide)

theorem hexDigit_compatible : ∀ n : UInt8, n < 16 → islocalfscompatible (hexDigit n) = true ∧
    islchex (hexDigit n) = true ∧ hexDigit n ≠ percent := forall_nibble (by decide +kernel)

theorem escapeChar_compatible (c d : UInt8) (written : d ∈ escapeChar c) :
    islocalfscompatible d = true := by
  rw [escapeChar] at written
  split at written
  · rename_i compatible
    exact List.mem_singleton.mp written ▸ compatible
  · simp only [percentEscape, List.mem_cons, List.not_mem_nil, or_false] at written
    rcases written with rfl | rfl | rfl
    · exact percent_compatible
    · exact (hexDigit_compatible _ (high_lt c)).1
    · exact (hexDigit_compatible _ (low_lt c)).1

/-- An escaped character is read back, whatever follows. -/
theorem foldr_percentEscape {c : UInt8} (refused : islocalfscompatible c = false) (back : Bytes) :
    (percentEscape c).foldr unescapeStep back = c :: back := by
  have joined : ∀ c : UInt8, (c >>> 4) <<< 4 + (c &&& 15) = c := forall_byte (by decide +kernel)
  obtain ⟨-, first, high⟩ := hexDigit_compatible _ (high_lt c)
  obtain ⟨-, second, low⟩ := hexDigit_compatible _ (low_lt c)
  have value : hexval (hexDigit (c >>> 4)) <<< 4 + hexval (hexDigit (c &&& 15)) = c := by
    rw [hexval_hexDigit (high_lt c), hexval_hexDigit (low_lt c), joined]
  rw [percentEscape, List.foldr_cons, List.foldr_cons, List.foldr_cons, List.foldr_nil,
    unescapeStep_plain low, unescapeStep_plain high]
  simp [unescapeStep, first, second, value, refused]

/-- Escaping does not change what unescaping gives. -/
theorem unescape_escape (name : Bytes) :
    (name.flatMap escapeChar).foldr unescapeStep [] = name.foldr unescapeStep [] := by
  induction name with
  | nil => rfl
  | cons c rest ih =>
    rw [List.flatMap_cons, List.foldr_append, ih, List.foldr_cons, escapeChar]
    split
    · rfl
    · rename_i refused
      have refused : islocalfscompatible c = false := by simpa using refused
      rw [foldr_percentEscape refused, unescapeStep_plain (ne_percent refused)]

/-- Unescaping leaves the rest of a settled text settled. -/
theorem settled_tail {c : UInt8} {rest : Bytes}
    (settled : (c :: rest).foldr unescapeStep [] = c :: rest) :
    rest.foldr unescapeStep [] = rest := by
  rw [List.foldr_cons] at settled
  rcases unescapeStep_cases c (rest.foldr unescapeStep []) with same | ⟨d, refused, replaced⟩
  · rw [same] at settled
    exact (List.cons.inj settled).2
  · rw [replaced] at settled
    obtain ⟨rfl, tail⟩ := List.cons.inj settled
    rw [unescapeStep_plain (ne_percent refused)] at replaced
    exact (List.cons.inj replaced).2.trans tail

theorem settled_drop {text : Bytes} (settled : text.foldr unescapeStep [] = text) (n : Nat) :
    (text.drop n).foldr unescapeStep [] = text.drop n := by
  induction n generalizing text with
  | zero => exact settled
  | succ n ih =>
    cases text with
    | nil => rfl
    | cons c rest => exact ih (settled_tail settled)

/-- One round of unescaping leaves nothing to unescape. -/
theorem unescape_settled (name : Bytes) :
    (name.foldr unescapeStep []).foldr unescapeStep [] = name.foldr unescapeStep [] := by
  induction name with
  | nil => rfl
  | cons c rest ih =>
    rw [List.foldr_cons]
    rcases unescapeStep_cases c (rest.foldr unescapeStep []) with same | ⟨d, refused, replaced⟩
    · rw [same, List.foldr_cons, ih, same]
    · rw [replaced, List.foldr_cons, settled_drop ih, unescapeStep_plain (ne_percent refused)]

theorem unescape_plain {name : Bytes} (plain : percent ∉ name) :
    name.foldr unescapeStep [] = name := by
  induction name with
  | nil => rfl
  | cons c rest ih =>
    have other : c ≠ percent := by
      rintro rfl
      exact plain List.mem_cons_self
    rw [List.foldr_cons, ih fun mem => plain (List.mem_cons_of_mem _ mem),
      unescapeStep_plain other]

theorem local2name_name2local (name : Bytes) :
    local2name (name2local name) = unescapefsincompatible name := by
  rw [local2name, local2path, name2local, path2local, unescapefsincompatible_eq,
    escapefsincompatible_eq, unescape_escape, unescapefsincompatible_eq]

theorem childKey_eq (name : Bytes) : childKey name = unescapefsincompatible name := by
  rw [childKey, local2name, local2path, path2local]
  split
  · rfl
  · rename_i plain
    rw [unescapefsincompatible_eq, unescape_plain (by simpa using plain)]

theorem unescapefsincompatible_idem (name : Bytes) :
    unescapefsincompatible (unescapefsincompatible name) = unescapefsincompatible name := by
  simp only [unescapefsincompatible_eq, unescape_settled]

theorem addchild_filed (nchildren : Bytes → Option RemoteChild) (name : Bytes) (n : RemoteChild) :
    (addchild nchildren name n (childKey name)).isSome := by
  rw [addchild, if_pos rfl]
  split
  · rfl
  · split <;> rfl

/-- A name that goes down as a local name comes back as the name under which the remote
child is filed. -/
theorem names_agree (x : Bytes) :
    (∀ c ∈ name2local x, islocalfscompatible c) ∧
      local2name (name2local x) = childKey x ∧
      (childKey x = if percent ∈ x then unescapefsincompatible x else x) ∧
      unescapefsincompatible (unescapefsincompatible x) = unescapefsincompatible x ∧
      local2name (name2local (unescapefsincompatible x)) = unescapefsincompatible x ∧
      ∀ nchildren n, (addchild nchildren x n (local2name (name2local x))).isSome := by
  have key : local2name (name2local x) = childKey x := by
    rw [local2name_name2local, childKey_eq]
  refine ⟨?_, key, ?_, unescapefsincompatible_idem x, ?_, fun nchildren n => ?_⟩
  · intro c mem
    rw [name2local, path2local, escapefsincompatible_eq] at mem
    obtain ⟨d, -, written⟩ := List.mem_flatMap.mp mem
    exact escapeChar_compatible d c written
  · simp only [childKey, local2name, local2path, path2local, List.contains_iff_mem]
  · rw [local2name_name2local, unescapefsincompatible_idem]
  · rw [key]
    exact addchild_filed nchildren x n

example : local2name (name2local (ascii "50%/%2f\n%41")) = ascii "50%//\n%41" := by
  decide +kernel

end MegaSdk.Sync
