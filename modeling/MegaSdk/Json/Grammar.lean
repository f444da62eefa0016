import MegaSdk.Json.Scanner
import Mathlib.Logic.Relation
import Mathlib.Algebra.Order.Ring.Int

/-!
# Well-formed JSON texts

The values the server sends, as texts without blanks: string literals with arbitrary
escapes, numbers with an optional minus and an unsigned exponent, arrays and objects.
`storeobject` consumes exactly one such value.
-/

namespace MegaSdk.Json

/-- No unescaped quote, no NUL and no unfinished escape. -/
def literalFrom : Bool → Bytes → Bool
  | escaped, [] => !escaped
  | escaped, c :: rest =>
    c ≠ 0 && !(c = quote && !escaped) && literalFrom (c = backslash && !escaped) rest

def isLiteral (content : Bytes) : Bool := literalFrom false content

def isNumber : Bytes → Bool
  | [] => false
  | c :: rest =>
    if c = minus then
      match rest with
      | [] => false
      | d :: tail => isDigit d && tail.all isNumberTail
    else isDigit c && rest.all isNumberTail

def str (content : Bytes) : Bytes := quote :: (content ++ [quote])

def commas (items : List Bytes) : Bytes := items.flatMap (comma :: ·)

def separated : List Bytes → Bytes
  | [] => []
  | x :: xs => x ++ commas xs

@[simp]
theorem commas_nil : commas [] = [] := rfl

@[simp]
theorem commas_cons (x : Bytes) (xs : List Bytes) :
    commas (x :: xs) = comma :: (x ++ commas xs) := by
  simp [commas]

def array (items : List Bytes) : Bytes := openArray :: (separated items ++ [closeArray])

/-- A member of an object: its name and the text of its value. -/
abbrev Member := Bytes × Bytes

def member (m : Member) : Bytes := str m.1 ++ colon :: m.2

def object (members : List Member) : Bytes :=
  openObject :: (separated (members.map member) ++ [closeObject])

inductive IsValue : Bytes → Prop
  | str {content : Bytes} (literal : isLiteral content) : IsValue (str content)
  | num {text : Bytes} (number : isNumber text) : IsValue text
  | arr {items : List Bytes} (values : ∀ x ∈ items, IsValue x) : IsValue (array items)
  | obj {members : List Member} (names : ∀ m ∈ members, isLiteral m.1)
      (values : ∀ m ∈ members, IsValue m.2) : IsValue (object members)

/-- The text that follows does not extend a number. -/
def Ends (rest : Text) : Prop := isNumberTail (peek rest) = false

theorem skipString_literal {escaped : Bool} {content : Bytes}
    (literal : literalFrom escaped content) (rest : Text) :
    skipString escaped (content ++ quote :: rest) = some rest := by
  induction content generalizing escaped with
  | nil =>
    have closed : escaped = false := by simpa [literalFrom] using literal
    simp [skipString, closed, show quote ≠ 0 by decide]
  | cons c content ih =>
    simp only [literalFrom, Bool.and_eq_true, decide_eq_true_eq, Bool.not_eq_true'] at literal
    obtain ⟨⟨nonzero, plain⟩, tail⟩ := literal
    rw [List.cons_append, skipString, if_neg nonzero, if_neg (by simp [plain])]
    exact ih tail

theorem dropWhile_numberTail {text : Bytes} (digits : text.all isNumberTail) {rest : Text}
    (ends : Ends rest) : (text ++ rest).dropWhile isNumberTail = rest := by
  induction text with
  | nil =>
    cases rest with
    | nil => rfl
    | cons c rest => exact List.dropWhile_cons_of_neg (by simpa [Ends, peek] using ends)
  | cons c text ih =>
    rw [List.all_cons, Bool.and_eq_true] at digits
    rw [List.cons_append, List.dropWhile_cons_of_pos digits.1]
    exact ih digits.2

/-- Something is open, and nothing was closed more often than opened. -/
def Inside (objects arrays : Int) : Prop := 0 ≤ objects ∧ 0 ≤ arrays ∧ 0 < objects + arrays

/-- A round of the loop of `storeobject` after which something is open. -/
def Round (x y : Int × Int × Text) : Prop := advance x = some y ∧ Inside y.1 y.2.1

abbrev Rounds := Relation.ReflTransGen Round

theorem length_dropWhile_lt (p : UInt8 → Bool) (c : UInt8) (rest : Text) :
    (rest.dropWhile p).length < (c :: rest).length :=
  Nat.lt_succ_of_le (List.dropWhile_suffix p).length_le

theorem length_skipString {escaped : Bool} {s after : Text}
    (skipped : skipString escaped s = some after) : after.length < s.length := by
  induction s generalizing escaped with
  | nil => cases skipped
  | cons c rest ih =>
    rw [skipString] at skipped
    split at skipped
    · cases skipped
    · split at skipped
      · cases skipped
        exact Nat.lt_succ_self _
      · exact Nat.lt_succ_of_lt (ih skipped)

/-- Every round consumes at least one character. -/
theorem length_advance {x y : Int × Int × Text} (round : advance x = some y) :
    y.2.2.length < x.2.2.length := by
  obtain ⟨objects, arrays, s⟩ := x
  cases s with
  | nil => cases round
  | cons c rest =>
    rw [advance] at round
    split at round
    · cases round
      exact Nat.lt_succ_self _
    split at round
    · cases round
      exact Nat.lt_succ_self _
    split at round
    · cases round
      exact Nat.lt_succ_self _
    split at round
    · cases round
      exact Nat.lt_succ_self _
    split at round
    · obtain ⟨after, skipped, rfl⟩ := Option.map_eq_some_iff.mp round
      exact Nat.lt_succ_of_lt (length_skipString skipped)
    split at round
    · cases round
      exact length_dropWhile_lt isNumberTail c rest
    split at round
    · cases round
      exact Nat.lt_succ_self _
    · cases round

/-- The loop ends when the last open container is closed. -/
theorem scan_of_rounds {x y : Int × Int × Text} (rounds : Rounds x y) {rest : Text}
    (last : advance y = some (0, 0, rest)) {fuel : Nat} (enough : x.2.2.length ≤ fuel) :
    scan fuel x = some rest := by
  induction rounds using Relation.ReflTransGen.head_induction_on generalizing fuel with
  | refl =>
    have shorter := length_advance last
    obtain ⟨fuel, rfl⟩ : ∃ f, fuel = f + 1 := ⟨fuel - 1, by omega⟩
    simp [scan, last]
  | @head x z round _ ih =>
    have shorter := length_advance round.1
    obtain ⟨fuel, rfl⟩ : ∃ f, fuel = f + 1 := ⟨fuel - 1, by omega⟩
    have inside : ¬(z.1 = 0 ∧ z.2.1 = 0) := by
      have some := round.2.2.2
      omega
    simp only [scan, round.1]
    rw [if_neg inside]
    exact ih (by omega)

section Advance
variable {objects arrays : Int} {rest : Text}

theorem advance_str {content : Bytes} (literal : isLiteral content) :
    advance (objects, arrays, str content ++ rest) = some (objects, arrays, rest) := by
  have skipped := skipString_literal literal rest
  have text : str content ++ rest = quote :: (content ++ quote :: rest) := by simp [str]
  rw [text, advance, skipped]
  rfl

/-- The first character selects the branch, the rest is skipped at once. -/
theorem advance_digits {c : UInt8} {tail : Bytes} (starts : isDigit c || c = minus)
    (digits : tail.all isNumberTail) (ends : Ends rest) :
    advance (objects, arrays, (c :: tail) ++ rest) = some (objects, arrays, rest) := by
  have other : ¬c = openArray ∧ ¬c = openObject ∧ ¬c = closeArray ∧ ¬c = closeObject ∧
      ¬c = quote := by
    refine ⟨?_, ?_, ?_, ?_, ?_⟩ <;> (rintro rfl; revert starts; decide)
  obtain ⟨o1, o2, o3, o4, o5⟩ := other
  rw [List.cons_append, advance, if_neg o1, if_neg o2, if_neg o3, if_neg o4, if_neg o5,
    if_pos (by simp only [Bool.or_eq_true] at starts ⊢; exact .inl starts),
    dropWhile_numberTail digits ends]

theorem advance_num {text : Bytes} (number : isNumber text) (ends : Ends rest) :
    advance (objects, arrays, text ++ rest) = some (objects, arrays, rest) := by
  cases text with
  | nil => cases number
  | cons c text =>
    simp only [isNumber] at number
    split at number
    · rename_i negative
      cases text with
      | nil => cases number
      | cons d tail =>
        simp only [Bool.and_eq_true] at number
        refine advance_digits (by simp [negative]) ?_ ends
        rw [List.all_cons, Bool.and_eq_true]
        exact ⟨by simp [isNumberTail, number.1], number.2⟩
    · rw [Bool.and_eq_true] at number
      exact advance_digits (by simp [number.1]) number.2 ends

theorem advance_comma :
    advance (objects, arrays, comma :: rest) = some (objects, arrays, rest) := rfl

theorem advance_colon :
    advance (objects, arrays, colon :: rest) = some (objects, arrays, rest) := rfl

theorem advance_openArray :
    advance (objects, arrays, openArray :: rest) = some (objects, arrays + 1, rest) := rfl

theorem advance_closeArray :
    advance (objects, arrays, closeArray :: rest) = some (objects, arrays - 1, rest) := rfl

theorem advance_openObject :
    advance (objects, arrays, openObject :: rest) = some (objects + 1, arrays, rest) := rfl

theorem advance_closeObject :
    advance (objects, arrays, closeObject :: rest) = some (objects - 1, arrays, rest) := rfl

end Advance

/-- The loop passes over a text inside a container and keeps the counters. -/
def Passes (text : Bytes) : Prop :=
  ∀ {objects arrays : Int} {rest : Text}, Inside objects arrays → Ends rest →
    Rounds (objects, arrays, text ++ rest) (objects, arrays, rest)

theorem passes_of_advance {text : Bytes}
    (round : ∀ {objects arrays : Int} {rest : Text}, Ends rest →
      advance (objects, arrays, text ++ rest) = some (objects, arrays, rest)) : Passes text :=
  fun inside ends => .single ⟨round ends, inside⟩

theorem ends_commas {items : List Bytes} {rest : Text} (ends : Ends rest) :
    Ends (commas items ++ rest) := by
  cases items with
  | nil => exact ends
  | cons x xs => rw [commas_cons]; rfl

theorem passes_commas {items : List Bytes} (each : ∀ x ∈ items, Passes x) :
    Passes (commas items) := by
  intro objects arrays rest inside ends
  induction items with
  | nil => exact .refl
  | cons x xs ih =>
    rw [commas_cons, List.cons_append, List.append_assoc]
    refine .head ⟨advance_comma, inside⟩ ?_
    refine .trans (each x List.mem_cons_self inside (ends_commas ends)) ?_
    exact ih fun y mem => each y (List.mem_cons_of_mem x mem)

theorem passes_separated {items : List Bytes} (each : ∀ x ∈ items, Passes x) :
    Passes (separated items) := by
  intro objects arrays rest inside ends
  cases items with
  | nil => exact .refl
  | cons x xs =>
    rw [separated, List.append_assoc]
    refine .trans (each x List.mem_cons_self inside (ends_commas ends)) ?_
    exact passes_commas (fun y mem => each y (List.mem_cons_of_mem x mem)) inside ends

theorem passes_member {m : Member} (name : isLiteral m.1) (value : Passes m.2) :
    Passes (member m) := by
  intro objects arrays rest inside ends
  rw [member, List.append_assoc, List.cons_append]
  refine .head ⟨advance_str name, inside⟩ ?_
  refine .head ⟨advance_colon, inside⟩ ?_
  exact value inside ends

/-- The rounds inside a container, up to the bracket that closes it. -/
theorem rounds_array {items : List Bytes} (each : ∀ x ∈ items, Passes x) {objects arrays : Int}
    {rest : Text} (inside : Inside objects (arrays + 1)) :
    Rounds (objects, arrays, array items ++ rest) (objects, arrays + 1, closeArray :: rest) := by
  rw [array, List.cons_append, List.append_assoc]
  refine .head ⟨advance_openArray, inside⟩ ?_
  exact passes_separated each inside rfl

theorem rounds_object {members : List Member} (names : ∀ m ∈ members, isLiteral m.1)
    (each : ∀ m ∈ members, Passes m.2) {objects arrays : Int} {rest : Text}
    (inside : Inside (objects + 1) arrays) :
    Rounds (objects, arrays, object members ++ rest)
      (objects + 1, arrays, closeObject :: rest) := by
  rw [object, List.cons_append, List.append_assoc]
  refine .head ⟨advance_openObject, inside⟩ ?_
  refine passes_separated ?_ inside rfl
  intro x listed
  obtain ⟨m, mem, rfl⟩ := List.mem_map.mp listed
  exact passes_member (names m mem) (each m mem)

theorem passes_value {v : Bytes} (value : IsValue v) : Passes v := by
  induction value with
  | str literal => exact passes_of_advance fun _ => advance_str literal
  | num number => exact passes_of_advance fun ends => advance_num number ends
  | arr _ ih =>
    intro objects arrays rest inside ends
    have deeper : Inside objects (arrays + 1) := by
      obtain ⟨o, a, some⟩ := inside
      exact ⟨o, by omega, by omega⟩
    refine .tail (rounds_array ih deeper) ⟨?_, inside⟩
    rw [advance_closeArray, add_sub_cancel_right]
  | obj names _ ih =>
    intro objects arrays rest inside ends
    have deeper : Inside (objects + 1) arrays := by
      obtain ⟨o, a, some⟩ := inside
      exact ⟨by omega, a, by omega⟩
    refine .tail (rounds_object names ih deeper) ⟨?_, inside⟩
    rw [advance_closeObject, add_sub_cancel_right]

/-- The loop of `storeobject` consumes exactly one value; only a number needs a text behind it
that does not extend it. -/
theorem scan_value {v : Bytes} (value : IsValue v) {rest : Text}
    (ends : isNumber v → Ends rest) {fuel : Nat} (enough : (v ++ rest).length ≤ fuel) :
    scan fuel (0, 0, v ++ rest) = some rest := by
  cases value with
  | str literal => exact scan_of_rounds .refl (advance_str literal) enough
  | num number => exact scan_of_rounds .refl (advance_num number (ends number)) enough
  | arr values =>
    have rounds := @rounds_array _ (fun x mem => passes_value (values x mem)) 0 0 rest
      ⟨by omega, by omega, by omega⟩
    exact scan_of_rounds rounds advance_closeArray enough
  | obj names values =>
    have rounds := @rounds_object _ names (fun m mem => passes_value (values m mem)) 0 0 rest
      ⟨by omega, by omega, by omega⟩
    exact scan_of_rounds rounds advance_closeObject enough

end MegaSdk.Json
