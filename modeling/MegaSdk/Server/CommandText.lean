import MegaSdk.Json.Decimals
import MegaSdk.Json.Members
import MegaSdk.Lib.ByteOrder
import MegaSdk.Lib.Writers
import Mathlib.Logic.Function.Basic

/-!
# The texts of commands

command.cpp: a `Command` writes its arguments into a JSON text, member by member. Commas are
put by two rules: in objects and between containers by the last character of the text, between
the elements of an array by a flag for each level of nesting. An access outside of the array of
these flags is `none`.
-/

namespace MegaSdk.Server

open Json Writers

/-- The members of `Command` that its text is written with. -/
structure CommandText where
  json : Bytes
  level : Int
  levels : Int → UInt8

/-- `Command::Command`; the flags are not initialised. -/
def CommandText.start (levels : Int → UInt8) : CommandText := ⟨[], -1, levels⟩

namespace CommandText

abbrev Write := Writers.Writer CommandText

/-- `json.append`, and `appendraw`. -/
def append (text : Bytes) : Write := fun b => some { b with json := b.json ++ text }

/-- What `strchr("[{", c)` finds, the NUL of that string included. -/
def opens (c : UInt8) : Bool := c = openArray || c = openObject || c = 0

def addcomma : Write := fun b =>
  match b.json.getLast? with
  | none => some b
  | some c => if opens c then some b else append [comma] b

def maxDepth : Int := 8

def openobject : Write := fun b =>
  if 0 ≤ b.level + 1 ∧ b.level + 1 < maxDepth then
    some { b with level := b.level + 1, levels := Function.update b.levels (b.level + 1) 0 }
  else none

def closeobject : Write := fun b => some { b with level := b.level - 1 }

/-- `elements`: whether the level has an element already. -/
def elements (b : CommandText) : Option (Bool × CommandText) :=
  if 0 ≤ b.level ∧ b.level < maxDepth then
    if b.levels b.level = 0 then
      some (false, { b with levels := Function.update b.levels b.level 1 })
    else some (true, b)
  else none

def cmd (name : String) : Write := append (ascii "\"a\":\"" ++ ascii name ++ ascii "\"")

def notself (sessionid : Bytes) : Write := append (ascii ",\"i\":\"" ++ sessionid ++ ascii "\"")

/-- `arg`, with quotes around the value unless they are turned off. -/
def arg (name : String) (value : Bytes) (quotes : Bool) : Write :=
  addcomma >=> append (ascii "\"" ++ ascii name ++
    (if quotes then ascii "\":\"" else ascii "\":") ++ value ++ if quotes then ascii "\"" else [])

/-- `arg` for a string. -/
def argString (name : String) (value : Bytes) : Write := arg name value true

/-- `arg` for binary data. -/
def argBinary (name : String) (value : Bytes) : Write := arg name (Base64.btoa value) true

/-- `arg` for an integer. -/
def argInt (name : String) (n : Int) : Write := arg name (signedDecimal n) false

/-- `arg` for the low bytes of a handle in memory. -/
def argHandle (name : String) (size : Nat) (h : UInt64) : Write :=
  argBinary name (ByteOrder.leBytes size h.toNat)

def beginarray : Write := addcomma >=> append [openArray] >=> openobject

def beginarrayOf (name : String) : Write :=
  addcomma >=> append (ascii "\"" ++ ascii name ++ ascii "\":[") >=> openobject

def endarray : Write := append [closeArray] >=> closeobject

def beginobject : Write := addcomma >=> append [openObject]

def endobject : Write := append [closeObject]

/-- `element`, for the text of a value. -/
def element (text : Bytes) : Write := fun b =>
  (elements b).bind fun (before, b) => append (if before then comma :: text else text) b

def elementInt (n : Int) : Write := element (signedDecimal n)

def elementBinary (data : Bytes) : Write := element (str (Base64.btoa data))

def elementHandle (size : Nat) (h : UInt64) : Write :=
  elementBinary (ByteOrder.leBytes size h.toNat)

/-- The text ends with these items, after something that opens a container or the whole. -/
structure Shows (lead : Bytes) (level : Int) (items : List Bytes) (b : CommandText) : Prop where
  text : b.json = lead ++ separated items
  opened : ∀ c ∈ lead.getLast?, opens c
  closed : ∀ x ∈ items, ∃ c ∈ x.getLast?, opens c = false
  here : b.level = level

/-- In an array whose elements are written by `element`, the flag tells whether there are any. -/
structure Lists (lead : Bytes) (level : Int) (items : List Bytes) (b : CommandText) : Prop
    extends Shows lead level items b where
  flag : b.levels level = 0 ↔ items = []

def separator (items : List Bytes) : Bytes := if items = [] then [] else [comma]

def Closed (x : Bytes) : Prop := ∃ c ∈ x.getLast?, opens c = false

theorem separated_concat (items : List Bytes) (x : Bytes) :
    separated (items ++ [x]) = separated items ++ separator items ++ x := by
  cases items with
  | nil => simp [separated, separator]
  | cons y ys =>
    have more : commas (ys ++ [x]) = commas ys ++ comma :: x := by
      simp [commas, List.flatMap_append]
    simp [separated, separator, more]

theorem closed_append (x : Bytes) {y : Bytes} (closed : Closed y) : Closed (x ++ y) := by
  obtain ⟨c, last, shut⟩ := closed
  refine ⟨c, ?_, shut⟩
  rw [Option.mem_def] at last ⊢
  rw [List.getLast?_append, last, Option.some_or]

theorem closed_quote (x : Bytes) : Closed (x ++ [quote]) := closed_append x ⟨quote, rfl, by decide⟩

theorem closed_str (content : Bytes) : Closed (str content) :=
  closed_append [quote] (closed_quote _)

theorem closed_array (items : List Bytes) : Closed (array items) :=
  closed_append (openArray :: separated items) ⟨closeArray, rfl, by decide⟩

theorem closed_object (ms : List Member) : Closed (object ms) :=
  closed_append (openObject :: separated (ms.map member)) ⟨closeObject, rfl, by decide⟩

theorem opens_eq_false_of_digit : ∀ c : UInt8, isDigit c → opens c = false :=
  forall_byte (by decide +kernel)

theorem closed_decimal (n : Nat) : Closed (decimal n) := by
  have last := List.getLast?_eq_some_getLast (decimal_ne_nil n)
  exact ⟨_, last, opens_eq_false_of_digit _ (isDigit_decimal (List.mem_of_getLast? last))⟩

theorem closed_signedDecimal (i : Int) : Closed (signedDecimal i) := by
  cases i with
  | ofNat n => exact closed_decimal n
  | negSucc n => exact closed_append [minus] (closed_decimal (n + 1))

section Shown
variable {lead : Bytes} {level : Int} {items : List Bytes} {b : CommandText}

theorem Shows.addcomma (shows : Shows lead level items b) :
    addcomma b = some { b with json := b.json ++ separator items } := by
  have text := shows.text
  rw [CommandText.addcomma]
  rcases List.eq_nil_or_concat items with rfl | ⟨init, x, rfl⟩
  · have here : b.json = lead := by rw [text, separated, List.append_nil]
    have same : b.json ++ separator [] = b.json := List.append_nil _
    rw [same]
    cases last : b.json.getLast? with
    | none => rfl
    | some c =>
      rw [here] at last
      exact if_pos (shows.opened c last)
  · rw [List.concat_eq_append] at *
    obtain ⟨c, last, shut⟩ := shows.closed x (List.mem_append_right _ (List.mem_singleton_self x))
    rw [Option.mem_def] at last
    have ends : b.json.getLast? = some c := by
      rw [text, separated_concat, ← List.append_assoc, List.getLast?_append, last, Option.some_or]
    have some_item : init ++ [x] ≠ [] := List.append_ne_nil_of_right_ne_nil _ (List.cons_ne_nil _ _)
    rw [ends, separator, if_neg some_item]
    exact if_neg (by rw [shut]; decide)

/-- Another item. -/
theorem Shows.put (shows : Shows lead level items b) {x : Bytes} (closed : Closed x) :
    Shows lead level (items ++ [x]) { b with json := b.json ++ separator items ++ x } where
  text := by
    rw [separated_concat, shows.text]
    simp only [List.append_assoc]
  opened := shows.opened
  closed := List.forall_mem_append.mpr ⟨shows.closed, by rwa [List.forall_mem_singleton]⟩
  here := shows.here

/-- Something that opens a container is a new lead. -/
theorem Shows.enter (shows : Shows lead level items b) (head : Bytes) {c : UInt8}
    (opening : opens c) :
    Shows (b.json ++ separator items ++ (head ++ [c])) level []
      { b with json := b.json ++ separator items ++ (head ++ [c]) } where
  text := (List.append_nil _).symm
  opened := by
    intro d last
    rw [← List.append_assoc, List.getLast?_concat, Option.mem_some] at last
    exact last ▸ opening
  closed := fun _ mem => absurd mem List.not_mem_nil
  here := shows.here

end Shown

abbrev At (level : Int) (lead : Bytes) (items : List Bytes) (b : CommandText) : Prop :=
  Shows lead level items b

abbrev ElementsAt (level : Int) (lead : Bytes) (items : List Bytes) (b : CommandText) : Prop :=
  Lists lead level items b

def MembersAt (level : Int) (lead : Bytes) (ms : List Member) (b : CommandText) : Prop :=
  Shows lead level (ms.map member) b

section Adding
variable {level : Int}

theorem adds_put {x : Bytes} (closed : Closed x) :
    Adds (At level) (addcomma >=> append x) [x] := by
  intro lead items b shows
  refine ⟨_, ?_, shows.put closed⟩
  show (addcomma b).bind (append x) = _
  rw [shows.addcomma]
  rfl

/-- A member is an item. -/
theorem adds_member {write : Write} {m : Member} (adds : Adds (At level) write [member m]) :
    Adds (MembersAt level) write [m] := by
  intro lead ms b shows
  obtain ⟨b', wrote, shown⟩ := adds lead (ms.map member) b shows
  refine ⟨b', wrote, ?_⟩
  rw [MembersAt, List.map_append]
  exact shown

theorem closed_member (name : Bytes) {value : Bytes} (closed : Closed value) :
    Closed (member (name, value)) := by
  have text : member (name, value) = (str name ++ [colon]) ++ value := by
    rw [member, List.append_assoc, List.singleton_append]
  rw [text]
  exact closed_append _ closed

theorem ascii_quote : ascii "\"" = [quote] := by decide

theorem adds_arg_str (name : String) (value : Bytes) :
    Adds (MembersAt level) (arg name value true) [(ascii name, str value)] := by
  have text : ascii "\"" ++ ascii name ++ ascii "\":\"" ++ value ++ ascii "\"" =
      member (ascii name, str value) := by
    have between : ascii "\":\"" = [quote, colon, quote] := by decide
    simp only [ascii_quote, between, member, str, List.append_assoc, List.cons_append,
      List.nil_append]
  refine adds_member ?_
  rw [arg, if_pos rfl, if_pos rfl, text]
  exact adds_put (closed_member _ (closed_str value))

theorem adds_arg_raw (name : String) {value : Bytes} (closed : Closed value) :
    Adds (MembersAt level) (arg name value false) [(ascii name, value)] := by
  have text : ascii "\"" ++ ascii name ++ ascii "\":" ++ value = member (ascii name, value) := by
    have between : ascii "\":" = [quote, colon] := by decide
    simp only [ascii_quote, between, member, str, List.append_assoc, List.cons_append,
      List.nil_append]
  refine adds_member ?_
  rw [arg, if_neg Bool.false_ne_true, if_neg Bool.false_ne_true, List.append_nil, text]
  exact adds_put (closed_member _ closed)

end Adding

section Containers
variable {level : Int} {body : Write} {xs : List Bytes}

/-- In an array that has just been opened, the elements are written. -/
def Fills (level : Int) (body : Write) (xs : List Bytes) : Prop :=
  ∀ lead b, Lists lead level [] b → ∃ b', body b = some b' ∧ Shows lead level xs b'

theorem Fills.of_adds (adds : Adds (At level) body xs) : Fills level body xs :=
  fun lead b lists => adds lead [] b lists.toShows

theorem Fills.of_elements (adds : Adds (ElementsAt level) body xs) : Fills level body xs := by
  intro lead b lists
  obtain ⟨b', wrote, shown⟩ := adds lead [] b lists
  exact ⟨b', wrote, shown.toShows⟩

/-- The text of the elements is there already. -/
theorem fills_raw (closed : ∀ x ∈ xs, Closed x) : Fills level (append (separated xs)) xs := by
  intro lead b lists
  refine ⟨_, rfl, ?_, lists.opened, closed, lists.here⟩
  rw [lists.text, separated, List.append_nil]

theorem Shows.openobject {lead : Bytes} {b : CommandText} (low : -1 ≤ level) (high : level < 7)
    (shows : Shows lead level [] b) :
    ∃ b', openobject b = some b' ∧ Lists lead (level + 1) [] b' := by
  have inside : 0 ≤ b.level + 1 ∧ b.level + 1 < maxDepth := by
    rw [shows.here, maxDepth]
    omega
  rw [CommandText.openobject, if_pos inside]
  refine ⟨_, rfl, ⟨shows.text, shows.opened, shows.closed, ?_⟩, ?_⟩
  · exact congrArg (· + 1) shows.here
  · have here : Function.update b.levels (b.level + 1) 0 (level + 1) = 0 := by
      rw [shows.here, Function.update_self]
    exact ⟨fun _ => rfl, fun _ => here⟩

/-- From the bracket that opens an array to the one that closes it. -/
theorem adds_array (head : Bytes) (low : -1 ≤ level) (high : level < 7)
    (fills : Fills (level + 1) body xs) :
    Adds (At level)
      ((addcomma >=> append (head ++ [openArray]) >=> openobject) >=> body >=> endarray)
      [head ++ array xs] := by
  intro lead items b shows
  obtain ⟨b', opened, lists⟩ := (shows.enter head (by decide : opens openArray)).openobject low high
  obtain ⟨b'', filled, shown⟩ := fills _ b' lists
  have start : (addcomma >=> append (head ++ [openArray]) >=> openobject) b = some b' := by
    show (addcomma b).bind _ = _
    rw [shows.addcomma]
    exact opened
  refine ⟨{ b'' with json := b''.json ++ [closeArray], level := b''.level - 1 }, ?_, ?_⟩
  · show ((addcomma >=> append (head ++ [openArray]) >=> openobject) b).bind
      (fun b => (body b).bind endarray) = _
    rw [start, Option.bind_some, filled]
    rfl
  · have put := shows.put (closed_append head (closed_array xs))
    refine ⟨?_, put.opened, put.closed, ?_⟩
    · rw [← put.text, shown.text, array]
      simp only [List.append_assoc, List.cons_append, List.nil_append]
    · rw [shown.here]
      exact Int.add_sub_cancel level 1

theorem adds_beginarray (low : -1 ≤ level) (high : level < 7)
    (fills : Fills (level + 1) body xs) :
    Adds (At level) (beginarray >=> body >=> endarray) [array xs] :=
  adds_array [] low high fills

theorem adds_beginarrayOf (name : String) (low : -1 ≤ level) (high : level < 7)
    (fills : Fills (level + 1) body xs) :
    Adds (MembersAt level) (beginarrayOf name >=> body >=> endarray)
      [(ascii name, array xs)] := by
  refine adds_member ?_
  have text : ascii "\"" ++ ascii name ++ ascii "\":[" =
      (str (ascii name) ++ [colon]) ++ [openArray] := by
    have between : ascii "\":[" = [quote, colon, openArray] := by decide
    simp only [ascii_quote, between, str, List.append_assoc, List.cons_append, List.nil_append]
  have whole : member (ascii name, array xs) = (str (ascii name) ++ [colon]) ++ array xs := by
    rw [member, List.append_assoc, List.singleton_append]
  rw [beginarrayOf, text, whole]
  exact adds_array _ low high fills

/-- An object in an array. -/
theorem adds_object {ms : List Member} (adds : Adds (MembersAt level) body ms) :
    Adds (At level) (beginobject >=> body >=> endobject) [object ms] := by
  intro lead items b shows
  have entered := shows.enter [] (by decide : opens openObject)
  obtain ⟨b', filled, shown⟩ := adds _ [] _ entered
  refine ⟨{ b' with json := b'.json ++ [closeObject] }, ?_, ?_⟩
  · show ((addcomma b).bind (append [openObject])).bind (fun b => (body b).bind endobject) = _
    have start : (addcomma b).bind (append [openObject]) =
        some { b with json := b.json ++ separator items ++ [openObject] } := by
      rw [shows.addcomma]
      rfl
    rw [start, Option.bind_some]
    exact (congrArg (Option.bind · endobject) filled).trans rfl
  · have put := shows.put (closed_object ms)
    refine ⟨?_, put.opened, put.closed, shown.here⟩
    rw [← put.text, shown.text, object]
    simp only [List.append_assoc, List.cons_append, List.nil_append]

theorem adds_element {text : Bytes} (inside : 0 ≤ level ∧ level < maxDepth) (closed : Closed text) :
    Adds (ElementsAt level) (element text) [text] := by
  intro lead items b lists
  have put := lists.put closed
  have some_item : items ++ [text] ≠ [] :=
    List.append_ne_nil_of_right_ne_nil _ (List.cons_ne_nil _ _)
  have here := lists.here
  have within : 0 ≤ b.level ∧ b.level < maxDepth := by rwa [here]
  by_cases first : items = []
  · have unset : b.levels b.level = 0 := by rw [here]; exact lists.flag.mpr first
    refine ⟨{ b with json := b.json ++ text, levels := Function.update b.levels b.level 1 }, ?_,
      ⟨?_, put.opened, put.closed, here⟩, ?_⟩
    · rw [element, elements, if_pos within, if_pos unset]
      rfl
    · rw [← put.text, separator, if_pos first, List.append_nil]
    · have set : Function.update b.levels b.level 1 level = 1 := by
        rw [here, Function.update_self]
      exact ⟨fun zero => absurd (set.symm.trans zero) (by decide), fun nil => absurd nil some_item⟩
  · have set : ¬ b.levels b.level = 0 := by rw [here]; exact mt lists.flag.mp first
    refine ⟨{ b with json := b.json ++ comma :: text }, ?_,
      ⟨?_, put.opened, put.closed, here⟩, ?_⟩
    · rw [element, elements, if_pos within, if_neg set]
      rfl
    · rw [← put.text, separator, if_neg first, List.append_assoc, List.singleton_append]
    · rw [here] at set
      exact ⟨fun zero => absurd zero set, fun nil => absurd nil some_item⟩

end Containers

/-- What a constructor writes into a new command: the members of an object. -/
def Forms (write : Write) (ms : List Member) : Prop :=
  ∀ levels, ∃ b, write (start levels) = some b ∧ b.json = separated (ms.map member)

theorem cmd_text (name : String) (levels : Int → UInt8) :
    ∃ b, cmd name (start levels) = some b ∧
      MembersAt (-1) [] [(ascii "a", str (ascii name))] b := by
  refine ⟨_, rfl, ?_, fun c last => absurd last (by simp), ?_, rfl⟩
  · have head : ascii "\"a\":\"" = quote :: (ascii "a" ++ [quote, colon, quote]) := by decide
    simp [start, ascii_quote, head, member, str, separated]
  · rw [List.map_singleton, List.forall_mem_singleton]
    exact closed_member _ (closed_str _)

theorem Forms.of_cmd (name : String) {rest : Write} {ms : List Member}
    (adds : Adds (MembersAt (-1)) rest ms) :
    Forms (cmd name >=> rest) ((ascii "a", str (ascii name)) :: ms) := by
  intro levels
  obtain ⟨b, wrote, shown⟩ := cmd_text name levels
  obtain ⟨b', wrote', shown'⟩ := adds [] _ b shown
  refine ⟨b', ?_, shown'.text⟩
  show (cmd name (start levels)).bind rest = _
  rw [wrote]
  exact wrote'

/-- The member that marks requests of this session. -/
theorem Forms.of_notself (name : String) (sessionid : Bytes) {rest : Write} {ms : List Member}
    (adds : Adds (MembersAt (-1)) rest ms) :
    Forms (cmd name >=> notself sessionid >=> rest)
      ((ascii "a", str (ascii name)) :: (ascii "i", str sessionid) :: ms) := by
  intro levels
  obtain ⟨b, wrote, shown⟩ := cmd_text name levels
  have marked : MembersAt (-1) [] [(ascii "a", str (ascii name)), (ascii "i", str sessionid)]
      { b with json := b.json ++ (ascii ",\"i\":\"" ++ sessionid ++ ascii "\"") } := by
    have put := shown.put (closed_member (ascii "i") (closed_str sessionid))
    refine ⟨?_, put.opened, put.closed, put.here⟩
    have text := put.text
    have head : ascii ",\"i\":\"" = comma :: quote :: (ascii "i" ++ [quote, colon, quote]) := by
      decide
    have before : separator [member (ascii "a", str (ascii name))] = [comma] := rfl
    rw [List.map_singleton, before] at text
    refine Eq.trans ?_ text
    simp [head, ascii_quote, member, str]
  obtain ⟨b', wrote', shown'⟩ := adds [] _ _ marked
  refine ⟨b', ?_, shown'.text⟩
  show (cmd name (start levels)).bind (fun b => (notself sessionid b).bind rest) = _
  rw [wrote]
  exact wrote'

end CommandText

end MegaSdk.Server
