import MegaSdk.Cache.NodeRecord
import MegaSdk.Crypto.Cbc
import MegaSdk.Json.Members
import Mathlib.Data.List.Induction
import Mathlib.Logic.Equiv.Basic

/-!
# Node attributes on the wire

The attributes of a node travel as a JSON object, behind a magic number and padded with
NULs to whole blocks, encrypted with the key of the node and base64-encoded.
`AttrMap::getjson` escapes the values, `Node::setattr` undoes it in place.
-/

namespace MegaSdk.Nodes

open Json Crypto ByteOrder
open Cache (AttrMap)

/-- The characters that `getjson` escapes. -/
def needsEscape (c : UInt8) : Bool := c < 32 || c = quote || c = backslash

def escaped (c : UInt8) : Bytes :=
  backslash ::
    if c = quote then [quote]
    else if c = backslash then [backslash]
    else if c = 10 then ascii "n"
    else if c = 13 then ascii "r"
    else if c = 8 then ascii "b"
    else if c = 12 then ascii "f"
    else if c = 9 then ascii "t"
    else ascii "u00" ++ [hexDigit (c >>> 4), hexDigit (c &&& 15)]

/-- The loop of `getjson` over a value; `pending` lies between `pptr` and `ptr`. -/
def escapeFrom (pending : Bytes) : Bytes → Bytes
  | [] => pending
  | c :: rest =>
    if needsEscape c then pending ++ escaped c ++ escapeFrom [] rest
    else escapeFrom (pending ++ [c]) rest

def escape (value : Bytes) : Bytes := escapeFrom [] value

def unescaped (c : UInt8) : UInt8 :=
  if c = 110 then 10
  else if c = 114 then 13
  else if c = 98 then 8
  else if c = 102 then 12
  else if c = 116 then 9
  else c

/-- The loop of `unescape`, on the text from the index on: what lies before it is final. -/
def unescapeFrom : Nat → Bytes → Bytes
  | fuel + 1, c :: d :: rest =>
    if c = backslash then
      if d = 117 then
        (hexval (rest.getD 2 0) <<< 4 ||| hexval (rest.getD 3 0)) :: unescapeFrom fuel (rest.drop 4)
      else unescaped d :: unescapeFrom fuel rest
    else c :: unescapeFrom fuel (d :: rest)
  | _, s => s

def unescape (s : Bytes) : Bytes := unescapeFrom s.length s

theorem escapeFrom_eq (value pending : Bytes) :
    escapeFrom pending value =
      pending ++ value.flatMap fun c => if needsEscape c then escaped c else [c] := by
  induction value generalizing pending with
  | nil => simp [escapeFrom]
  | cons c rest ih =>
    rw [escapeFrom, List.flatMap_cons]
    split
    · rw [ih, List.nil_append, List.append_assoc]
    · rw [ih, List.append_assoc]

theorem escape_cons (c : UInt8) (rest : Bytes) :
    escape (c :: rest) = (if needsEscape c then escaped c else [c]) ++ escape rest := by
  simp only [escape, escapeFrom_eq, List.nil_append, List.flatMap_cons]

theorem hexDigit_plain : ∀ n : UInt8, n < 16 → hexDigit n ≠ 0 ∧ hexDigit n ≠ quote ∧
    hexDigit n ≠ backslash := forall_nibble (by decide)

/-- The quote scanner passes over an escaped character. -/
theorem literalFrom_escaped (c : UInt8) (rest : Bytes) :
    literalFrom false (escaped c ++ rest) = literalFrom false rest := by
  obtain ⟨high₀, high₁, high₂⟩ := hexDigit_plain _ (high_lt c)
  obtain ⟨low₀, low₁, low₂⟩ := hexDigit_plain _ (low_lt c)
  rw [escaped]
  split
  · rfl
  split
  · rfl
  split
  · rfl
  split
  · rfl
  split
  · rfl
  split
  · rfl
  split
  · rfl
  simp only [quote, backslash] at high₁ high₂ low₁ low₂
  simp [ascii, literalFrom, high₀, high₁, high₂, low₀, low₁, low₂, quote, backslash]

theorem literal_escape (value : Bytes) : isLiteral (escape value) := by
  induction value with
  | nil => rfl
  | cons c rest ih =>
    rw [escape_cons, isLiteral]
    split
    · rw [literalFrom_escaped]
      exact ih
    · rename_i plain
      simp only [needsEscape, Bool.or_eq_true, decide_eq_true_eq, not_or] at plain
      obtain ⟨⟨printable, other⟩, single⟩ := plain
      have nonzero : c ≠ 0 := by
        rintro rfl
        exact printable (by decide)
      simpa [isLiteral, literalFrom, nonzero, other, single] using ih

theorem unescapeFrom_plain {c : UInt8} (plain : c ≠ backslash) (fuel : Nat) (rest : Bytes) :
    unescapeFrom (fuel + 1) (c :: rest) = c :: unescapeFrom fuel rest := by
  cases rest with
  | nil => cases fuel <;> rfl
  | cons d rest => rw [unescapeFrom, if_neg plain]

/-- The unescaper reads an escaped character back, in one round. -/
theorem unescapeFrom_escaped {c : UInt8} (needs : needsEscape c) (fuel : Nat) (rest : Bytes) :
    unescapeFrom (fuel + 1) (escaped c ++ rest) = c :: unescapeFrom fuel rest := by
  have joined : ∀ c : UInt8, (c >>> 4) <<< 4 ||| c &&& 15 = c := forall_byte (by decide +kernel)
  rw [escaped]
  split
  · subst c; rfl
  split
  · subst c; rfl
  split
  · subst c; rfl
  split
  · subst c; rfl
  split
  · subst c; rfl
  split
  · subst c; rfl
  split
  · subst c; rfl
  have code : hexval (hexDigit (c >>> 4)) <<< 4 ||| hexval (hexDigit (c &&& 15)) = c := by
    rw [hexval_hexDigit (high_lt c), hexval_hexDigit (low_lt c), joined]
  simp [ascii, unescapeFrom, code]

theorem unescapeFrom_escape (value : Bytes) {fuel : Nat} (enough : value.length ≤ fuel) :
    unescapeFrom fuel (escape value) = value := by
  induction value generalizing fuel with
  | nil => cases fuel <;> rfl
  | cons c rest ih =>
    obtain ⟨fuel, rfl⟩ : ∃ f, fuel = f + 1 := ⟨fuel - 1, by simp at enough; omega⟩
    have more : unescapeFrom fuel (escape rest) = rest :=
      ih (Nat.le_of_succ_le_succ enough)
    rw [escape_cons]
    split
    · rename_i needs
      rw [unescapeFrom_escaped needs, more]
    · rename_i plain
      have single : c ≠ backslash := by
        rintro rfl
        exact plain (by decide)
      rw [List.singleton_append, unescapeFrom_plain single, more]

theorem length_le_escape (value : Bytes) : value.length ≤ (escape value).length := by
  induction value with
  | nil => exact le_rfl
  | cons c rest ih =>
    rw [escape_cons, List.length_append, List.length_cons]
    have one : 1 ≤ (if needsEscape c then escaped c else [c]).length := by
      split
      · exact Nat.succ_le_succ (Nat.zero_le _)
      · exact le_rfl
    omega

theorem unescape_escape (value : Bytes) : unescape (escape value) = value :=
  unescapeFrom_escape value (length_le_escape value)

/-- A name of printable 7-bit characters other than the quote and the backslash. -/
structure IsName (name : Bytes) : Prop where
  nonempty : name ≠ []
  short : name.length ≤ 8
  printable : ∀ c ∈ name, 32 ≤ c ∧ c < 127 ∧ c ≠ quote ∧ c ≠ backslash

namespace IsName
variable {name : Bytes}

theorem nonzero (named : IsName name) {c : UInt8} (mem : c ∈ name) : c ≠ 0 := by
  rintro rfl
  exact absurd (named.printable 0 mem).1 (by decide)

theorem unquoted (named : IsName name) : quote ∉ name ∧ backslash ∉ name :=
  ⟨fun mem => (named.printable quote mem).2.2.1 rfl,
    fun mem => (named.printable backslash mem).2.2.2 rfl⟩

theorem literal (named : IsName name) : isLiteral name :=
  isLiteral_of_unquoted (fun _ mem => named.nonzero mem) named.unquoted

theorem plain (named : IsName name) : Plain name :=
  ⟨named.literal, named.unquoted.1⟩

theorem ascii (named : IsName name) {c : UInt8} (mem : c ∈ name) : c < 128 :=
  UInt8.lt_trans (named.printable c mem).2.1 (show (127 : UInt8) < 128 by decide)

end IsName

theorem foldl_pack_ascii {name : Bytes} (ascii : ∀ c ∈ name, c < 128) (id : UInt64) :
    name.foldl pack id = name.foldl (fun (id : UInt64) c => id <<< 8 + c.toUInt64) id := by
  refine List.foldl_ext _ _ id ?_
  intro id c mem
  rw [pack, if_pos (ascii c mem)]

/-- Of 7-bit names the scanner and the cache make the same packed form. -/
theorem nameid_eq_packed {name : Bytes} (ascii : ∀ c ∈ name, c < 128) :
    nameid name = AttrMap.packed name :=
  foldl_pack_ascii ascii 0

/-- A name is read back from its packed form. -/
theorem nameid2string_nameid {name : Bytes} (named : IsName name) :
    AttrMap.nameid2string (nameid name) = name := by
  rw [nameid_eq_packed fun c mem => named.ascii mem]
  exact AttrMap.nameid2string_packed named.short fun c mem => named.nonzero mem

/-- One round of `getjson`. -/
def getjsonEntry (s : Bytes) (entry : UInt64 × Bytes) : Bytes :=
  let s := s ++ if s = [] then [quote] else [comma, quote]
  if entry.1 = 0 then s
  else s ++ AttrMap.nameid2string entry.1 ++ ascii "\":\"" ++ escape entry.2 ++ [quote]

/-- `AttrMap::getjson`: the members without the braces. -/
def getjson (attrs : AttrMap) : Bytes := attrs.foldl getjsonEntry []

/-- `makeattr`; a negative length stands for the length of the C string. -/
def makeattr (ecb : Block → Block) (json : Bytes) (l : Int) : Bytes :=
  let l := if l < 0 then (json.takeWhile (· ≠ 0)).length else l.toNat
  let ll := (l + 6 + blockSize - 1) / blockSize * blockSize
  cbcEncrypt ecb (ascii "MEGA\x7b" ++ json.take l ++ [closeObject] ++ List.replicate (ll - l - 6) 0)

/-- `decryptattr`: the decrypted buffer, if it starts with the magic number; `rest` is what
the fresh buffer and the memory after it hold behind the decoded bytes. -/
def decryptattr (ecbd : Block → Block) (attrstring rest : Bytes) : Option Bytes :=
  if attrstring = [] then none
  else
    let buf := Base64.atob attrstring (attrstring.length * 3 / 4 + 3)
    if buf.length % blockSize = 0 then
      let buf := cbcDecrypt ecbd buf ++ rest
      if buf.take 6 = ascii "MEGA\x7b\"" then some buf else none
    else none

/-- `map[name]`, the empty string for a new name. -/
def value (attrs : AttrMap) (name : UInt64) : Bytes :=
  ((attrs.find? fun entry => entry.1 = name).map Prod.snd).getD []

/-- The body of the loop of `setattr`: the entry exists even if its value is rejected. -/
def storeattr (normalize : Bytes → Bytes) (name : UInt64) : Reader AttrMap := fun attrs s =>
  match storeobject s with
  | (none, s) => .ok (.rejected, attrs.set name (value attrs name), s)
  | (some t, s) =>
    let t := unescape t
    .ok (.next, attrs.set name (if name = nameid (ascii "n") then normalize t else t), s)

/-- `Node::setattr`: the attributes and what is left of `attrstring`. -/
def setattr (ecbd : Block → Block) (normalize : Bytes → Bytes) (rest : Bytes) (attrs : AttrMap)
    (attrstring : Bytes) : Except Fault (AttrMap × Bytes) :=
  match decryptattr ecbd attrstring rest with
  | none => .ok (attrs, attrstring)
  | some buf =>
    match members (fun name => some (storeattr normalize name)) attrs (buf.drop 5) with
    | .error fault => .error fault
    | .ok (_, attrs, _) => .ok (attrs, [])

/-- The entries of a map: in ascending order of the packed names. -/
def Ascending (attrs : AttrMap) : Prop := attrs.Pairwise fun a b => a.1 < b.1

/-- Every entry is filed under a name that `getjson` may write as it is. -/
def Named (attrs : AttrMap) : Prop := ∀ entry ∈ attrs, ∃ name, IsName name ∧ entry.1 = nameid name

/-- The member that `getjson` writes for an entry. -/
def wired (entry : UInt64 × Bytes) : Member :=
  (AttrMap.nameid2string entry.1, str (escape entry.2))

theorem getjsonEntry_eq {entry : UInt64 × Bytes} (nonzero : entry.1 ≠ 0) (s : Bytes) :
    getjsonEntry s entry = s ++ (if s = [] then [] else [comma]) ++ member (wired entry) := by
  have opening : ascii "\":\"" = [quote, colon, quote] := by decide
  simp only [getjsonEntry, if_neg nonzero, opening, member, wired, str]
  split <;> simp

theorem foldl_getjsonEntry {attrs : AttrMap} (nonzero : ∀ entry ∈ attrs, entry.1 ≠ 0) {s : Bytes}
    (started : s ≠ []) :
    attrs.foldl getjsonEntry s = s ++ commas (attrs.map fun entry => member (wired entry)) := by
  induction attrs generalizing s with
  | nil => simp
  | cons entry attrs ih =>
    have step := getjsonEntry_eq (nonzero entry List.mem_cons_self) s
    rw [if_neg started] at step
    rw [List.foldl_cons, ih (fun e mem => nonzero e (List.mem_cons_of_mem _ mem)) (by simp [step]),
      step]
    simp

/-- `getjson` writes the members of an object. -/
theorem getjson_eq {attrs : AttrMap} (nonzero : ∀ entry ∈ attrs, entry.1 ≠ 0) :
    getjson attrs = separated (attrs.map fun entry => member (wired entry)) := by
  cases attrs with
  | nil => rfl
  | cons entry attrs =>
    have step := getjsonEntry_eq (nonzero entry List.mem_cons_self) []
    have started : member (wired entry) ≠ [] := by simp [member, str]
    rw [getjson, List.foldl_cons, step, if_pos rfl, List.append_nil, List.nil_append,
      foldl_getjsonEntry (fun e mem => nonzero e (List.mem_cons_of_mem _ mem)) started,
      List.map_cons, separated]

/-- `setattr` with the value of the name normalised. -/
def normalized (normalize : Bytes → Bytes) (entry : UInt64 × Bytes) : UInt64 × Bytes :=
  (entry.1, if entry.1 = nameid (ascii "n") then normalize entry.2 else entry.2)

/-- The body of the loop takes a string literal and unescapes it. -/
theorem takes_str (normalize : Bytes → Bytes) (name : UInt64) {content : Bytes}
    (literal : isLiteral content) (attrs : AttrMap) (follow : Follow) (ms : List Member) :
    Takes (follow.inObject ms) (storeattr normalize name) attrs (str content) .next
      (attrs.set name (normalized normalize (name, unescape content)).2) := by
  rintro _ ⟨rest, -, rfl⟩
  rw [storeattr, storeobject_value (.str literal) (ends_commas_closeObject _ rest), stored_str]
  rfl

/-- The loop of `setattr` reads the entries back one by one. -/
theorem run_wired (normalize : Bytes → Bytes) (follow : Follow) (done todo : AttrMap)
    (ascending : Ascending (done ++ todo)) (named : Named todo) :
    Run follow (fun name => some (storeattr normalize name)) (done.map (normalized normalize))
      (todo.map wired) .ended ((done ++ todo).map (normalized normalize)) [] := by
  induction todo generalizing done with
  | nil =>
    rw [List.append_nil]
    exact .nil
  | cons entry todo ih =>
    obtain ⟨name, isName, key⟩ := named entry List.mem_cons_self
    have written : (wired entry).1 = name := by rw [wired, key, nameid2string_nameid isName]
    have last : ∀ e ∈ done.map (normalized normalize), e.1 < entry.1 := by
      intro e mem
      obtain ⟨d, earlier, rfl⟩ := List.mem_map.mp mem
      exact (List.pairwise_append.mp ascending).2.2 d earlier entry List.mem_cons_self
    have takes := takes_str normalize entry.1 (literal_escape entry.2)
      (done.map (normalized normalize)) follow (todo.map wired)
    rw [unescape_escape, AttrMap.set_last last] at takes
    have more := ih (done ++ [entry]) (by simpa using ascending)
      fun e mem => named e (List.mem_cons_of_mem _ mem)
    rw [List.map_append, List.append_assoc, List.singleton_append] at more
    have legible : (wired entry).Legible := by
      refine ⟨?_, .str (literal_escape entry.2)⟩
      rw [written]
      exact isName.plain
    refine .read legible (by rw [written]; exact isName.nonempty) ?_ takes more
    rw [written, key]

def padding (json : Bytes) : Bytes :=
  List.replicate
    ((json.length + 6 + blockSize - 1) / blockSize * blockSize - json.length - 6) 0

/-- The plaintext that `makeattr` encrypts. -/
def padded (json : Bytes) : Bytes := ascii "MEGA\x7b" ++ json ++ [closeObject] ++ padding json

theorem makeattr_eq (ecb : Block → Block) {json : Bytes} (text : (0 : UInt8) ∉ json) {l : Int}
    (whole : l < 0 ∨ l = json.length) : makeattr ecb json l = cbcEncrypt ecb (padded json) := by
  have strlen : json.takeWhile (· ≠ 0) = json := by
    rw [List.takeWhile_eq_self_iff]
    intro c mem
    refine decide_eq_true ?_
    rintro rfl
    exact text mem
  have length : (if l < 0 then (json.takeWhile (· ≠ 0)).length else l.toNat) = json.length := by
    rcases whole with unknown | rfl
    · rw [if_pos unknown, strlen]
    · rw [if_neg (by omega), Int.toNat_natCast]
  simp only [makeattr, length, List.take_length, padded, padding]

theorem whole_padded (json : Bytes) : blockSize ∣ (padded json).length := by
  refine ⟨(json.length + 6 + blockSize - 1) / blockSize, ?_⟩
  have magic : (ascii "MEGA\x7b").length = 5 := by decide
  simp only [padded, padding, List.length_append, List.length_replicate, magic,
    List.length_singleton, blockSize]
  omega

theorem Named.nonzero {attrs : AttrMap} (named : Named attrs) :
    ∀ entry ∈ attrs, entry.1 ≠ 0 := by
  intro entry mem
  obtain ⟨name, isName, key⟩ := named entry mem
  rw [key]
  exact nameid_ne_zero isName.literal isName.nonempty

theorem Named.legible {attrs : AttrMap} (named : Named attrs) : Legible (attrs.map wired) := by
  intro m mem
  obtain ⟨entry, written, rfl⟩ := List.mem_map.mp mem
  obtain ⟨name, isName, key⟩ := named entry written
  refine ⟨?_, .str (literal_escape entry.2)⟩
  rw [wired, key, nameid2string_nameid isName]
  exact isName.plain

theorem nonzero_str {content : Bytes} (literal : isLiteral content) :
    (0 : UInt8) ∉ str content := by
  have inside := literalFrom_nonzero literal
  simp [str, inside, quote]

theorem nonzero_commas {items : List Bytes} (each : ∀ x ∈ items, (0 : UInt8) ∉ x) :
    (0 : UInt8) ∉ commas items := by
  intro mem
  obtain ⟨x, item, zero⟩ := List.mem_flatMap.mp mem
  rcases List.mem_cons.mp zero with zero | zero
  · exact absurd zero (by decide)
  · exact each x item zero

/-- The text has no NUL, so `strlen` measures it. -/
theorem nonzero_getjson_of_legible {attrs : AttrMap} (nonzero : ∀ entry ∈ attrs, entry.1 ≠ 0)
    (legible : Legible (attrs.map wired)) : (0 : UInt8) ∉ getjson attrs := by
  have each : ∀ entry ∈ attrs, (0 : UInt8) ∉ member (wired entry) := by
    intro entry mem
    have name := nonzero_str (legible _ (List.mem_map_of_mem mem)).1.1
    have value := nonzero_str (literal_escape entry.2)
    rw [member, List.mem_append, List.mem_cons]
    rintro (zero | zero | zero)
    · exact name zero
    · exact absurd zero (by decide)
    · exact value zero
  rw [getjson_eq nonzero]
  cases attrs with
  | nil => exact List.not_mem_nil
  | cons entry attrs =>
    rw [List.map_cons, separated, List.mem_append, not_or]
    refine ⟨each entry List.mem_cons_self, nonzero_commas ?_⟩
    intro x mem
    obtain ⟨e, later, rfl⟩ := List.mem_map.mp mem
    exact each e (List.mem_cons_of_mem _ later)

theorem nonzero_getjson {attrs : AttrMap} (named : Named attrs) : (0 : UInt8) ∉ getjson attrs :=
  nonzero_getjson_of_legible named.nonzero named.legible

/-- The buffer of `decryptattr` holds the whole decoded text. -/
theorem atob_attrstring (bytes : Bytes) :
    Base64.atob (Base64.btoa bytes) ((Base64.btoa bytes).length * 3 / 4 + 3) = bytes :=
  Base64.atob_btoa _ ((Base64.length_le_btoa _).trans (Nat.le_add_right _ 3))

theorem btoa_padded_ne_nil (ecb : Block → Block) (json : Bytes) :
    Base64.btoa (cbcEncrypt ecb (padded json)) ≠ [] := by
  have prefixed : padded json = ascii "MEGA\x7b" ++ (padded json).drop 5 := rfl
  intro empty
  have bound := Base64.length_le_btoa (cbcEncrypt ecb (padded json))
  rw [empty, length_cbcEncrypt ecb (whole_padded json), prefixed] at bound
  simp [ascii] at bound

/-- `decryptattr` gets the plaintext back. -/
theorem decryptattr_padded {ecb ecbd : Block → Block} (inverts : ∀ b, ecbd (ecb b) = b)
    {json : Bytes} (member : peek json = quote) (rest : Bytes) :
    decryptattr ecbd (Base64.btoa (cbcEncrypt ecb (padded json))) rest =
      some (padded json ++ rest) := by
  have length := length_cbcEncrypt ecb (whole_padded json)
  have magic : (padded json ++ rest).take 6 = ascii "MEGA\x7b\"" := by
    cases json with
    | nil => exact absurd member (by decide)
    | cons c json =>
      obtain rfl : c = quote := member
      rfl
  simp only [decryptattr, if_neg (btoa_padded_ne_nil ecb json), atob_attrstring, length,
    Nat.mod_eq_zero_of_dvd (whole_padded json), cbcDecrypt_encrypt inverts (whole_padded json),
    if_true, magic]

/-- The loop of `setattr` over a decrypted buffer; what lies behind the brace is not read. -/
theorem members_padded (normalize : Bytes → Bytes) {attrs : AttrMap}
    (ascending : Ascending attrs) (named : Named attrs) (rest : Bytes) :
    ∃ s, members (fun name => some (storeattr normalize name)) []
      ((padded (getjson attrs) ++ rest).drop 5) =
        .ok (.ended, attrs.map (normalized normalize), s) := by
  have run := run_wired normalize (fun _ => True) [] attrs ascending named
  have text : (padded (getjson attrs) ++ rest).drop 5 =
      getjson attrs ++ closeObject :: (padding (getjson attrs) ++ rest) := by
    rw [padded, List.append_assoc, List.append_assoc, List.append_assoc]
    rfl
  generalize padding (getjson attrs) ++ rest = behind at text
  have whole : members _ _ (_ ++ closeObject :: behind) = _ :=
    members_run run trivial
  rw [List.map_map] at whole
  rw [text, getjson_eq named.nonzero]
  exact ⟨_, whole⟩

/-- Attributes survive their way over the wire: `setattr` rebuilds the map that `getjson`
wrote, with the name in normalised form. -/
theorem setattr_normalized {ecb ecbd : Block → Block} (inverts : ∀ b, ecbd (ecb b) = b)
    (normalize : Bytes → Bytes) {attrs : AttrMap} (ascending : Ascending attrs)
    (nonempty : attrs ≠ []) (named : Named attrs) {l : Int}
    (whole : l < 0 ∨ l = (getjson attrs).length) (rest : Bytes) :
    setattr ecbd normalize rest [] (Base64.btoa (makeattr ecb (getjson attrs) l)) =
      .ok (attrs.map (normalized normalize), []) := by
  have member : peek (getjson attrs) = quote := by
    rw [getjson_eq named.nonzero]
    cases attrs with
    | nil => exact absurd rfl nonempty
    | cons entry attrs => rfl
  obtain ⟨s, loop⟩ := members_padded normalize ascending named rest
  rw [makeattr_eq ecb (nonzero_getjson named) whole, setattr,
    decryptattr_padded inverts member rest]
  simp only [loop]

theorem setattr_makeattr (aes aesd : Aes) (inverts : ∀ key block, aesd key (aes key block) = block)
    (key : Block) {attrs : AttrMap} (ascending : Ascending attrs) (nonempty : attrs ≠ [])
    (named : Named attrs) {l : Int} (whole : l < 0 ∨ l = (getjson attrs).length) (rest : Bytes) :
    setattr (aesd key) id rest [] (Base64.btoa (makeattr (aes key) (getjson attrs) l)) =
      .ok (attrs, []) := by
  have unchanged : attrs.map (normalized id) = attrs := by
    refine (List.map_congr_left fun entry _ => ?_).trans (List.map_id attrs)
    rw [normalized, id, ite_self]
    rfl
  have rebuilt := setattr_normalized (inverts key) id ascending nonempty named whole rest
  rwa [unchanged] at rebuilt

/-- A plaintext block and its encryption under the key 00 01 .. 0f. -/
def sampleBlocks : Block × Block :=
  (load (ascii "MEGA\x7b\"n\":\"a\"\x7d"),
    #v[125, 162, 73, 242, 188, 0, 123, 74, 131, 110, 61, 203, 250, 28, 75, 92])

def specialAttrs : AttrMap := [(110, [quote, 255]), (nameid (ascii "lat"), [backslash, 0])]

/-- Their text, and its encryption under the same key. -/
def specialTexts : Bytes × Bytes :=
  (ascii "MEGA\x7b\"n\":\"\\\"" ++ [255] ++ ascii "\",\"lat\":\"\\\\\\u0000\"\x7d",
    [241, 201, 0, 131, 206, 102, 133, 49, 129, 99, 78, 17, 60, 224, 186, 171,
      19, 50, 235, 136, 205, 199, 58, 11, 64, 41, 224, 139, 191, 21, 168, 198])

/-- The block cipher on the two blocks of the text. -/
def specialBlocks : Equiv.Perm Block :=
  (Equiv.swap (load specialTexts.1) (load specialTexts.2)).trans
    (Equiv.swap (xorBlock (load specialTexts.2) (load (specialTexts.1.drop blockSize)))
      (load (specialTexts.2.drop blockSize)))

theorem setattr_sample :
    makeattr specialBlocks (getjson specialAttrs) (-1) = specialTexts.2 ∧
      setattr specialBlocks.symm id [1, 2, 3] []
        (Base64.btoa (makeattr specialBlocks (getjson specialAttrs) (-1))) =
          .ok (specialAttrs, []) := by
  refine ⟨by decide +kernel, setattr_makeattr (fun _ => specialBlocks)
    (fun _ => specialBlocks.symm) (fun _ block => specialBlocks.symm_apply_apply block)
    (Vector.ofFn fun i => UInt8.ofNat i) ?_ (by decide) ?_ (.inl (by decide)) [1, 2, 3]⟩
  · exact List.pairwise_pair.mpr (by decide)
  · intro entry mem
    rcases List.mem_pair.mp mem with rfl | rfl
    · exact ⟨ascii "n", ⟨by decide, by decide, forall_mem_of_all (by decide)⟩, by decide⟩
    · exact ⟨ascii "lat", ⟨by decide, by decide, forall_mem_of_all (by decide)⟩, rfl⟩

end MegaSdk.Nodes
