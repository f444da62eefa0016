import MegaSdk.Cache.Unserialize

/-!
# Corrupt node records

Where `Node::unserialize` leaves its record. The share count is read without a check, the
attribute reader has no end pointer, and the node is in the table before the end of the record
is checked; a corrupt record is read within its bounds, and leaves no node behind, only if it is
refused before the node is created.
-/

namespace MegaSdk.Cache.RecordBounds

open ByteOrder RecordReader

section Layout
variable (d : Bytes)

def typeOf : NodeType := NodeHead.typeOf (UInt64.ofNat (ofLe (d.take 8))).toInt64

/-- Files and folders have a key behind the 44 bytes of handles and times. -/
abbrev Keyed : Prop := typeOf d = fileNode ∨ typeOf d = folderNode

def keyEnd : Nat := 44 + Node.keyLength (typeOf d)

/-- A file has an attribute string with its length in front. -/
def attrsEnd : Nat :=
  if typeOf d = fileNode then keyEnd d + 2 + ofLe ((d.drop (keyEnd d)).take 2) else keyEnd d

/-- The end of the reserved fields; a field that does not fit is not skipped. -/
def reservedFrom : Nat → Nat → Nat
  | 0, offset => offset
  | fields + 1, offset =>
    let l := (d.getD offset 0).toNat
    if offset + l < d.length then reservedFrom fields (offset + l + 1)
    else reservedFrom fields offset

def reservedEnd : Nat := reservedFrom d 8 (attrsEnd d)

/-- The number of shares, of which the second byte may be the terminating NUL. -/
def numshares : Int := signed 16 (ofLe (((d ++ [0]).drop (reservedEnd d)).take 2))

def sharesStart : Nat := reservedEnd d + 2 + if numshares d = 0 then 0 else 16

def shareCount : Nat :=
  if numshares d > 0 then (numshares d).toNat else if numshares d < 0 then 1 else 0

/-- The end of the shares that fit into the record. -/
def sharesEnd : Nat := sharesStart d + 18 * min (shareCount d) ((d.length - sharesStart d) / 18)

/-- The key does not fit, with what is at least behind it. -/
def KeyRefused : Prop := Keyed d ∧ d.length < keyEnd d + 10

/-- The attribute string does not fit, or is not followed by a zero byte. -/
def AttrsRefused : Prop :=
  typeOf d = fileNode ∧ ¬(attrsEnd d ≤ d.length ∧ (d ++ [0]).getD (attrsEnd d) 0 = 0)

/-- There are shares, and the share key does not fit. -/
def ShareKeyRefused : Prop :=
  reservedEnd d < d.length ∧ numshares d ≠ 0 ∧ d.length < reservedEnd d + 18

/-- A record that is refused before the node is created. -/
def Refused : Prop := d.length < 46 ∨ KeyRefused d ∨ AttrsRefused d ∨ ShareKeyRefused d

end Layout

/-- Attributes with their final zero byte: each has a name and a value with their lengths. -/
inductive Entries : Bytes → Prop
  | done : Entries [0]
  | entry {name value rest : Bytes} : name ≠ [] → name.length < 256 → value.length < 65536 →
      Entries rest →
      Entries (UInt8.ofNat name.length :: (name ++ (leBytes 2 value.length ++ (value ++ rest))))

/-- Every read is of the record or its NUL, and a refused record leaves no node. -/
def Contained (d : Bytes) : Prop :=
  ∀ c : Loading, (c.unserialize d).2 ≠ .wild ∧
    ((c.unserialize d).2 = .null → (c.unserialize d).1.nodes = c.nodes)

theorem unserializeFrom_entries {x : Bytes} (entries : Entries x) (attrs : AttrMap) {rounds : Nat}
    (enough : x.length < rounds) (rest : Bytes) :
    ∃ after, AttrMap.unserializeFrom rounds attrs (x ++ rest) = .ok (after, rest) := by
  induction entries generalizing attrs rounds with
  | done =>
    obtain ⟨n, rfl⟩ : ∃ n, rounds = n + 1 := ⟨rounds - 1, by simp at enough; omega⟩
    exact ⟨attrs, by simp [AttrMap.unserializeFrom, word_one]⟩
  | @entry name value more named short brief tail ih =>
    obtain ⟨n, rfl⟩ : ∃ n, rounds = n + 1 := ⟨rounds - 1, by simp at enough; omega⟩
    have length : (UInt8.ofNat name.length).toNat = name.length := by
      rw [UInt8.toNat_ofNat']
      omega
    have some : name.length ≠ 0 := by simpa using named
    have fits : value.length < 256 ^ 2 := brief
    have fewer : more.length < n := by
      simp only [List.length_cons, List.length_append] at enough
      omega
    obtain ⟨after, read⟩ := ih (attrs.set (AttrMap.packed name) value) fewer
    refine ⟨after, ?_⟩
    simp only [List.cons_append, List.append_assoc, AttrMap.unserializeFrom, word_one,
      Read.bind_ok, length, some, if_false, bytes_append rfl, word_append fits, read]

/-- What the reader accepts are entries. -/
theorem entries_of_unserializeFrom {rounds : Nat} {attrs after : AttrMap} {ptr rest : Bytes}
    (read : AttrMap.unserializeFrom rounds attrs ptr = .ok (after, rest)) :
    ∃ x, Entries x ∧ ptr = x ++ rest := by
  induction rounds generalizing attrs ptr with
  | zero => cases read
  | succ rounds ih =>
    rw [AttrMap.unserializeFrom] at read
    obtain ⟨⟨l, behindLength⟩, length, named⟩ := Read.bind_eq_ok.mp read
    obtain ⟨short, rfl⟩ := word_eq_ok.mp length
    dsimp only at named
    split at named
    · next last =>
      cases named
      rw [last]
      exact ⟨[0], .done, rfl⟩
    · next some =>
      obtain ⟨⟨name, behindName⟩, taken, valued⟩ := Read.bind_eq_ok.mp named
      obtain ⟨rfl, rfl⟩ := bytes_eq_ok.mp taken
      obtain ⟨⟨ll, behindValueLength⟩, valueLength, valued⟩ := Read.bind_eq_ok.mp valued
      obtain ⟨brief, rfl⟩ := word_eq_ok.mp valueLength
      obtain ⟨⟨value, behindValue⟩, taken, more⟩ := Read.bind_eq_ok.mp valued
      obtain ⟨rfl, rfl⟩ := bytes_eq_ok.mp taken
      obtain ⟨x, entries, rfl⟩ := ih more
      have present := List.ne_nil_of_length_pos (Nat.pos_of_ne_zero some)
      refine ⟨_, .entry present short brief entries, ?_⟩
      simp [leBytes]

theorem unserializeFrom_ne_null (rounds : Nat) (attrs : AttrMap) (ptr : Bytes) :
    AttrMap.unserializeFrom rounds attrs ptr ≠ .null := by
  induction rounds generalizing attrs ptr with
  | zero => exact fun impossible => by cases impossible
  | succ rounds ih =>
    rw [AttrMap.unserializeFrom]
    refine Read.bind_ne_null (word_ne_null _ _) fun l _ => ?_
    dsimp only
    split
    · exact fun impossible => by cases impossible
    · refine Read.bind_ne_null (bytes_ne_null _ _) fun name _ => ?_
      refine Read.bind_ne_null (word_ne_null _ _) fun ll _ => ?_
      exact Read.bind_ne_null (bytes_ne_null _ _) fun value _ => ih _ _

section Reading
variable (d : Bytes)

/-- The attributes are read up to the end of the record exactly if it ends with entries. -/
theorem unserialize_ends_iff (offset : Nat) (inside : offset ≤ d.length + 1) :
    (∃ attrs last, AttrMap.unserialize ((d ++ [0]).drop offset) = .ok (attrs, last) ∧
      last.length = 1) ↔ Entries (d.drop offset) := by
  rw [AttrMap.unserialize]
  constructor
  · rintro ⟨attrs, last, read, single⟩
    obtain ⟨x, entries, string⟩ := entries_of_unserializeFrom read
    have whole : offset ≤ d.length := by
      have length := congrArg List.length string
      rw [List.length_append, single, List.length_drop, List.length_append,
        List.length_singleton] at length
      omega
    rw [List.drop_append_of_le_length whole] at string
    rw [(List.append_inj' string (by rw [single, List.length_singleton])).1]
    exact entries
  · intro entries
    have whole : offset ≤ d.length := by
      by_contra! behind
      rw [List.drop_of_length_le (Nat.le_of_lt behind)] at entries
      cases entries
    rw [List.drop_append_of_le_length whole]
    have enough : (d.drop offset).length < (d.drop offset ++ [0]).length + 1 := by
      rw [List.length_append]
      omega
    obtain ⟨attrs, read⟩ := unserializeFrom_entries entries [] enough [0]
    exact ⟨attrs, [0], read, rfl⟩

theorem unserializeAll_drop (direction : Int) (h : Handle) (key : Option (Vector UInt8 16))
    (count offset : Nat) :
    (Share.unserializeAll direction h key count ((d ++ [0]).drop offset)).2 =
      (d ++ [0]).drop (offset + 18 * min count ((d.length - offset) / 18)) := by
  induction count generalizing offset with
  | zero => simp [Share.unserializeAll]
  | succ count ih =>
    rw [Share.unserializeAll, Share.unserialize, require_drop, List.length_append,
      List.length_singleton]
    by_cases room : offset + 18 < d.length + 1
    · have enough : offset + 18 ≤ (d ++ [0]).length := by
        rw [List.length_append]
        exact Nat.le_of_lt room
      have counted : (d.length - offset) / 18 = (d.length - (offset + 18)) / 18 + 1 := by omega
      rw [if_pos room, Read.bind_ok, word_drop (Nat.le_trans (by omega) enough), Read.bind_ok]
      dsimp only
      rw [word_drop (Nat.le_trans (by omega) enough), Read.bind_ok]
      dsimp only
      rw [word_drop (Nat.le_trans (by omega) enough), Read.bind_ok]
      dsimp only
      rw [bytes_drop (Nat.le_trans (by omega) enough), Read.bind_ok]
      dsimp only
      rw [ih, counted, Nat.add_min_add_right]
      congr 1
      omega
    · have none : (d.length - offset) / 18 = 0 := by omega
      rw [if_neg room, none]
      simp [Read.bind]

/-- The byte at an offset, with the NUL behind the record. -/
theorem word_one_drop {offset : Nat} (inside : offset ≤ d.length) :
    word 1 ((d ++ [0]).drop offset) =
      .ok ((d.getD offset 0).toNat, (d ++ [0]).drop (offset + 1)) := by
  have byte : ((d ++ [0]).drop offset).take 1 = [d.getD offset 0] := by
    rcases Nat.lt_or_eq_of_le inside with before | rfl
    · rw [List.drop_append_of_le_length inside]
      rw [List.drop_eq_getElem_cons before, List.getD, List.getElem?_eq_getElem before]
      rfl
    · simp
  rw [word_drop (by simpa using inside), byte]
  simp [ofLe]

theorem skip_drop (fields : Nat) {offset : Nat} (inside : offset ≤ d.length) :
    NodeHead.skip fields ((d ++ [0]).drop offset) =
      .ok ((d ++ [0]).drop (reservedFrom d fields offset)) ∧
        reservedFrom d fields offset ≤ d.length := by
  induction fields generalizing offset with
  | zero => exact ⟨rfl, inside⟩
  | succ fields ih =>
    rw [NodeHead.skip, word_one_drop d inside, Read.bind_ok, reservedFrom]
    dsimp only
    have length : ((d ++ [0]).drop offset).length = d.length + 1 - offset := by simp
    rw [length]
    by_cases fits : offset + (d.getD offset 0).toNat < d.length
    · rw [if_pos (by omega), if_pos fits, List.drop_drop, Nat.add_right_comm]
      exact ih fits
    · rw [if_neg (by omega), if_neg fits]
      exact ih inside

theorem length_terminated : (d ++ [0]).length = d.length + 1 := List.length_append

theorem readKey_refused (refused : KeyRefused d) :
    NodeHead.readKey (typeOf d) ((d ++ [0]).drop 44) = .null := by
  obtain ⟨keyed, short⟩ := refused
  rw [keyEnd] at short
  rw [NodeHead.readKey, if_pos keyed, require_drop, length_terminated, if_neg (by omega)]
  rfl

theorem readKey_drop (accepted : ¬KeyRefused d) :
    NodeHead.readKey (typeOf d) ((d ++ [0]).drop 44) =
      .ok (((d ++ [0]).drop 44).take (Node.keyLength (typeOf d)), (d ++ [0]).drop (keyEnd d)) := by
  rw [NodeHead.readKey]
  by_cases keyed : Keyed d
  · have fits : keyEnd d + 10 ≤ d.length := Nat.le_of_not_lt fun short => accepted ⟨keyed, short⟩
    rw [keyEnd] at fits
    rw [if_pos keyed, require_drop, length_terminated, if_pos (by omega), Read.bind_ok,
      bytes_drop (by rw [length_terminated]; omega), keyEnd]
  · have none : Node.keyLength (typeOf d) = 0 := by
      rw [Keyed, not_or] at keyed
      rw [Node.keyLength, if_neg keyed.1, if_neg keyed.2]
    rw [if_neg keyed, keyEnd, none]
    rfl

/-- The check of the attribute string of a file. -/
theorem readFa_file (accepted : ¬KeyRefused d) (file : typeOf d = fileNode) :
    NodeHead.readFa (typeOf d) ((d ++ [0]).drop (keyEnd d)) =
      if attrsEnd d ≤ d.length ∧ (d ++ [0]).getD (attrsEnd d) 0 = 0 then
        .ok (copystring ((d ++ [0]).drop (keyEnd d + 2)), (d ++ [0]).drop (attrsEnd d))
      else .null := by
  have room : keyEnd d + 10 ≤ d.length :=
    Nat.le_of_not_lt fun short => accepted ⟨.inl file, short⟩
  have ll : ((d ++ [0]).drop (keyEnd d)).take 2 = (d.drop (keyEnd d)).take 2 := by
    rw [List.drop_append_of_le_length (by omega), List.take_append_of_le_length]
    rw [List.length_drop]
    omega
  have behind : attrsEnd d = keyEnd d + 2 + ofLe ((d.drop (keyEnd d)).take 2) := if_pos file
  have inside : ofLe ((d.drop (keyEnd d)).take 2) < d.length + 1 - (keyEnd d + 2) ↔
      attrsEnd d ≤ d.length := by
    omega
  rw [NodeHead.readFa, if_pos file, word_drop (by rw [length_terminated]; omega), Read.bind_ok, ll]
  simp only [List.length_drop, length_terminated, inside, List.drop_drop, ← behind,
    List.getD_eq_getElem?_getD, List.getElem?_drop]

theorem readFa_refused (accepted : ¬KeyRefused d) (refused : AttrsRefused d) :
    NodeHead.readFa (typeOf d) ((d ++ [0]).drop (keyEnd d)) = .null := by
  rw [readFa_file d accepted refused.1, if_neg refused.2]

theorem readFa_drop (long : 46 ≤ d.length) (keyed : ¬KeyRefused d) (accepted : ¬AttrsRefused d) :
    ∃ fa, NodeHead.readFa (typeOf d) ((d ++ [0]).drop (keyEnd d)) =
      .ok (fa, (d ++ [0]).drop (attrsEnd d)) ∧ attrsEnd d ≤ d.length := by
  by_cases file : typeOf d = fileNode
  · have fits : attrsEnd d ≤ d.length ∧ (d ++ [0]).getD (attrsEnd d) 0 = 0 := by
      by_contra unfit
      exact accepted ⟨file, unfit⟩
    exact ⟨_, by rw [readFa_file d keyed file, if_pos fits], fits.1⟩
  · have none : attrsEnd d = keyEnd d := if_neg file
    rw [NodeHead.readFa, if_neg file, none]
    refine ⟨[], rfl, ?_⟩
    by_cases folder : Keyed d
    · have fits := Nat.le_of_not_lt fun short => keyed ⟨folder, short⟩
      omega
    · rw [Keyed, not_or] at folder
      rw [keyEnd, Node.keyLength, if_neg folder.1, if_neg folder.2]
      omega

/-- The fields in front of the key are skipped. -/
theorem read_head (long : 46 ≤ d.length) :
    ∃ rest : Bytes × Bytes → Bytes × Bytes → Bytes → Int → Option (Vector UInt8 16) → NodeHead,
      (∀ k fa ptr count skey, (rest k fa ptr count skey).numshares = count) ∧
      NodeHead.read (d ++ [0]) =
        (NodeHead.readKey (typeOf d) ((d ++ [0]).drop 44)).bind fun k =>
        (NodeHead.readFa (typeOf d) k.2).bind fun fa =>
        (NodeHead.skip 8 fa.2).bind fun ptr =>
        (word 2 ptr).bind fun count =>
        (NodeHead.readShareKey (signed 16 count.1) count.2).bind fun skey =>
          .ok (rest k fa ptr (signed 16 count.1) skey.1, skey.2) := by
  have length := length_terminated d
  have size : ((d ++ [0]).drop 0).take 8 = d.take 8 := by
    rw [List.drop_zero, List.take_append_of_le_length (by omega)]
  have first : word 8 (d ++ [0]) = .ok (ofLe (d.take 8), (d ++ [0]).drop 8) := by
    rw [← size]
    exact @word_drop (d ++ [0]) 0 8 (by omega)
  rw [NodeHead.read, require, if_pos (by omega), Read.bind_ok, first, Read.bind_ok]
  dsimp only
  rw [word_drop (by omega), Read.bind_ok]
  dsimp only
  rw [word_drop (by omega), Read.bind_ok]
  dsimp only
  rw [word_drop (by omega), Read.bind_ok]
  dsimp only
  rw [word_drop (by omega), Read.bind_ok]
  dsimp only
  rw [word_drop (by omega), Read.bind_ok]
  exact ⟨fun k fa ptr count skey => ⟨_, _, _, _, _, _, _, k.1, fa.1, count, skey⟩,
    fun _ _ _ _ _ => rfl, rfl⟩

/-- Behind the reserved fields of a record that is not refused before. -/
theorem read_body (long : 46 ≤ d.length) (keyed : ¬KeyRefused d) (attributed : ¬AttrsRefused d) :
    reservedEnd d ≤ d.length ∧
    ∃ head : Int → Option (Vector UInt8 16) → NodeHead,
      (∀ count skey, (head count skey).numshares = count) ∧
      NodeHead.read (d ++ [0]) =
        (word 2 ((d ++ [0]).drop (reservedEnd d))).bind fun count =>
        (NodeHead.readShareKey (signed 16 count.1) count.2).bind fun skey =>
          .ok (head (signed 16 count.1) skey.1, skey.2) := by
  obtain ⟨rest, numshares, read⟩ := read_head d long
  obtain ⟨fa, attributes, inside⟩ := readFa_drop d long keyed attributed
  obtain ⟨skipped, bound⟩ := skip_drop d 8 inside
  refine ⟨bound, rest (((d ++ [0]).drop 44).take (Node.keyLength (typeOf d)), (d ++ [0]).drop (keyEnd d))
    (fa, (d ++ [0]).drop (attrsEnd d)) ((d ++ [0]).drop (reservedEnd d)),
    fun count skey => numshares _ _ _ count skey, ?_⟩
  rw [read, readKey_drop d keyed, Read.bind_ok, attributes, Read.bind_ok, skipped, Read.bind_ok]
  rfl

theorem read_refused (refused : Refused d) : NodeHead.read (d ++ [0]) = .null := by
  by_cases short : d.length < 46
  · rw [NodeHead.read, require, length_terminated, if_neg (by omega)]
    rfl
  have long := Nat.le_of_not_lt short
  obtain ⟨rest, -, read⟩ := read_head d long
  by_cases keyed : KeyRefused d
  · rw [read, readKey_refused d keyed]
    rfl
  by_cases attributed : AttrsRefused d
  · rw [read, readKey_drop d keyed, Read.bind_ok, readFa_refused d keyed attributed]
    rfl
  obtain ⟨before, shared, room⟩ : ShareKeyRefused d := by
    simpa only [Refused, short, keyed, attributed, false_or] using refused
  obtain ⟨-, head, -, read⟩ := read_body d long keyed attributed
  have count : signed 16 (ofLe (((d ++ [0]).drop (reservedEnd d)).take 2)) = numshares d := rfl
  rw [read, word_drop (by rw [length_terminated]; omega), Read.bind_ok, count,
    NodeHead.readShareKey, if_neg shared, require_drop, length_terminated, if_neg (by omega)]
  rfl

/-- The share count is read past the NUL. -/
theorem read_stray (accepted : ¬Refused d) (past : d.length ≤ reservedEnd d) :
    NodeHead.read (d ++ [0]) = .wild := by
  simp only [Refused, not_or] at accepted
  obtain ⟨long, keyed, attributed, -⟩ := accepted
  obtain ⟨-, head, -, read⟩ := read_body d (Nat.le_of_not_lt long) keyed attributed
  rw [read, word_drop_wild (by rw [length_terminated]; omega) (by decide)]
  rfl

theorem read_created (accepted : ¬Refused d) (inside : reservedEnd d < d.length) :
    ∃ x, NodeHead.read (d ++ [0]) = .ok (x, (d ++ [0]).drop (sharesStart d)) ∧
      x.numshares = numshares d := by
  simp only [Refused, not_or] at accepted
  obtain ⟨long, keyed, attributed, shared⟩ := accepted
  obtain ⟨-, head, count, read⟩ := read_body d (Nat.le_of_not_lt long) keyed attributed
  have same : signed 16 (ofLe (((d ++ [0]).drop (reservedEnd d)).take 2)) = numshares d := rfl
  rw [read, word_drop (by rw [length_terminated]; omega), Read.bind_ok, same,
    NodeHead.readShareKey, sharesStart]
  by_cases none : numshares d = 0
  · rw [if_pos none, if_pos none]
    exact ⟨_, rfl, count _ _⟩
  · have room : reservedEnd d + 18 ≤ d.length :=
      Nat.le_of_not_lt fun short => shared ⟨inside, none, short⟩
    rw [if_neg none, if_neg none, require_drop, length_terminated, if_pos (by omega), Read.bind_ok,
      bytes_drop (by rw [length_terminated]; omega)]
    exact ⟨_, rfl, count _ _⟩

end Reading

theorem sharesEnd_le {d : Bytes} (accepted : ¬Refused d) (inside : reservedEnd d < d.length) :
    sharesEnd d ≤ d.length + 1 := by
  have start : sharesStart d ≤ d.length + 1 := by
    rw [sharesStart]
    split
    · omega
    · next shared =>
      have room : reservedEnd d + 18 ≤ d.length := Nat.le_of_not_lt fun short =>
        accepted (.inr (.inr (.inr ⟨inside, shared, short⟩)))
      omega
  rw [sharesEnd]
  omega

theorem isSome_add (c : Loading) (x : NodeHead) : ((c.add x).nodes x.h).isSome := by
  rw [Loading.add]
  split <;> simp

/-- The node is in the table when the attributes are read, and only a record that ends with them
is accepted. -/
theorem unserialize_created {d : Bytes} (accepted : ¬Refused d) (inside : reservedEnd d < d.length)
    (c : Loading) :
    (Entries (d.drop (sharesEnd d)) → ∃ h, (c.unserialize d).2 = .ok h) ∧
      (¬Entries (d.drop (sharesEnd d)) → (c.unserialize d).2 = .wild ∨
        (c.unserialize d).2 = .null ∧ ∃ h, ((c.unserialize d).1.nodes h).isSome) := by
  obtain ⟨x, read, count⟩ := read_created d accepted inside
  have ends := unserialize_ends_iff d (sharesEnd d) (sharesEnd_le accepted inside)
  have shares := unserializeAll_drop d (if numshares d > 0 then -1 else 0) x.h x.skey (shareCount d)
    (sharesStart d)
  have same : (if numshares d > 0 then (numshares d).toNat else if numshares d < 0 then 1 else 0) =
      shareCount d := rfl
  have behind : sharesStart d + 18 * min (shareCount d) ((d.length - sharesStart d) / 18) =
      sharesEnd d := rfl
  rw [behind] at shares
  simp only [Loading.unserialize, read, count, same, shares]
  cases attributes : AttrMap.unserialize ((d ++ [0]).drop (sharesEnd d)) with
  | null => exact absurd attributes (unserializeFrom_ne_null _ _ _)
  | wild =>
    refine ⟨fun entries => ?_, fun _ => .inl rfl⟩
    obtain ⟨attrs, last, accepted, -⟩ := ends.mpr entries
    rw [attributes] at accepted
    cases accepted
  | ok result =>
    obtain ⟨attrs, last⟩ := result
    constructor
    · intro entries
      obtain ⟨attrs', last', accepted, single⟩ := ends.mpr entries
      rw [attributes] at accepted
      cases accepted
      exact ⟨x.h, if_pos single⟩
    · intro unended
      have more : last.length ≠ 1 :=
        fun single => unended (ends.mp ⟨attrs, last, attributes, single⟩)
      refine .inr ⟨if_neg more, x.h, ?_⟩
      simpa [Loading.modify] using isSome_add c x

/-- A record is read in bounds and leaves no node when it is refused, exactly if it is refused
before the node is created, or its attributes end with the record. -/
theorem contained_iff (d : Bytes) : Contained d ↔ Refused d ∨ Entries (d.drop (sharesEnd d)) := by
  by_cases refused : Refused d
  · refine iff_of_true (fun c => ?_) (.inl refused)
    rw [Loading.unserialize, read_refused d refused]
    exact ⟨(fun impossible => by cases impossible), fun _ => rfl⟩
  have later : Refused d ∨ Entries (d.drop (sharesEnd d)) ↔ Entries (d.drop (sharesEnd d)) :=
    or_iff_right refused
  rw [later]
  by_cases past : d.length ≤ reservedEnd d
  · refine iff_of_false (fun contained => ?_) (fun entries => ?_)
    · have first := (contained ⟨fun _ => none, [], []⟩).1
      rw [Loading.unserialize, read_stray d refused past] at first
      exact first rfl
    · have behind : d.length ≤ sharesEnd d := by
        rw [sharesEnd, sharesStart]
        omega
      rw [List.drop_of_length_le behind] at entries
      cases entries
  have inside := Nat.lt_of_not_le past
  constructor
  · intro contained
    by_contra unended
    have empty := contained ⟨fun _ => none, [], []⟩
    rcases (unserialize_created refused inside _).2 unended with wild | ⟨null, h, left⟩
    · exact empty.1 wild
    · rw [empty.2 null] at left
      cases left
  · intro entries c
    obtain ⟨h, result⟩ := (unserialize_created refused inside c).1 entries
    rw [result]
    exact ⟨(fun impossible => by cases impossible), fun impossible => by cases impossible⟩

/-- A root node whose record ends behind its share count. -/
def truncatedRecord : Bytes := leBytes 8 (2 ^ 64 - 2) ++ List.replicate 46 0

/-- The NUL ends the attributes, and the node stays. -/
theorem truncatedRecord_leaks : ¬Contained truncatedRecord := by
  intro contained
  have kept := (contained ⟨fun _ => none, [], []⟩).2 rfl
  exact Option.some_ne_none _ (congrFun kept 0)

end MegaSdk.Cache.RecordBounds
