import MegaSdk.Nodes.NodeKeys
import MegaSdk.Cache.StateCache
import MegaSdk.Cache.Shares
import MegaSdk.Crypto.Rsa
import MegaSdk.Base64

/-!
# Subkeys of compound node keys

A key string lists the node key once for each holder that may decrypt it, as `holder:key` parts
with slashes between them. `applykey` walks from colon to colon and takes the first part whose
holder is the client itself or a node with a share key.
-/

namespace MegaSdk.Nodes

open ByteOrder Crypto Base64
open Cache (Handle KeyRing Node undef)

namespace Subkeys

def slash : UInt8 := 47
def colon : UInt8 := 58

/-- `USERHANDLE`: the length of a user handle. -/
def userHandle : Int := 8

/-- What a client decrypts node keys with, and the lists of keys that it will rewrite. -/
structure Session where
  me : UInt64
  /-- `*rootnodes`. -/
  rootnode : UInt64
  key : Block
  asymkey : PrivateKey
  /-- One block of `ecb_decrypt` under a key. -/
  aesd : Aes
  decryptattr : Bytes → Bytes → Option (List (UInt64 × Bytes))
  sharekeyrewrite : List UInt64
  nodekeyrewrite : List UInt64

/-- `find_first_of(':', t)`. -/
def findColon (s : Bytes) (t : Nat) : Option Nat :=
  ((s.drop t).findIdx? fun c => c = colon).map fun i => t + i

/-- `find_last_of('/', t) + 1`, which is 0 if there is none. -/
def afterSlash (s : Bytes) (t : Nat) : Nat :=
  t + 1 - ((s.take (t + 1)).reverse.takeWhile fun c => c ≠ slash).length

/-- `byte key[FILENODEKEYLENGTH]`. -/
def keyBuffer (key : Bytes) : Vector UInt8 32 := Vector.ofFn fun i => key.getD i 0

namespace Session
variable (s : Session)

/-- `client->loggedin() ? client->me : *client->rootnodes`. -/
def identity : UInt64 := if s.me = undef then s.rootnode else s.me

/-- The share key of `nodebyhandle(h)`. Nodes have handles of 48 bits. -/
def sharekeyAt (sharekeys : Handle → Option Block) (h : UInt64) : Option Block :=
  if h.toNat < 2 ^ 48 then sharekeys (BitVec.ofNat 48 h.toNat) else none

def decryptkey (sk : Bytes) (tl : Nat) (sc : Block) (type : Nat) (node : UInt64) :
    Option (Bytes × Session) :=
  let sl := (sk.takeWhile fun c => c ≠ 0 && c ≠ 34 && c ≠ slash).length
  if sl > 43 then
    -- RSA-encrypted
    let sl := sl / 4 * 3 + 3
    if sl > 4096 then none
    else
      (decrypt s.asymkey (atob sk sl) tl).map fun tk =>
        (tk,
          if node = undef then s
          else if type ≠ 0 then { s with sharekeyrewrite := s.sharekeyrewrite ++ [node] }
          else { s with nodekeyrewrite := s.nodekeyrewrite ++ [node] })
  else
    let tk := atob sk tl
    if tk.length = tl then some (ecbData (s.aesd sc) tk, s) else none

/-- The loop of `applykey` from `t` on: the last `l`, and the position and the cipher of the
subkey. -/
def locate (sharekeys : Handle → Option Block) (keystring : Bytes) :
    Nat → Nat → Int → Int × Option (Nat × Block)
  | 0, _, l => (l, none)
  | fuel + 1, t, l =>
    match findColon keystring t with
    | none => (l, none)
    | some t =>
      let handle := atob (keystring.drop (afterSlash keystring t)) 8
      let l : Int := handle.length
      let h := UInt64.ofNat (ofLe handle)
      let t := t + 1
      if l = userHandle then
        if h ≠ s.identity then locate sharekeys keystring fuel t l
        else (l, some (t, s.key))
      else if h ≠ s.identity then
        match sharekeyAt sharekeys h with
        | none => locate sharekeys keystring fuel t l
        | some sc => (l, some (t, sc))
      else (l, some (t, s.key))

/-- The subkey that `applykey` uses, and its cipher. -/
def select (sharekeys : Handle → Option Block) (keystring : Bytes) : Option (Bytes × Block) :=
  match s.locate sharekeys keystring (keystring.length + 1) 0 (-1) with
  | (_, some (t, sc)) => some (keystring.drop t, sc)
  | (l, none) => if l < 0 then some (keystring, s.key) else none

/-- The key material of the client as the state cache consults it. -/
def ring : KeyRing where
  subkey := fun sharekeys h type keystring =>
    (s.select sharekeys keystring).bind fun (k, sc) =>
      (s.decryptkey k (keyLength type) sc 0 (UInt64.ofNat h.toNat)).map fun key => keyBuffer key.1
  decryptattr := s.decryptattr

/-- The end of `applykey`, which tells whether a subkey was found. -/
def applySubkey (nodehandle : UInt64) (n : Node) (k : Bytes) (sc : Block) :
    Bool × Node × Session :=
  match s.decryptkey k (keyLength n.type) sc 0 nodehandle with
  | some (key, after) => (true, s.ring.setkey { n with keystring := [] } (keyBuffer key), after)
  | none => (true, n, s)

def applykey (nodes : Handle → Option Node) (nodehandle : UInt64) (n : Node) :
    Bool × Node × Session :=
  if n.keystring = [] then (false, n, s)
  else
    match s.select (KeyRing.shareKeys nodes) n.keystring with
    | some (k, sc) => s.applySubkey nodehandle n k sc
    | none => (false, n, s)

end Session

/-- The holder of a subkey: a shared node or a user. -/
inductive Holder where
  | node (h : Handle)
  | user (u : UInt64)

/-- The handle as it is encoded, in 6 or 8 bytes. -/
def Holder.handle : Holder → Bytes
  | node h => leBytes 6 h.toNat
  | user u => leBytes 8 u.toNat

structure Subkey where
  holder : Holder
  key : Bytes
  base64 : ∀ c ∈ key, from64 c ≠ 255

namespace Subkey

def text (e : Subkey) : Bytes := btoa e.holder.handle ++ colon :: e.key

/-- The key of the subkey's cipher, if the client can decrypt it: its own key for its own
identity, else the share key of the node. -/
def cipher (s : Session) (sharekeys : Handle → Option Block) (e : Subkey) : Option Block :=
  match e.holder with
  | .user u => if u = s.identity then some s.key else none
  | .node h => if UInt64.ofNat h.toNat = s.identity then some s.key else sharekeys h

/-- The first subkey that the client can decrypt. -/
def first (s : Session) (sharekeys : Handle → Option Block) (entries : List Subkey) :
    Option (Bytes × Block) :=
  entries.findSome? fun e => (e.cipher s sharekeys).map fun sc => (e.key, sc)

def compound (entries : List Subkey) : Bytes := [slash].intercalate (entries.map text)

end Subkey

section Positions
variable {pre gap name rest : Bytes}

theorem findColon_append (clear : colon ∉ gap) :
    findColon (pre ++ gap ++ colon :: rest) pre.length = some (pre ++ gap).length := by
  have absent : gap.findIdx? (fun c => decide (c = colon)) = none := by
    rw [List.findIdx?_eq_none_iff]
    intro c mem
    exact decide_eq_false fun eq => clear (eq ▸ mem)
  rw [findColon, List.append_assoc, List.drop_left, List.findIdx?_append, absent]
  simp [List.findIdx?_cons]

theorem findColon_none (pre : Bytes) (clear : colon ∉ gap) :
    findColon (pre ++ gap) pre.length = none := by
  rw [findColon, List.drop_left, Option.map_eq_none_iff, List.findIdx?_eq_none_iff]
  intro c mem
  exact decide_eq_false fun eq => clear (eq ▸ mem)

/-- The part begins behind the last slash, or at the start. -/
theorem afterSlash_append (start : ∀ c ∈ pre.getLast?, c = slash) (clear : slash ∉ name) :
    afterSlash (pre ++ name ++ colon :: rest) (pre ++ name).length = pre.length := by
  have taken : (pre ++ name ++ colon :: rest).take ((pre ++ name).length + 1) =
      pre ++ name ++ [colon] := by
    rw [List.take_append, List.take_of_length_le (Nat.le_succ _)]
    simp
  have back : (pre ++ name ++ [colon]).reverse = (colon :: name.reverse) ++ pre.reverse := by
    simp
  have skipped : ∀ c ∈ colon :: name.reverse, decide (c ≠ slash) = true := by
    intro c mem
    rw [decide_eq_true_eq]
    rintro rfl
    rcases List.mem_cons.mp mem with eq | inside
    · exact absurd eq (by decide)
    · exact clear (List.mem_reverse.mp inside)
  have stops : pre.reverse.takeWhile (fun c => decide (c ≠ slash)) = [] := by
    rcases List.eq_nil_or_concat pre with rfl | ⟨front, c, rfl⟩
    · rfl
    · have last := start c (by simp)
      simp [last]
  rw [afterSlash, taken, back, List.takeWhile_append_of_pos skipped, stops]
  simp

end Positions

theorem from64_slash : from64 slash = 255 := by decide

theorem from64_colon : from64 colon = 255 := by decide

theorem not_mem_btoa {c : UInt8} (outside : from64 c = 255) (bytes : Bytes) : c ∉ btoa bytes := by
  intro mem
  obtain ⟨d, rfl⟩ := mem_btoa mem
  rw [from64_to64] at outside
  exact sextet_ne d outside

theorem not_mem_key {c : UInt8} (outside : from64 c = 255) (e : Subkey) : c ∉ e.key :=
  fun mem => e.base64 c mem outside

/-- What a subkey is followed by: the end of the string, or the slash before the next part. -/
def Ends (tail : Bytes) : Prop := tail = [] ∨ ∃ more, tail = slash :: more

theorem atob_ends {tail : Bytes} (ends : Ends tail) (k : Bytes) (blen : Nat) :
    atob (k ++ tail) blen = atob k blen := by
  rcases ends with rfl | ⟨more, rfl⟩
  · rw [List.append_nil]
  · have stop : from64 ((slash :: more).headD 0) = 255 := from64_slash
    exact atob_append stop k blen

/-- `decryptkey` reads a subkey up to its end. -/
theorem decryptkey_ends {tail : Bytes} (ends : Ends tail) (s : Session) (k : Bytes) (tl : Nat)
    (sc : Block) (type : Nat) (node : UInt64) :
    s.decryptkey (k ++ tail) tl sc type node = s.decryptkey k tl sc type node := by
  have measured : (k ++ tail).takeWhile (fun c => c ≠ 0 && c ≠ 34 && c ≠ slash) =
      k.takeWhile fun c => c ≠ 0 && c ≠ 34 && c ≠ slash := by
    rcases ends with rfl | ⟨more, rfl⟩
    · rw [List.append_nil]
    · rw [List.takeWhile_append]
      split
      · next whole =>
        have stops : (slash :: more).takeWhile (fun c => c ≠ 0 && c ≠ 34 && c ≠ slash) = [] := by
          simp
        rw [stops, List.append_nil]
        exact ((List.takeWhile_prefix _).eq_of_length whole).symm
      · rfl
  simp only [Session.decryptkey, measured, atob_ends ends]

/-- The handle of a part as `applykey` reads it. -/
theorem atob_handle (e : Subkey) (rest : Bytes) :
    atob (btoa e.holder.handle ++ colon :: rest) 8 = e.holder.handle := by
  have fits : e.holder.handle.length ≤ 8 := by
    cases e.holder <;> simp [Holder.handle]
  have stop : from64 ((colon :: rest).headD 0) = 255 := from64_colon
  rw [atob_append stop, atob_btoa _ fits]

theorem value_user (u : UInt64) : UInt64.ofNat (ofLe (Holder.handle (.user u))) = u := by
  have small : u.toNat < 256 ^ 8 := u.toNat_lt
  rw [Holder.handle, ofLe_leBytes, Nat.mod_eq_of_lt small, UInt64.ofNat_toNat]

theorem value_node (h : Handle) :
    UInt64.ofNat (ofLe (Holder.handle (.node h))) = UInt64.ofNat h.toNat := by
  have small : h.toNat < 256 ^ 6 := h.isLt
  rw [Holder.handle, ofLe_leBytes, Nat.mod_eq_of_lt small]

theorem sharekeyAt_node (sharekeys : Handle → Option Block) (h : Handle) :
    Session.sharekeyAt sharekeys (UInt64.ofNat h.toNat) = sharekeys h := by
  have small := h.isLt
  have value : (UInt64.ofNat h.toNat).toNat = h.toNat := by
    rw [UInt64.toNat_ofNat']
    exact Nat.mod_eq_of_lt (by omega)
  rw [Session.sharekeyAt, value, if_pos small, BitVec.ofNat_toNat, BitVec.setWidth_eq]

/-- One round of the loop, at the part `e`. -/
theorem locate_part (s : Session) (sharekeys : Handle → Option Block) (e : Subkey)
    {pre gap : Bytes} (rest : Bytes) (clear : colon ∉ gap)
    (start : ∀ c ∈ (pre ++ gap).getLast?, c = slash) (fuel : Nat) (l : Int) :
    let found := pre ++ gap ++ btoa e.holder.handle ++ [colon]
    s.locate sharekeys (found ++ rest) (fuel + 1) pre.length l =
      match e.cipher s sharekeys with
      | some sc => (e.holder.handle.length, some (found.length, sc))
      | none => s.locate sharekeys (found ++ rest) fuel found.length e.holder.handle.length := by
  intro found
  have string : found ++ rest = pre ++ (gap ++ btoa e.holder.handle) ++ colon :: rest := by
    simp [found]
  have nameClear : colon ∉ gap ++ btoa e.holder.handle := by
    rw [List.mem_append, not_or]
    exact ⟨clear, not_mem_btoa from64_colon _⟩
  have colonAt : findColon (found ++ rest) pre.length =
      some (pre ++ gap ++ btoa e.holder.handle).length := by
    rw [string, findColon_append nameClear, List.append_assoc]
  have slashAt : afterSlash (found ++ rest) (pre ++ gap ++ btoa e.holder.handle).length =
      (pre ++ gap).length := by
    have split : found ++ rest = pre ++ gap ++ btoa e.holder.handle ++ colon :: rest := by
      simp [found]
    rw [split, afterSlash_append start (not_mem_btoa from64_slash _)]
  have handle : atob ((found ++ rest).drop (pre ++ gap).length) 8 = e.holder.handle := by
    have behind : (found ++ rest).drop (pre ++ gap).length =
        btoa e.holder.handle ++ colon :: rest := by
      have split : found ++ rest = (pre ++ gap) ++ (btoa e.holder.handle ++ colon :: rest) := by
        simp [found]
      rw [split, List.drop_left]
    rw [behind, atob_handle]
  have next : (pre ++ gap ++ btoa e.holder.handle).length + 1 = found.length := by
    rw [← List.length_concat, List.concat_eq_append]
  rw [Session.locate]
  simp only [colonAt, slashAt, handle, next]
  cases holder : e.holder with
  | user u =>
    have length : (Holder.handle (.user u)).length = 8 := length_leBytes 8 _
    simp only [length, value_user, Subkey.cipher, holder, userHandle]
    by_cases own : u = s.identity
    · simp [own]
    · simp [own]
  | node h =>
    have length : (Holder.handle (.node h)).length = 6 := length_leBytes 6 _
    simp only [length, value_node, sharekeyAt_node, Subkey.cipher, holder, userHandle]
    by_cases own : UInt64.ofNat h.toNat = s.identity
    · simp [own]
    · cases key : sharekeys h <;> simp [own]

theorem compound_cons (e : Subkey) (rest : List Subkey) :
    ∃ tail, Subkey.compound (e :: rest) = e.text ++ tail ∧ Ends tail ∧
      (tail = [] ∧ rest = [] ∨ tail = slash :: Subkey.compound rest ∧ rest ≠ []) := by
  cases rest with
  | nil => exact ⟨[], by simp [Subkey.compound], .inl rfl, .inl ⟨rfl, rfl⟩⟩
  | cons f rest =>
    refine ⟨slash :: Subkey.compound (f :: rest), ?_, .inr ⟨_, rfl⟩,
      .inr ⟨rfl, List.cons_ne_nil _ _⟩⟩
    rw [Subkey.compound, List.map_cons, List.map_cons, List.intercalate_cons_cons]
    simp [Subkey.compound]

/-- What the loop finds: the first subkey that the client can decrypt, or nothing at least one
handle later. -/
def Located (keystring : Bytes) (result : Int × Option (Nat × Block)) :
    Option (Bytes × Block) → Prop
  | some (k, sc) => ∃ l t tail, result = (l, some (t, sc)) ∧ keystring.drop t = k ++ tail ∧ Ends tail
  | none => ∃ l, 0 ≤ l ∧ result = (l, none)

theorem locate_first (s : Session) (sharekeys : Handle → Option Block) (entries : List Subkey)
    (parts : entries ≠ []) {pre gap : Bytes} (clear : colon ∉ gap)
    (start : ∀ c ∈ (pre ++ gap).getLast?, c = slash) {fuel : Nat} (enough : entries.length < fuel)
    (l : Int) :
    Located (pre ++ gap ++ Subkey.compound entries)
      (s.locate sharekeys (pre ++ gap ++ Subkey.compound entries) fuel pre.length l)
      (Subkey.first s sharekeys entries) := by
  induction entries generalizing pre gap fuel l with
  | nil => exact absurd rfl parts
  | cons e rest ih =>
    obtain ⟨fuel, rfl⟩ : ∃ f, fuel = f + 1 := ⟨fuel - 1, by omega⟩
    obtain ⟨tail, string, ends, more⟩ := compound_cons e rest
    have found : pre ++ gap ++ Subkey.compound (e :: rest) =
        pre ++ gap ++ btoa e.holder.handle ++ [colon] ++ (e.key ++ tail) := by
      rw [string, Subkey.text]
      simp
    rw [found, locate_part s sharekeys e (e.key ++ tail) clear start]
    cases cipher : e.cipher s sharekeys with
    | some sc =>
      rw [Subkey.first, List.findSome?_cons, cipher]
      exact ⟨_, _, tail, rfl, by rw [List.drop_left], ends⟩
    | none =>
      rw [Subkey.first, List.findSome?_cons, cipher]
      rcases more with ⟨rfl, rfl⟩ | ⟨rfl, others⟩
      · -- no colon follows
        obtain ⟨fuel, rfl⟩ : ∃ f, fuel = f + 1 := ⟨fuel - 1, by simp at enough; omega⟩
        have last := findColon_none (pre ++ gap ++ btoa e.holder.handle ++ [colon])
          (not_mem_key from64_colon e)
        simp only [List.append_nil, Session.locate, last]
        exact ⟨_, Int.natCast_nonneg _, rfl⟩
      · have clear : colon ∉ e.key ++ [slash] := by
          rw [List.mem_append, not_or]
          exact ⟨not_mem_key from64_colon e, by decide⟩
        have start : ∀ c ∈ (pre ++ gap ++ btoa e.holder.handle ++ [colon] ++
            (e.key ++ [slash])).getLast?, c = slash := by
          intro c last
          rw [← List.append_assoc, List.getLast?_concat] at last
          exact (Option.some.inj last).symm
        have skipped := ih others clear start (Nat.lt_of_succ_lt_succ enough)
          e.holder.handle.length
        have again : pre ++ gap ++ btoa e.holder.handle ++ [colon] ++ (e.key ++ [slash]) ++
            Subkey.compound rest = pre ++ gap ++ btoa e.holder.handle ++ [colon] ++
              (e.key ++ slash :: Subkey.compound rest) := by
          simp
        rw [again] at skipped
        exact skipped

theorem length_le_compound (entries : List Subkey) :
    entries.length ≤ (Subkey.compound entries).length := by
  induction entries with
  | nil => exact Nat.zero_le _
  | cons e rest ih =>
    obtain ⟨tail, string, -, more⟩ := compound_cons e rest
    rw [string, Subkey.text]
    rcases more with ⟨-, rfl⟩ | ⟨rfl, -⟩ <;> simp <;> omega

theorem compound_ne_nil {entries : List Subkey} (parts : entries ≠ []) :
    Subkey.compound entries ≠ [] := by
  have few := length_le_compound entries
  intro empty
  rw [empty, List.length_nil, Nat.le_zero_eq, List.length_eq_zero_iff] at few
  exact parts few

theorem select_compound (s : Session) (sharekeys : Handle → Option Block) {entries : List Subkey}
    (parts : entries ≠ []) :
    match Subkey.first s sharekeys entries with
    | some (k, sc) => ∃ tail, Ends tail ∧
        s.select sharekeys (Subkey.compound entries) = some (k ++ tail, sc)
    | none => s.select sharekeys (Subkey.compound entries) = none := by
  have located := @locate_first s sharekeys entries parts [] [] List.not_mem_nil
    (fun c last => by cases last) _ (Nat.lt_succ_of_le (length_le_compound entries)) (-1)
  rw [List.append_nil, List.nil_append, List.length_nil] at located
  rw [Session.select]
  cases first : Subkey.first s sharekeys entries with
  | some found =>
    obtain ⟨k, sc⟩ := found
    rw [first] at located
    obtain ⟨l, t, tail, result, string, ends⟩ := located
    rw [result]
    refine ⟨tail, ends, ?_⟩
    dsimp only
    rw [string]
  | none =>
    rw [first] at located
    obtain ⟨l, nonneg, result⟩ := located
    rw [result]
    exact if_neg (not_lt.mpr nonneg)

theorem select_plain (s : Session) (sharekeys : Handle → Option Block) {keystring : Bytes}
    (plain : colon ∉ keystring) : s.select sharekeys keystring = some (keystring, s.key) := by
  have none := findColon_none [] plain
  rw [List.nil_append, List.length_nil] at none
  simp [Session.select, Session.locate, none]

/-- The node becomes what the state cache expects of its key material. -/
theorem applykey_ring (s : Session) (nodes : Handle → Option Node) (h : Handle) (n : Node) :
    (s.applykey nodes (UInt64.ofNat h.toNat) n).2.1 = s.ring.applykey nodes h n := by
  rw [Session.applykey, KeyRing.applykey]
  split
  · rfl
  · cases selected : s.select (KeyRing.shareKeys nodes) n.keystring with
    | none => simp [Session.ring, selected]
    | some found =>
      simp only [Session.ring, selected, Option.bind_some, Session.applySubkey]
      cases s.decryptkey found.1 (keyLength n.type) found.2 0 (UInt64.ofNat h.toNat) <;> rfl

/-- What `decryptkey` returns fills the key that was asked for. -/
theorem length_decryptkey {s after : Session} {sk key : Bytes} {tl : Nat} {sc : Block} {type : Nat}
    {node : UInt64} (whole : blockSize ∣ tl)
    (decrypted : s.decryptkey sk tl sc type node = some (key, after)) : key.length = tl := by
  rw [Session.decryptkey] at decrypted
  split at decrypted
  · dsimp only at decrypted
    split at decrypted
    · cases decrypted
    · obtain ⟨tk, plain, same⟩ := Option.map_eq_some_iff.mp decrypted
      obtain ⟨rfl, -⟩ := Prod.mk.inj same
      rw [decrypt] at plain
      split at plain
      · obtain rfl := Option.some.inj plain
        rw [List.length_map, List.length_reverse, List.length_range]
      · cases plain
  · dsimp only at decrypted
    split at decrypted
    · rename_i full
      obtain ⟨rfl, -⟩ := Prod.mk.inj (Option.some.inj decrypted)
      rw [ecbData, length_ecbBlocks, full, Nat.div_mul_cancel whole]
    · cases decrypted

theorem blockSize_dvd_keyLength (type : NodeType) : blockSize ∣ keyLength type := by
  rw [keyLength]
  split <;> decide

theorem take_keyBuffer {key : Bytes} (fits : key.length ≤ 32) :
    (keyBuffer key).toList.take key.length = key := by
  refine List.ext_getElem ?_ fun i _ inside => ?_
  · rw [List.length_take, Vector.length_toList, Nat.min_eq_left fits]
  · simp [keyBuffer, inside]

/-- What a subkey does to the node: a refused one leaves everything as it was, and one that can be
decrypted is the node's key from then on, in place of the key string. -/
structure Applies (s : Session) (nodehandle : UInt64) (n : Node) (k : Bytes) (sc : Block)
    (result : Bool × Node × Session) : Prop where
  found : result.1 = true
  refused : s.decryptkey k (keyLength n.type) sc 0 nodehandle = none → result.2 = (n, s)
  applied : ∀ key after, s.decryptkey k (keyLength n.type) sc 0 nodehandle = some (key, after) →
    result.2.1.keystring = [] ∧ result.2.1.nodekey = key ∧ key.length = keyLength n.type
  node : ∀ key after, s.decryptkey k (keyLength n.type) sc 0 nodehandle = some (key, after) →
    result.2 = (s.ring.setattr { n with keystring := [], nodekey := key }, after)

theorem setattr_keys (ring : KeyRing) (n : Node) :
    (ring.setattr n).keystring = n.keystring ∧ (ring.setattr n).nodekey = n.nodekey := by
  rw [KeyRing.setattr]
  split
  · exact ⟨rfl, rfl⟩
  · split
    · exact ⟨rfl, rfl⟩
    · exact ⟨rfl, rfl⟩

theorem applySubkey_applies (s : Session) (nodehandle : UInt64) (n : Node) (k : Bytes)
    (sc : Block) : Applies s nodehandle n k sc (s.applySubkey nodehandle n k sc) := by
  have assigned : ∀ key after,
      s.decryptkey k (keyLength n.type) sc 0 nodehandle = some (key, after) →
        key.length = keyLength n.type ∧ (s.applySubkey nodehandle n k sc).2 =
          (s.ring.setattr { n with keystring := [], nodekey := key }, after) := by
    intro key after decrypted
    have length := length_decryptkey (blockSize_dvd_keyLength n.type) decrypted
    have taken : (keyBuffer key).toList.take key.length = key := by
      refine take_keyBuffer ?_
      rw [length, keyLength]
      split <;> decide
    refine ⟨length, ?_⟩
    rw [length, keyLength] at taken
    rw [Session.applySubkey, decrypted]
    dsimp only
    rw [KeyRing.setkey, taken]
  constructor
  · rw [Session.applySubkey]
    split <;> rfl
  · intro refused
    rw [Session.applySubkey, refused]
  · intro key after decrypted
    obtain ⟨length, result⟩ := assigned key after decrypted
    obtain ⟨cleared, nodekey⟩ := setattr_keys s.ring { n with keystring := [], nodekey := key }
    rw [result]
    exact ⟨cleared, nodekey, length⟩
  · intro key after decrypted
    exact (assigned key after decrypted).2

/-- A compound key string is applied through its first subkey that the client can decrypt, and left
alone if there is none; a key string without a colon is applied as a whole under the client's
key. The nodes of the state cache are keyed in the same way. -/
theorem applykey_selects (s : Session) (nodes : Handle → Option Node) (nodehandle : UInt64)
    (n : Node) :
    (∀ entries, entries ≠ [] → n.keystring = Subkey.compound entries →
      (Subkey.first s (KeyRing.shareKeys nodes) entries).elim
        (s.applykey nodes nodehandle n = (false, n, s)) fun found =>
          Applies s nodehandle n found.1 found.2 (s.applykey nodes nodehandle n)) ∧
    (n.keystring ≠ [] → colon ∉ n.keystring →
      Applies s nodehandle n n.keystring s.key (s.applykey nodes nodehandle n)) ∧
    ∀ h, nodehandle = UInt64.ofNat h.toNat →
      (s.applykey nodes nodehandle n).2.1 = s.ring.applykey nodes h n := by
  refine ⟨?_, ?_, ?_⟩
  · intro entries parts string
    have selected := select_compound s (KeyRing.shareKeys nodes) parts
    rw [Session.applykey, string, if_neg (compound_ne_nil parts)]
    cases first : Subkey.first s (KeyRing.shareKeys nodes) entries with
    | none =>
      rw [first] at selected
      rw [selected]
      rfl
    | some found =>
      rw [first] at selected
      obtain ⟨tail, ends, selected⟩ := selected
      have same : s.applySubkey nodehandle n (found.1 ++ tail) found.2 =
          s.applySubkey nodehandle n found.1 found.2 := by
        simp only [Session.applySubkey, decryptkey_ends ends]
      rw [selected, Option.elim_some]
      dsimp only
      rw [same]
      exact applySubkey_applies s nodehandle n found.1 found.2
  · intro some plain
    rw [Session.applykey, if_neg some, select_plain s _ plain]
    exact applySubkey_applies s nodehandle n n.keystring s.key
  · rintro h rfl
    exact applykey_ring s nodes h n

/-- A user, with the shares of a folder of someone else. -/
def sampleSession : Session where
  me := 7
  rootnode := undef
  key := load (ascii "0123456789abcdef")
  asymkey := ⟨3, 11, 7, 2⟩
  aesd := xorBlock
  decryptattr := fun _ _ => none
  sharekeyrewrite := []
  nodekeyrewrite := []

def sampleSubkey (holder : Holder) : Subkey where
  holder := holder
  key := ascii "AAAAAAAAAAAAAAAAAAAAAA"
  base64 := by decide +kernel

def sampleParts : List Subkey :=
  [sampleSubkey (.user 8), sampleSubkey (.node 9), sampleSubkey (.node 3), sampleSubkey (.user 7)]

def sampleNode (keystring : Bytes) (sharekey : Option Block) : Node where
  type := folderNode
  size := 0
  nodekey := []
  keystring := keystring
  info := ⟨7, 0, 0, [], [], [], none, [], sharekey⟩
  parent := none
  removed := false
  notified := false
  dbid := 0

def sampleNodes (h : Handle) : Option Node :=
  if h = 3 then some (sampleNode [] (some (load (ascii "share key")))) else none

/-- A foreign user and an unknown node come before the shared folder, and a personal key has no
holder. -/
theorem applykey_selects_samples :
    let key := ascii "AAAAAAAAAAAAAAAAAAAAAA"
    let shared := sampleNode (Subkey.compound sampleParts) none
    let personal := sampleNode key none
    Applies sampleSession 5 shared key (load (ascii "share key"))
        (sampleSession.applykey sampleNodes 5 shared) ∧
      Applies sampleSession 5 personal key sampleSession.key
        (sampleSession.applykey sampleNodes 5 personal) ∧
      (sampleSession.applykey sampleNodes 5 shared).2.1.nodekey =
        (load (ascii "share key")).toList :=
  ⟨(applykey_selects sampleSession sampleNodes 5 _).1 sampleParts (List.cons_ne_nil _ _) rfl,
    (applykey_selects sampleSession sampleNodes 5 _).2.1 (by decide) (by decide), by decide +kernel⟩

end Subkeys

end MegaSdk.Nodes
