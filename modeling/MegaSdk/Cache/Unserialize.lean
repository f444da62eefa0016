import MegaSdk.Cache.NodeRecord
import MegaSdk.Lib.RecordReader

/-!
# Reading node records

`Node::unserialize` with `Share::unserialize` and `AttrMap::unserialize`. A node enters the
node table before its shares and attributes are read; the shares only enter a queue, and a
node waits for a parent that has not been read yet.
-/

namespace MegaSdk.Cache

open ByteOrder RecordReader

namespace AttrMap

/-- The loop of `unserialize`, for at most `rounds` entries. -/
def unserializeFrom : Nat → AttrMap → Bytes → Read (AttrMap × Bytes)
  | 0, _, _ => .wild
  | rounds + 1, attrs, ptr =>
    (word 1 ptr).bind fun (l, ptr) =>
      if l = 0 then .ok (attrs, ptr)
      else
        (bytes l ptr).bind fun (name, ptr) =>
          (word 2 ptr).bind fun (ll, ptr) =>
            (bytes ll ptr).bind fun (value, ptr) =>
              unserializeFrom rounds (attrs.set (packed name) value) ptr

def unserialize (ptr : Bytes) : Read (AttrMap × Bytes) := unserializeFrom (ptr.length + 1) [] ptr

end AttrMap

/-- A queued change of a share: `outgoing` is 0 for an inbound share, negative for an outbound
share from the cache, and positive for one that the server reported. -/
structure NewShare where
  h : Handle
  outgoing : Int
  peer : UInt64
  access : AccessLevel
  ts : Int64
  key : Option (Vector UInt8 16)
  auth : Option (Vector UInt8 16)
  deriving DecidableEq

/-- A signed integer of `width` bits. -/
def signed (width value : Nat) : Int := (BitVec.ofNat width value).toInt

def toKey (key : Bytes) : Vector UInt8 16 := Vector.ofFn fun i => key.getD i 0

/-- `Share::unserialize`: the queued share and the pointer behind it. -/
def Share.unserialize (direction : Int) (h : Handle) (key : Option (Vector UInt8 16))
    (ptr : Bytes) :
    Read (NewShare × Bytes) :=
  (require 18 ptr).bind fun _ =>
    (word 8 ptr).bind fun (peer, ptr) =>
      (word 8 ptr).bind fun (ts, ptr) =>
        (word 1 ptr).bind fun (access, ptr) =>
          (bytes 1 ptr).bind fun (_, ptr) =>
            .ok (⟨h, direction, UInt64.ofNat peer, signed 8 access, (UInt64.ofNat ts).toInt64, key,
              none⟩, ptr)

/-- The loop over the shares of a record: it ends with the count or a short record. -/
def Share.unserializeAll (direction : Int) (h : Handle) (key : Option (Vector UInt8 16)) :
    Nat → Bytes → List NewShare × Bytes
  | 0, ptr => ([], ptr)
  | count + 1, ptr =>
    match Share.unserialize direction h key ptr with
    | .ok (share, ptr) =>
      let (more, ptr) := unserializeAll direction h key count ptr
      (share :: more, ptr)
    | _ => ([], ptr)

/-- `Node::copystring`: up to a quote or the end of the string. -/
def copystring (p : Bytes) : Bytes := p.takeWhile fun c => c ≠ 0 && c ≠ 34

/-- What `Node::unserialize` reads before it creates the node. -/
structure NodeHead where
  h : Handle
  ph : Option Handle
  t : NodeType
  s : Int64
  u : UInt64
  tm : Int64
  ts : Int64
  k : Bytes
  fa : Bytes
  numshares : Int
  skey : Option (Vector UInt8 16)

namespace NodeHead

/-- The type in the type/size word: small negative numbers are not sizes. -/
def typeOf (s : Int64) : NodeType := if s < 0 ∧ -5 ≤ s then -s.toInt else fileNode

/-- The key of a file or folder, empty for other nodes. -/
def readKey (t : NodeType) (ptr : Bytes) : Read (Bytes × Bytes) :=
  if t = fileNode ∨ t = folderNode then
    (require (Node.keyLength t + 10) ptr).bind fun _ => bytes (Node.keyLength t) ptr
  else .ok ([], ptr)

/-- The file attribute string: the byte behind it must be NUL. -/
def readFa (t : NodeType) (ptr : Bytes) : Read (Bytes × Bytes) :=
  if t = fileNode then
    (word 2 ptr).bind fun (ll, ptr) =>
      if ll < ptr.length ∧ ptr.getD ll 0 = 0 then .ok (copystring ptr, ptr.drop ll) else .null
  else .ok ([], ptr)

/-- The walk over the reserved fields, each with its length in front. -/
def skip : Nat → Bytes → Read Bytes
  | 0, ptr => .ok ptr
  | fields + 1, ptr =>
    (word 1 ptr).bind fun (l, next) =>
      if l + 1 < ptr.length then skip fields (next.drop l) else skip fields ptr

def readShareKey (numshares : Int) (ptr : Bytes) : Read (Option (Vector UInt8 16) × Bytes) :=
  if numshares = 0 then .ok (none, ptr)
  else
    (require 16 ptr).bind fun _ =>
      (bytes 16 ptr).bind fun (skey, ptr) => .ok (some (toKey skey), ptr)

def read (ptr : Bytes) : Read (NodeHead × Bytes) :=
  (require 46 ptr).bind fun _ =>
  (word 8 ptr).bind fun (s, ptr) =>
  let s := (UInt64.ofNat s).toInt64
  (word 6 ptr).bind fun (h, ptr) =>
  (word 6 ptr).bind fun (ph, ptr) =>
  (word 8 ptr).bind fun (u, ptr) =>
  (word 8 ptr).bind fun (tm, ptr) =>
  (word 8 ptr).bind fun (ts, ptr) =>
  (readKey (typeOf s) ptr).bind fun (k, ptr) =>
  (readFa (typeOf s) ptr).bind fun (fa, ptr) =>
  (skip 8 ptr).bind fun ptr =>
  (word 2 ptr).bind fun (numshares, ptr) =>
  (readShareKey (signed 16 numshares) ptr).bind fun (skey, ptr) =>
    .ok ({
      h := BitVec.ofNat 48 h
      ph := if ph = 0 then none else some (BitVec.ofNat 48 ph)
      t := typeOf s
      s := s
      u := UInt64.ofNat u
      tm := (UInt64.ofNat (tm % 2 ^ 32)).toInt64
      ts := (UInt64.ofNat (ts % 2 ^ 32)).toInt64
      k := k
      fa := fa
      numshares := signed 16 numshares
      skey := skey }, ptr)

def node (x : NodeHead) : Node where
  type := x.t
  size := x.s
  nodekey := x.k
  keystring := []
  info := {
    owner := x.u
    clienttimestamp := x.tm
    ctime := x.ts
    fileattrstring := x.fa
    attrstring := []
    attrs := []
    inshare := none
    outshares := []
    sharekey := none }
  parent := none
  removed := false
  notified := false
  dbid := 0

end NodeHead

/-- The client while it reads its cache: `dp` holds nodes that wait for their parents. -/
structure Loading where
  nodes : Handle → Option Node
  newshares : List NewShare
  dp : List (Handle × Option Handle)

namespace Loading

/-- `nodebyhandle` of a parent handle. -/
def known (c : Loading) (ph : Option Handle) : Bool := (ph.bind c.nodes).isSome

/-- The constructor of `Node`: the parent is linked or awaited. -/
def add (c : Loading) (x : NodeHead) : Loading :=
  let c := { c with nodes := Function.update c.nodes x.h (some x.node) }
  if c.known x.ph then
    { c with nodes := Function.update c.nodes x.h (some { x.node with parent := x.ph }) }
  else { c with dp := c.dp ++ [(x.h, x.ph)] }

def modify (c : Loading) (h : Handle) (f : Node → Node) : Loading :=
  { c with nodes := Function.update c.nodes h ((c.nodes h).map f) }

/-- `Node::unserialize`: the client afterwards, and the handle of the node. -/
def unserialize (c : Loading) (d : Bytes) : Loading × Read Handle :=
  match NodeHead.read (d ++ [0]) with
  | .null => (c, .null)
  | .wild => (c, .wild)
  | .ok (x, ptr) =>
    let c := c.add x
    let count := if x.numshares > 0 then x.numshares.toNat else if x.numshares < 0 then 1 else 0
    let (shares, ptr) :=
      Share.unserializeAll (if x.numshares > 0 then -1 else 0) x.h x.skey count ptr
    let c := { c with newshares := c.newshares ++ shares }
    match AttrMap.unserialize ptr with
    | .ok (attrs, ptr) =>
      let c := c.modify x.h fun n => { n with info := { n.info with attrs := attrs } }
      (c, if ptr.length = 1 then .ok x.h else .null)
    | .null => (c, .null)
    | .wild => (c, .wild)

end Loading

/-- Names of one to eight nonzero bytes, and values whose length fits into 16 bits. -/
structure AttrMap.Storable (attrs : AttrMap) : Prop where
  ascending : attrs.Pairwise fun a b => a.1 < b.1
  named : ∀ entry ∈ attrs, ∃ name : Bytes, name ≠ [] ∧ name.length ≤ 8 ∧ (∀ c ∈ name, c ≠ 0) ∧
    entry.1 = AttrMap.packed name
  short : ∀ entry ∈ attrs, entry.2.length < 65536

namespace AttrMap

theorem unserializeFrom_entry {name value : Bytes} (nonempty : name ≠ []) (fits : name.length ≤ 8)
    (nonzero : ∀ c ∈ name, c ≠ 0) (short : value.length < 65536) (rounds : Nat) (attrs : AttrMap)
    (rest : Bytes) :
    unserializeFrom (rounds + 1) attrs (serializeEntry (packed name, value) ++ rest) =
      unserializeFrom rounds (attrs.set (packed name) value) rest := by
  have length : (UInt8.ofNat name.length).toNat = name.length := by
    rw [UInt8.toNat_ofNat']
    omega
  have some : name.length ≠ 0 := by simpa using nonempty
  have written : serializeEntry (packed name, value) ++ rest = UInt8.ofNat name.length ::
      (name ++ (leBytes 2 value.length ++ (value ++ rest))) := by
    rw [serializeEntry, nameid2string_packed fits nonzero, if_neg nonempty,
      Nat.mod_eq_of_lt short, List.take_length]
    simp
  rw [written, unserializeFrom, word_one]
  have fits16 : value.length < 256 ^ 2 := short
  simp only [Read.bind_ok, length, some, if_false, bytes_append rfl, word_append fits16]

/-- The entries come back one by one, in front of any other data. -/
theorem unserializeFrom_serialize {done todo : AttrMap} (storable : Storable (done ++ todo))
    {rounds : Nat} (enough : todo.length < rounds) (rest : Bytes) :
    unserializeFrom rounds done (todo.serialize ++ rest) = .ok (done ++ todo, rest) := by
  induction todo generalizing done rounds with
  | nil =>
    obtain ⟨n, rfl⟩ : ∃ n, rounds = n + 1 := ⟨rounds - 1, by simp at enough; omega⟩
    rw [serialize, List.flatMap_nil, List.nil_append, List.singleton_append, unserializeFrom,
      word_one]
    simp
  | cons entry todo ih =>
    obtain ⟨id, value⟩ := entry
    obtain ⟨n, rfl⟩ : ∃ n, rounds = n + 1 := ⟨rounds - 1, by simp at enough; omega⟩
    have member : (id, value) ∈ done ++ (id, value) :: todo := by simp
    obtain ⟨name, nonempty, fits, nonzero, rfl⟩ := storable.named _ member
    have last : ∀ e ∈ done, e.1 < packed name := fun e earlier =>
      (List.pairwise_append.mp storable.ascending).2.2 e earlier _ List.mem_cons_self
    have next : Storable (done ++ [(packed name, value)] ++ todo) := by simpa using storable
    have more := ih next (Nat.lt_of_succ_lt_succ enough)
    have split : AttrMap.serialize ((packed name, value) :: todo) ++ rest =
        serializeEntry (packed name, value) ++ (AttrMap.serialize todo ++ rest) := by
      simp [serialize]
    rw [split, unserializeFrom_entry nonempty fits nonzero (storable.short _ member),
      set_last last, more]
    simp

theorem length_le_serialize {attrs : AttrMap}
    (written : ∀ entry ∈ attrs, serializeEntry entry ≠ []) :
    attrs.length ≤ attrs.serialize.length := by
  rw [serialize, List.length_append]
  apply Nat.le_trans _ (Nat.le_add_right _ _)
  induction attrs with
  | nil => exact Nat.le_refl 0
  | cons entry attrs ih =>
    have positive := List.length_pos_iff.mpr (written entry List.mem_cons_self)
    have more := ih fun e mem => written e (List.mem_cons_of_mem _ mem)
    rw [List.flatMap_cons, List.length_append, List.length_cons]
    omega

/-- There are enough bytes for a round of the loop for each entry. -/
theorem Storable.length_le {attrs : AttrMap} (storable : Storable attrs) :
    attrs.length ≤ attrs.serialize.length := by
  apply length_le_serialize
  intro entry member
  obtain ⟨name, nonempty, fits, nonzero, key⟩ := storable.named entry member
  rw [serializeEntry, key, nameid2string_packed fits nonzero, if_neg nonempty]
  simp

theorem unserialize_serialize {attrs : AttrMap} (storable : Storable attrs) (rest : Bytes) :
    unserialize (attrs.serialize ++ rest) = .ok (attrs, rest) := by
  have least := storable.length_le
  have enough : attrs.length < (attrs.serialize ++ rest).length + 1 := by
    rw [List.length_append]
    omega
  exact @unserializeFrom_serialize [] attrs storable _ enough rest

end AttrMap

/-- The shares that a record holds: an inbound share leaves no room for outbound ones. -/
def Node.shares (n : Node) : List Share :=
  match n.info.inshare with
  | some share => [share]
  | none => n.info.outshares.map Prod.snd

/-- The access level fits into the byte of the record. -/
def Share.Storable (s : Share) : Prop := -128 ≤ s.access ∧ s.access < 128

def Share.queued (direction : Int) (h : Handle) (key : Option (Vector UInt8 16)) (s : Share) :
    NewShare :=
  ⟨h, direction, s.user, s.access, s.ts, key, none⟩

theorem signed_access {a : Int} (low : -128 ≤ a) (high : a < 128) :
    signed 8 (UInt8.ofNat (a % 256).toNat).toNat = a := by
  rw [signed, BitVec.toInt_eq_toNat_bmod, BitVec.toNat_ofNat, UInt8.toNat_ofNat', Int.bmod]
  omega

theorem Share.unserialize_serialize {s : Share} (storable : s.Storable) (direction : Int)
    (h : Handle) (key : Option (Vector UInt8 16)) (rest : Bytes) (more : rest ≠ []) :
    Share.unserialize direction h key (s.serialize ++ rest) =
      .ok (s.queued direction h key, rest) := by
  have user : s.user.toNat < 256 ^ 8 := s.user.toNat_lt
  have ts : s.ts.toUInt64.toNat < 256 ^ 8 := s.ts.toUInt64.toNat_lt
  have access := signed_access storable.1 storable.2
  have enough : 18 ≤ s.serialize.length := by simp [Share.serialize, word64]
  have written : s.serialize ++ rest = leBytes 8 s.user.toNat ++ (leBytes 8 s.ts.toUInt64.toNat ++
      UInt8.ofNat (s.access % 256).toNat :: ([0] ++ rest)) := by
    simp [Share.serialize, word64]
  rw [Share.unserialize, require_append enough more, Read.bind_ok, written]
  simp only [Read.bind_ok, word_append user, word_append ts, word_one]
  rw [bytes_append (n := 1) rfl]
  simp only [Read.bind_ok, access, UInt64.ofNat_toNat, Int64.toInt64_toUInt64, Share.queued]

theorem Share.unserializeAll_serialize {shares : List Share} (storable : ∀ s ∈ shares, s.Storable)
    (direction : Int) (h : Handle) (key : Option (Vector UInt8 16)) (rest : Bytes)
    (more : rest ≠ []) :
    Share.unserializeAll direction h key shares.length
        (shares.flatMap Share.serialize ++ rest) =
      (shares.map (Share.queued direction h key), rest) := by
  induction shares with
  | nil => rfl
  | cons s shares ih =>
    have first := Share.unserialize_serialize (storable s List.mem_cons_self) direction h key
      (shares.flatMap Share.serialize ++ rest) (by simp [more])
    rw [List.flatMap_cons, List.append_assoc, List.length_cons, Share.unserializeAll, first]
    simp [ih fun s mem => storable s (List.mem_cons_of_mem _ mem)]

/-- What the record can tell apart: the bounds of its fields. -/
structure Node.Storable (n : Node) : Prop where
  type : 0 ≤ n.type ∧ n.type ≤ 5
  size : n.type = fileNode → ¬(n.size < 0 ∧ -5 ≤ n.size)
  parent : n.parent ≠ some 0
  clienttimestamp : n.info.clienttimestamp.toUInt64.toNat < 2 ^ 32
  ctime : n.info.ctime.toUInt64.toNat < 2 ^ 32
  fileattrs : ∀ c ∈ n.info.fileattrstring, c ≠ 0 ∧ c ≠ 34
  fileattrsShort : n.info.fileattrstring.length < 65535
  attrs : n.info.attrs.Storable
  outshares : n.info.outshares.length ≤ 32767
  access : ∀ share ∈ n.shares, share.Storable
  sharekey : n.shares ≠ [] → n.info.sharekey.isSome

namespace Node

def sizeWord (n : Node) : Int64 := if n.type = fileNode then n.size else Int64.ofInt (-n.type)

/-- What is read of the record before the node is created. -/
def head (h : Handle) (n : Node) : NodeHead where
  h := h
  ph := n.parent
  t := n.type
  s := n.sizeWord
  u := n.info.owner
  tm := n.info.clienttimestamp
  ts := n.info.ctime
  k := n.nodekey
  fa := if n.type = fileNode then n.info.fileattrstring else []
  numshares := if n.info.inshare.isSome then -1 else n.info.outshares.length
  skey := if n.shares = [] then none else n.info.sharekey

variable {n : Node}

theorem typeOf_sizeWord (storable : n.Storable) : NodeHead.typeOf n.sizeWord = n.type := by
  rw [sizeWord]
  by_cases file : n.type = fileNode
  · rw [if_pos file, NodeHead.typeOf, if_neg (storable.size file), file]
  · have each : ∀ t : Fin 6, t.val ≠ 0 →
        NodeHead.typeOf (Int64.ofInt (-(t.val : Int))) = t.val := by decide
    obtain ⟨low, high⟩ : 0 ≤ (n.type : Int) ∧ (n.type : Int) ≤ 5 := storable.type
    have value : ((n.type.toNat : Nat) : Int) = n.type := Int.toNat_of_nonneg low
    have positive : n.type.toNat ≠ 0 := fun zero => file (by rw [← value, zero]; rfl)
    have bound : n.type.toNat < 6 := (Int.toNat_lt low).mpr (Int.lt_of_le_of_lt high (by decide))
    have single := each ⟨n.type.toNat, bound⟩ positive
    rw [if_neg file]
    simpa only [value] using single

theorem numshares_eq_zero_iff (storable : n.Storable) : n.numshares = 0 ↔ n.shares = [] := by
  have few := storable.outshares
  rw [numshares, shares]
  cases n.info.inshare with
  | some share => simp
  | none =>
    simp only [Option.isSome_none, Bool.false_eq_true, if_false, ← List.length_eq_zero_iff,
      List.length_map]
    omega

theorem signed_numshares (storable : n.Storable) :
    signed 16 n.numshares = (n.head h).numshares := by
  have few := storable.outshares
  rw [signed, BitVec.toInt_eq_toNat_bmod, BitVec.toNat_ofNat, Int.bmod, numshares, head]
  by_cases shared : n.info.inshare.isSome = true
  · simp [shared]
  · simp only [shared]
    simp only [Bool.false_eq_true, if_false]
    omega

theorem copystring_append {fa : Bytes} (plain : ∀ c ∈ fa, c ≠ 0 ∧ c ≠ 34) (rest : Bytes) :
    copystring (fa ++ 0 :: rest) = fa := by
  rw [copystring, List.takeWhile_append_of_pos (by simpa using plain)]
  simp

theorem skip_zeros (fields : Nat) {rest : Bytes} (more : rest ≠ []) :
    NodeHead.skip fields (List.replicate fields 0 ++ rest) = .ok rest := by
  have positive := List.length_pos_iff.mpr more
  induction fields with
  | zero => rfl
  | succ fields ih =>
    rw [List.replicate_succ, List.cons_append, NodeHead.skip, word_one, Read.bind_ok]
    simp [ih, more]

theorem readKey_append (fits : n.nodekey.length = keyLength n.type) (rest : Bytes)
    (more : 10 < rest.length) (type : n.type = fileNode ∨ n.type = folderNode ∨ n.nodekey = []) :
    NodeHead.readKey n.type (n.nodekey ++ rest) = .ok (n.nodekey, rest) := by
  rw [NodeHead.readKey]
  by_cases keyed : n.type = fileNode ∨ n.type = folderNode
  · rw [if_pos keyed, require, if_pos (by rw [List.length_append]; omega), Read.bind_ok,
      bytes_append fits]
  · rw [if_neg keyed]
    have empty : n.nodekey = [] := by tauto
    rw [empty, List.nil_append]

theorem readFa_append (storable : n.Storable) (rest : Bytes) :
    NodeHead.readFa n.type (n.fileAttrBytes ++ 0 :: rest) =
      .ok (if n.type = fileNode then n.info.fileattrstring else [], 0 :: rest) := by
  have short := storable.fileattrsShort
  rw [NodeHead.readFa, fileAttrBytes]
  by_cases file : n.type = fileNode
  · have length : (n.info.fileattrstring.length + 1) % 65536 = n.info.fileattrstring.length + 1 :=
      Nat.mod_eq_of_lt (by omega)
    have fits : n.info.fileattrstring.length + 1 < 256 ^ 2 := by omega
    have whole : (n.info.fileattrstring ++ [0]).length = n.info.fileattrstring.length + 1 := by simp
    simp only [if_pos file, length]
    rw [List.take_of_length_le (Nat.le_of_eq whole), List.append_assoc, word_append fits,
      Read.bind_ok]
    simp only [List.append_assoc, List.singleton_append]
    rw [copystring_append storable.fileattrs]
    simp
  · simp [file]

theorem parentBytes_eq (parent : Option Handle) :
    parentBytes parent = leBytes 6 ((parent.map BitVec.toNat).getD 0) := by
  cases parent with
  | none => exact (leBytes_zero 6).symm
  | some p => rfl

/-- A parent handle other than 0 is read back, and 0 stands for no parent. -/
theorem parent_of_bytes {parent : Option Handle} (nonzero : parent ≠ some 0) :
    (if (parent.map BitVec.toNat).getD 0 = 0 then none
      else some (BitVec.ofNat 48 ((parent.map BitVec.toNat).getD 0))) = parent := by
  cases parent with
  | none => rfl
  | some p =>
    have other : p.toNat ≠ 0 := fun zero => nonzero (congrArg some (BitVec.eq_of_toNat_eq zero))
    simp [other]

theorem toKey_toList (key : Vector UInt8 16) : toKey key.toList = key := by
  apply Vector.ext
  intro i inside
  simp [toKey]

theorem head_numshares_eq_zero_iff {h : Handle} : (n.head h).numshares = 0 ↔ n.shares = [] := by
  rw [head, shares]
  cases n.info.inshare with
  | some share => simp
  | none => simp

theorem shareBytes_eq (storable : n.Storable) :
    n.shareBytes = (if n.shares = [] then [] else (n.info.sharekey.map Vector.toList).getD []) ++
      n.shares.flatMap Share.serialize := by
  rw [shareBytes]
  by_cases none : n.shares = []
  · rw [if_pos ((numshares_eq_zero_iff storable).mpr none), if_pos none, none]
    rfl
  · rw [if_neg (mt (numshares_eq_zero_iff storable).mp none), if_neg none, shares]
    cases n.info.inshare with
    | some share => simp
    | none => simp [List.flatMap_map]

/-- The share key stands in front of the shares. -/
theorem readShareKey_append (storable : n.Storable) {h : Handle} {rest : Bytes} (more : rest ≠ []) :
    NodeHead.readShareKey (n.head h).numshares (n.shareBytes ++ rest) =
      .ok ((n.head h).skey, n.shares.flatMap Share.serialize ++ rest) := by
  rw [NodeHead.readShareKey, shareBytes_eq storable]
  by_cases none : n.shares = []
  · rw [if_pos (head_numshares_eq_zero_iff.mpr none)]
    simp [none, head]
  · obtain ⟨key, present⟩ := Option.isSome_iff_exists.mp (storable.sharekey none)
    have length : key.toList.length = 16 := by simp
    rw [if_neg (mt head_numshares_eq_zero_iff.mp none), if_neg none, present, Option.map_some,
      Option.getD_some, List.append_assoc,
      require_append (Nat.le_of_eq length.symm) (by simp [more]), Read.bind_ok,
      bytes_append length, Read.bind_ok]
    simp only [toKey_toList, head, none, if_false, present]

theorem read_serialize (storable : n.Storable) (accepted : ¬n.Refused) (h : Handle) :
    NodeHead.read (n.recordHead h ++ (parentBytes n.parent ++ n.recordTail) ++ [0]) =
      .ok (n.head h, n.shares.flatMap Share.serialize ++ (n.info.attrs.serialize ++ [0])) := by
  have keyed : n.nodekey.length = keyLength n.type := by
    by_contra other
    exact accepted (Or.inr other)
  have keyless : n.type = fileNode ∨ n.type = folderNode ∨ n.nodekey = [] := by
    by_contra! other
    rw [keyLength, if_neg other.1, if_neg other.2.1] at keyed
    exact other.2.2 (List.length_eq_zero_iff.mp keyed)
  have size : n.sizeWord.toUInt64.toNat < 256 ^ 8 := n.sizeWord.toUInt64.toNat_lt
  have handle : h.toNat < 256 ^ 6 := h.isLt
  have parent : (n.parent.map BitVec.toNat).getD 0 < 256 ^ 6 := by
    cases n.parent with
    | none => decide
    | some p => exact p.isLt
  have owner : n.info.owner.toNat < 256 ^ 8 := n.info.owner.toNat_lt
  have tm : n.info.clienttimestamp.toUInt64.toNat < 256 ^ 8 := UInt64.toNat_lt _
  have ts : n.info.ctime.toUInt64.toNat < 256 ^ 8 := UInt64.toNat_lt _
  have count : n.numshares < 256 ^ 2 := by
    rw [numshares]
    split <;> omega
  have written : n.recordHead h ++ (parentBytes n.parent ++ n.recordTail) ++ [0] =
      leBytes 8 n.sizeWord.toUInt64.toNat ++ (leBytes 6 h.toNat ++
      (leBytes 6 ((n.parent.map BitVec.toNat).getD 0) ++ (leBytes 8 n.info.owner.toNat ++
      (leBytes 8 n.info.clienttimestamp.toUInt64.toNat ++
      (leBytes 8 n.info.ctime.toUInt64.toNat ++ (n.nodekey ++ (n.fileAttrBytes ++
      0 :: (List.replicate 7 0 ++ (leBytes 2 n.numshares ++ (n.shareBytes ++
      (n.info.attrs.serialize ++ [0]))))))))))) := by
    simp [recordHead, recordTail, word64, sizeWord, parentBytes_eq, List.replicate_succ]
  have long : 46 < (n.recordHead h ++ (parentBytes n.parent ++ n.recordTail) ++ [0]).length := by
    rw [written]
    simp [AttrMap.serialize]
    omega
  have zero : (0 : UInt8) :: (List.replicate 7 0 ++ (leBytes 2 n.numshares ++ (n.shareBytes ++
      (n.info.attrs.serialize ++ [0])))) = List.replicate 8 0 ++ (leBytes 2 n.numshares ++
        (n.shareBytes ++ (n.info.attrs.serialize ++ [0]))) := rfl
  have key := readKey_append keyed (n.fileAttrBytes ++ 0 :: (List.replicate 7 0 ++
    (leBytes 2 n.numshares ++ (n.shareBytes ++ (n.info.attrs.serialize ++ [0])))))
    (by simp [AttrMap.serialize]; omega) keyless
  rw [NodeHead.read, require, if_pos long, written]
  simp only [Read.bind_ok, word_append size, word_append handle, word_append parent,
    word_append owner, word_append tm, word_append ts, UInt64.ofNat_toNat,
    Int64.toInt64_toUInt64, typeOf_sizeWord storable, key, readFa_append storable]
  rw [zero, skip_zeros 8 (by simp)]
  simp only [Read.bind_ok, word_append count, signed_numshares (h := h) storable]
  rw [readShareKey_append storable (by simp)]
  simp only [Read.bind_ok, parent_of_bytes storable.parent, BitVec.ofNat_toNat,
    Nat.mod_eq_of_lt storable.clienttimestamp, Nat.mod_eq_of_lt storable.ctime,
    UInt64.ofNat_toNat, Int64.toInt64_toUInt64]
  rfl

end Node

/-- The shares of a node as its record queues them. -/
def Node.queued (h : Handle) (n : Node) : List NewShare :=
  n.shares.map (Share.queued (if n.info.inshare.isSome then 0 else -1) h n.info.sharekey)

/-- Nothing is queued of a record without shares, so the key and the direction do not matter. -/
theorem Node.queued_eq {h : Handle} {n : Node} :
    n.shares.map (Share.queued (if (n.head h).numshares > 0 then -1 else 0) (n.head h).h
      (n.head h).skey) = n.queued h := by
  rw [Node.queued, Node.head]
  by_cases none : n.shares = []
  · rw [none]
    rfl
  · simp only [if_neg none]
    rw [Node.shares] at *
    cases shared : n.info.inshare with
    | some share => simp
    | none =>
      simp only [shared, List.map_eq_nil_iff] at none
      have positive := List.length_pos_iff.mpr none
      simp [positive]

/-- A node fresh from its record: without its parent and its shares. -/
def Node.bare (h : Handle) (n : Node) : Node :=
  let x := (n.head h).node
  { x with info := { x.info with attrs := n.info.attrs } }

/-- The client after it has read the record of a node. -/
def Loading.loaded (c : Loading) (h : Handle) (n : Node) : Loading :=
  let c := c.add (n.head h)
  { c with newshares := c.newshares ++ n.queued h }.modify h fun m =>
    { m with info := { m.info with attrs := n.info.attrs } }

/-- A record is accepted and read as it was written. -/
theorem Loading.unserialize_serialize (c : Loading) {h : Handle} {n : Node} (storable : n.Storable)
    {d : Bytes} (written : n.serialize h = some d) :
    c.unserialize d = (c.loaded h n, .ok h) := by
  have accepted : ¬n.Refused := by
    intro refused
    rw [Node.serialize, if_pos refused] at written
    cases written
  rw [Node.serialize, if_neg accepted, Option.some_inj] at written
  have attrs := AttrMap.unserialize_serialize storable.attrs [0]
  have count : (if (n.head h).numshares > 0 then (n.head h).numshares.toNat
      else if (n.head h).numshares < 0 then 1 else 0) = n.shares.length := by
    rw [Node.head, Node.shares]
    cases n.info.inshare with
    | some share => simp
    | none =>
      simp only [Option.isSome_none, Bool.false_eq_true, if_false, List.length_map]
      split
      · exact Int.toNat_natCast _
      · split <;> omega
  have shares := Share.unserializeAll_serialize storable.access
    (if (n.head h).numshares > 0 then -1 else 0) (n.head h).h (n.head h).skey
    (n.info.attrs.serialize ++ [0]) (by simp)
  rw [Loading.unserialize, ← written, Node.read_serialize storable accepted h]
  simp only [count, shares, attrs, List.length_singleton, if_true, Node.queued_eq]
  rfl

end MegaSdk.Cache
