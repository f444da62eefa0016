import MegaSdk.Types
import MegaSdk.Lib.ByteOrder
import Mathlib.Data.List.Induction

/-!
# Nodes and their state cache records

The part of `Node` that the state cache reads, and `Node::serialize` with the
records of shares and attributes nested in it. Node handles have six bytes, user
handles eight; 64-bit signed quantities are written in memory order.
-/

namespace MegaSdk.Cache

open ByteOrder

/-- A node handle, `NODEHANDLE` = 6 bytes. -/
abbrev Handle := BitVec 48

/-- `attr_map`, in ascending order of the packed names. -/
abbrev AttrMap := List (UInt64 × Bytes)

namespace AttrMap

/-- `map[name] = value`. -/
def set (name : UInt64) (value : Bytes) : AttrMap → AttrMap
  | [] => [(name, value)]
  | (other, old) :: rest =>
    if name < other then (name, value) :: (other, old) :: rest
    else if name = other then (name, value) :: rest
    else (other, old) :: set name value rest

/-- `nameid2string`: the nonzero bytes of a packed name. -/
def nameid2string (id : UInt64) : Bytes := (beBytes 8 id.toNat).filter (· ≠ 0)

def serializeEntry (entry : UInt64 × Bytes) : Bytes :=
  let name := nameid2string entry.1
  let ll := entry.2.length % 65536
  if name = [] then []
  else UInt8.ofNat name.length :: name ++ leBytes 2 ll ++ entry.2.take ll

def serialize (attrs : AttrMap) : Bytes := attrs.flatMap serializeEntry ++ [0]

/-- A name as `unserialize` packs it. -/
def packed (name : Bytes) : UInt64 := name.foldl (fun id c => id <<< 8 + c.toUInt64) 0

theorem toNat_packed {name : Bytes} (short : name.length ≤ 8) :
    (packed name).toNat = ofLe name.reverse := by
  induction name using List.reverseRecOn with
  | nil => rfl
  | append_singleton name c ih =>
    have fits : name.length < 8 := by
      rw [List.length_append, List.length_singleton] at short
      omega
    have bound : ofLe name.reverse < 256 ^ 7 := by
      refine Nat.lt_of_lt_of_le (ofLe_lt _) (Nat.pow_le_pow_right (by decide) ?_)
      rw [List.length_reverse]
      omega
    rw [packed, List.foldl_append, List.foldl_cons, List.foldl_nil, List.reverse_append,
      List.reverse_singleton, List.singleton_append, ofLe, UInt64.toNat_add,
      UInt64.toNat_shiftLeft, ← packed, ih (Nat.le_of_lt fits), Nat.shiftLeft_eq,
      UInt8.toNat_toUInt64]
    have small := c.toNat_lt
    simp
    omega

/-- A name is read back from its packed form. -/
theorem nameid2string_packed {name : Bytes} (short : name.length ≤ 8)
    (nonzero : ∀ c ∈ name, c ≠ 0) :
    nameid2string (packed name) = name := by
  have padded := leBytes_ofLe name.reverse (8 - name.length)
  rw [List.length_reverse, Nat.add_sub_cancel' short] at padded
  rw [nameid2string, toNat_packed short, beBytes, padded, List.reverse_append,
    List.reverse_reverse, List.reverse_replicate, List.filter_append]
  have zeros : (List.replicate (8 - name.length) (0 : UInt8)).filter (· ≠ 0) = [] := by simp
  have kept : name.filter (· ≠ 0) = name :=
    List.filter_eq_self.mpr fun c mem => decide_eq_true (nonzero c mem)
  rw [zeros, kept, List.nil_append]

/-- An entry behind all others is appended. -/
theorem set_last {attrs : AttrMap} {name : UInt64} (last : ∀ entry ∈ attrs, entry.1 < name)
    (v : Bytes) : attrs.set name v = attrs ++ [(name, v)] := by
  induction attrs with
  | nil => rfl
  | cons entry attrs ih =>
    obtain ⟨other, old⟩ := entry
    have before : other < name := last _ List.mem_cons_self
    rw [AttrMap.set, if_neg (UInt64.lt_asymm before), if_neg (UInt64.ne_of_lt before).symm,
      ih fun e mem => last e (List.mem_cons_of_mem _ mem), List.cons_append]

end AttrMap

def word64 (n : Int64) : Bytes := leBytes 8 n.toUInt64.toNat

/-- A share; `user` is 0 for a share without a user. -/
structure Share where
  user : UInt64
  access : AccessLevel
  ts : Int64
  deriving DecidableEq, Repr

def Share.serialize (s : Share) : Bytes :=
  leBytes 8 s.user.toNat ++ word64 s.ts ++ [UInt8.ofNat (s.access % 256).toNat, 0]

/-- What updates change in a node. A shared node has a share key. -/
structure NodeInfo where
  owner : UInt64
  clienttimestamp : Int64
  ctime : Int64
  fileattrstring : Bytes
  attrstring : Bytes
  attrs : AttrMap
  inshare : Option Share
  outshares : List (UInt64 × Share)
  sharekey : Option (Vector UInt8 16)
  deriving DecidableEq

/-- The part of a `Node` (with its `Cachable` base) that the state cache consults. -/
structure Node where
  type : NodeType
  size : Int64
  nodekey : Bytes
  keystring : Bytes
  info : NodeInfo
  parent : Option Handle
  removed : Bool
  notified : Bool
  dbid : Nat
  deriving DecidableEq

namespace Node

/-- The key length `serialize` insists on: file keys, folder keys, no other keys. -/
def keyLength (type : NodeType) : Nat :=
  if type = fileNode then 32 else if type = folderNode then 16 else 0

def parentBytes : Option Handle → Bytes
  | some p => leBytes 6 p.toNat
  | none => List.replicate 6 0

def fileAttrBytes (n : Node) : Bytes :=
  let ll := (n.info.fileattrstring.length + 1) % 65536
  if n.type = fileNode then leBytes 2 ll ++ (n.info.fileattrstring ++ [0]).take ll else []

/-- The 16 bits of `numshares`: -1 for an inbound share. -/
def numshares (n : Node) : Nat :=
  if n.info.inshare.isSome then 65535 else n.info.outshares.length % 65536

def shareBytes (n : Node) : Bytes :=
  if n.numshares = 0 then []
  else (n.info.sharekey.map Vector.toList).getD [] ++
    match n.info.inshare with
    | some share => share.serialize
    | none => n.info.outshares.flatMap fun entry => entry.2.serialize

def recordHead (h : Handle) (n : Node) : Bytes :=
  word64 (if n.type = fileNode then n.size else Int64.ofInt (-n.type)) ++ leBytes 6 h.toNat

def recordTail (n : Node) : Bytes :=
  leBytes 8 n.info.owner.toNat ++ word64 n.info.clienttimestamp ++ word64 n.info.ctime ++
    n.nodekey ++ n.fileAttrBytes ++ List.replicate 8 0 ++ leBytes 2 n.numshares ++
    n.shareBytes ++ n.info.attrs.serialize

/-- Nodes with undecrypted attributes or without their own key are refused. -/
def Refused (n : Node) : Prop :=
  n.info.attrstring ≠ [] ∨ n.nodekey.length ≠ keyLength n.type

instance (n : Node) : Decidable n.Refused := inferInstanceAs (Decidable (_ ∨ _))

/-- `Node::serialize` of the node with handle `h`. -/
def serialize (h : Handle) (n : Node) : Option Bytes :=
  if n.Refused then none
  else some (n.recordHead h ++ (parentBytes n.parent ++ n.recordTail))

@[simp] theorem serialize_eq_none_iff {h : Handle} {n : Node} :
    n.serialize h = none ↔ n.Refused := by
  simp [serialize]

theorem length_parentBytes (parent : Option Handle) : (parentBytes parent).length = 6 := by
  cases parent <;> simp [parentBytes]

/-- Only the null handle is written like a missing parent. -/
theorem parentBytes_eq_none_iff (p : Handle) : parentBytes (some p) = parentBytes none ↔ p = 0 := by
  constructor
  · intro same
    have value := congrArg ofLe same
    rw [parentBytes, ofLe_leBytes, Nat.mod_eq_of_lt (by have := p.isLt; omega)] at value
    exact BitVec.eq_of_toNat_eq value
  · rintro rfl
    decide

/-- The parent only enters a record through its six bytes. -/
theorem serialize_parent_congr {h : Handle} {n : Node} {parent : Option Handle}
    (same : parentBytes parent = parentBytes n.parent) :
    Node.serialize h { n with parent := parent } = n.serialize h := by
  have body : Node.serialize h { n with parent := parent } = if n.Refused then none
      else some (n.recordHead h ++ (parentBytes parent ++ n.recordTail)) := rfl
  rw [body, same, serialize]

/-- A record determines the handle and the bytes of the parent handle. -/
theorem serialize_inj {h k : Handle} {n m : Node} {data : Bytes}
    (first : n.serialize h = some data) (second : m.serialize k = some data) :
    h = k ∧ parentBytes n.parent = parentBytes m.parent := by
  have split : ∀ (g : Handle) (x : Node), x.serialize g = some data →
      data = x.recordHead g ++ (parentBytes x.parent ++ x.recordTail) := by
    intro g x written
    rw [serialize] at written
    split at written
    · cases written
    · exact (Option.some.inj written).symm
  have whole := (split h n first).symm.trans (split k m second)
  obtain ⟨heads, rests⟩ := List.append_inj whole (by simp [recordHead, word64])
  have parents := (List.append_inj rests (by rw [length_parentBytes, length_parentBytes])).1
  rw [recordHead, recordHead] at heads
  have value := congrArg ofLe (List.append_inj heads (by simp [word64])).2
  rw [ofLe_leBytes, ofLe_leBytes, Nat.mod_eq_of_lt (by have := h.isLt; omega),
    Nat.mod_eq_of_lt (by have := k.isLt; omega)] at value
  exact ⟨BitVec.eq_of_toNat_eq value, parents⟩

end Node

end MegaSdk.Cache
