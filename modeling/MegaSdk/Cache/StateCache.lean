import MegaSdk.Cache.NodeRecord
import Mathlib.Logic.Function.Basic

/-!
# The state cache and the batches it records

`DbTable` with its lazily assigned ids, the operations that change nodes between
two calls of `notifypurge`, and `notifypurge` itself with `updatesc`. Every table
operation succeeds, so the write loops run to their end and are committed; a
record is kept as the plaintext it decrypts to.
-/

namespace MegaSdk.Cache

def cachedScsn : Nat := 0
def cachedNode : Nat := 1
def cachedUser : Nat := 2

structure DbTable where
  records : Nat → Option Bytes
  nextid : Nat

namespace DbTable

/-- The next id, `(nextid += IDSPACING) | type` in 32 bits. -/
def next (t : DbTable) : Nat := (t.nextid + 16) % 2 ^ 32

def store (t : DbTable) (id : Nat) (data : Bytes) : DbTable :=
  { t with records := Function.update t.records id (some data) }

/-- `DbTable::put` of a cachable record: its id afterwards and the table. A record that
refuses to serialize leaves both alone, and the call still reports success. -/
def put (t : DbTable) (type dbid : Nat) : Option Bytes → Nat × DbTable
  | none => (dbid, t)
  | some data =>
    if dbid = 0 then (t.next ||| type, { t with nextid := t.next }.store (t.next ||| type) data)
    else (dbid, t.store dbid data)

def del (t : DbTable) (id : Nat) : DbTable :=
  { t with records := Function.update t.records id none }

end DbTable

/-- Ids are multiples of sixteen with the record type in the low bits. -/
theorem or_type {n : Nat} (type : Nat) (aligned : n % 16 = 0) (small : type < 16) :
    n ||| type = n + type := by
  have base : n = 2 ^ 4 * (n / 16) := by omega
  rw [base]
  exact (Nat.two_pow_add_eq_or_of_lt (by omega) _).symm

/-- A user: its id in the table and what `User::serialize`, which never refuses, writes. -/
structure User where
  dbid : Nat
  record : Bytes

structure Client where
  nodes : Handle → Option Node
  users : Nat → User
  nodenotify : List Handle
  usernotify : List Nat
  table : DbTable
  scsn : Vector UInt8 8
  cachedscsn : Vector UInt8 8

/-- Key material outside of the node table: the subkey that `applykey` selects and decrypts
(from the share keys, the handle, the type and the key string) and attribute decryption. -/
structure KeyRing where
  subkey : (Handle → Option (Vector UInt8 16)) → Handle → NodeType → Bytes →
    Option (Vector UInt8 32)
  decryptattr : Bytes → Bytes → Option (List (UInt64 × Bytes))

namespace KeyRing
variable (ring : KeyRing)

/-- `Node::setattr`: attributes that decrypt are merged into the map. -/
def setattr (n : Node) : Node :=
  if n.info.attrstring = [] then n
  else
    match ring.decryptattr n.nodekey n.info.attrstring with
    | none => n
    | some entries =>
      { n with info :=
        { n.info with
          attrs := entries.foldl (fun map entry => map.set entry.1 entry.2) n.info.attrs
          attrstring := [] } }

def setkey (n : Node) (key : Vector UInt8 32) : Node :=
  ring.setattr { n with nodekey := key.toList.take (if n.type = fileNode then 32 else 16) }

def shareKeys (nodes : Handle → Option Node) (h : Handle) : Option (Vector UInt8 16) :=
  (nodes h).bind fun n => n.info.sharekey

def applykey (nodes : Handle → Option Node) (h : Handle) (n : Node) : Node :=
  if n.keystring = [] then n
  else
    match ring.subkey (shareKeys nodes) h n.type n.keystring with
    | none => n
    | some key => ring.setkey { n with keystring := [] } key

/-- `applykeys` over all nodes. -/
def applykeys (nodes : Handle → Option Node) : Handle → Option Node :=
  fun h => (nodes h).map (ring.applykey nodes h)

end KeyRing

/-- A node record that passed the field checks of `readnodes`. -/
structure NodeArrival where
  handle : Handle
  parenthandle : Option Handle
  type : NodeType
  size : Int64
  owner : UInt64
  fileattrstring : Bytes
  ts : Int64
  tm : Int64
  attrstring : Bytes
  keystring : Bytes

namespace Client
variable (ring : KeyRing)

def modify (c : Client) (h : Handle) (f : Node → Node) : Client :=
  match c.nodes h with
  | none => c
  | some n => { c with nodes := Function.update c.nodes h (some (f n)) }

/-- `notifynode` as far as the node vector is concerned. -/
def notifynode (c : Client) (h : Handle) : Client :=
  match c.nodes h with
  | none => c
  | some n =>
    if n.notified then c
    else
      { c with
        nodes := Function.update c.nodes h (some { n with notified := true })
        nodenotify := c.nodenotify ++ [h] }

/-- Parent linkage, or `dp` for delayed linkage while the parent is unknown. -/
def linkOrDelay (c : Client) (dp : List (Handle × Handle)) (h : Handle) :
    Option Handle → Client × List (Handle × Handle)
  | none => (c, dp)
  | some ph =>
    if (c.nodes ph).isSome then (c.modify h fun n => { n with parent := some ph }, dp)
    else (c, dp ++ [(h, ph)])

/-- `new Node(...)` with the strings `readnodes` copies into it. -/
def newNode (a : NodeArrival) : Node where
  type := a.type
  size := a.size
  nodekey := []
  keystring := a.keystring
  info :=
    { owner := a.owner, clienttimestamp := a.tm, ctime := a.ts,
      fileattrstring := a.fileattrstring, attrstring := a.attrstring, attrs := [],
      inshare := none, outshares := [], sharekey := none }
  parent := none
  removed := false
  notified := false
  dbid := 0

/-- One record of `readnodes`: a removed node is resurrected, a known node is only notified
again, an unknown one is created. -/
def readnode (state : Client × List (Handle × Handle)) (a : NodeArrival) :
    Client × List (Handle × Handle) :=
  let (c, dp) := state
  let (linked, dp) :=
    match c.nodes a.handle with
    | some n =>
      if n.removed then
        (c.modify a.handle fun n => { n with removed := false }).linkOrDelay dp a.handle
          a.parenthandle
      else (c, dp)
    | none =>
      { c with nodes := Function.update c.nodes a.handle (some (newNode a)) }.linkOrDelay dp
        a.handle a.parenthandle
  (linked.notifynode a.handle, dp)

/-- Delayed linkage of a node that arrived before its parent. -/
def relink (c : Client) (entry : Handle × Handle) : Client :=
  if (c.nodes entry.2).isSome then c.modify entry.1 fun n => { n with parent := some entry.2 }
  else c

/-- `readnodes` with notification. -/
def readnodes (c : Client) (arrivals : List NodeArrival) : Client :=
  let (c, dp) := arrivals.foldl readnode (c, [])
  dp.reverse.foldl relink c

/-- Updates in place (`setattr`, `sc_fileattr`, share changes), then `notifynode`. -/
def update (c : Client) (h : Handle) (info : NodeInfo) : Client :=
  (c.modify h fun n => { n with info := info }).notifynode h

/-- `sc_updatenode`: the pending key and the new attributes are tried at once. -/
def updatenode (c : Client) (h : Handle) (info : NodeInfo) : Client :=
  (c.modify h fun n =>
    ring.setattr (ring.applykey c.nodes h { n with info := info })).notifynode h

/-- `rename`: only a real change of the parent is notified. -/
def move (c : Client) (h p : Handle) : Client :=
  match c.nodes h, c.nodes p with
  | some n, some _ =>
    if n.parent = some p then c
    else (c.modify h fun n => { n with parent := some p }).notifynode h
  | _, _ => c

/-- `TreeProcDel::proc`. -/
def procDel (c : Client) (h : Handle) : Client :=
  (c.modify h fun n => { n with removed := true }).notifynode h

/-- The operations of a batch; a deletion lists the nodes that `proctree` visits. -/
inductive Op where
  | readnodes (arrivals : List NodeArrival)
  | update (h : Handle) (info : NodeInfo)
  | updatenode (h : Handle) (info : NodeInfo)
  | move (h p : Handle)
  | delete (visited : List Handle)
  | applykeys
  | notifyuser (u : Nat)
  | setscsn (scsn : Vector UInt8 8)

def step (c : Client) : Op → Client
  | .readnodes arrivals => c.readnodes arrivals
  | .update h info => c.update h info
  | .updatenode h info => c.updatenode ring h info
  | .move h p => c.move h p
  | .delete visited => visited.foldl procDel c
  | .applykeys => { c with nodes := ring.applykeys c.nodes }
  | .notifyuser u => { c with usernotify := c.usernotify ++ [u] }
  | .setscsn scsn => { c with scsn := scsn }

def writeUser (c : Client) (u : Nat) : Client :=
  let user := c.users u
  let (id, table) := c.table.put cachedUser user.dbid (some user.record)
  { c with table := table, users := Function.update c.users u { user with dbid := id } }

/-- Delete or put, decided by `removed && dbid`. -/
def writeNode (c : Client) (h : Handle) : Client :=
  match c.nodes h with
  | none => c
  | some n =>
    if n.removed ∧ n.dbid ≠ 0 then { c with table := c.table.del n.dbid }
    else
      let (id, table) := c.table.put cachedNode n.dbid (n.serialize h)
      { c with
        table := table
        nodes := Function.update c.nodes h (some { n with dbid := id }) }

/-- `updatesc`: scsn, users, nodes; nothing unless the table holds an scsn record. -/
def updatesc (c : Client) : Client :=
  if ((c.table.records cachedScsn).getD []).length ≠ 8 then c
  else
    let begun := { c with table := c.table.store cachedScsn c.scsn.toList }
    let users := begun.usernotify.foldl writeUser begun
    let nodes := users.nodenotify.foldl writeNode users
    { nodes with cachedscsn := nodes.scsn }

/-- `~Node` clears the parent pointers of the children. -/
def unlink (h : Handle) (n : Node) : Node :=
  if n.parent = some h then { n with parent := none } else n

def purgeNode (c : Client) (h : Handle) : Client :=
  match c.nodes h with
  | none => c
  | some n =>
    if n.removed then
      { c with nodes := Function.update (fun k => (c.nodes k).map (unlink h)) h none }
    else { c with nodes := Function.update c.nodes h (some { n with notified := false }) }

/-- The write part of `notifypurge`. -/
def flushed (c : Client) : Client :=
  if c.nodenotify ≠ [] ∨ c.usernotify ≠ [] ∨ c.cachedscsn ≠ c.scsn then c.updatesc else c

/-- The purge part: late keys first, then every notified node. -/
def purged (c : Client) : Client :=
  if c.nodenotify = [] then c
  else
    { c.nodenotify.foldl purgeNode { c with nodes := ring.applykeys c.nodes } with
      nodenotify := [] }

def notifypurge (c : Client) : Client := { c.flushed.purged ring with usernotify := [] }

end Client

end MegaSdk.Cache
