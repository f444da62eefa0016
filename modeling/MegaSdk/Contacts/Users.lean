import MegaSdk.Base64
import MegaSdk.Cache.Shares
import MegaSdk.Crypto.Rsa

/-!
# Users and contacts

The user table with its two indexes, by binary handle and by lowercase e-mail address. Users are
created under one of the two and get the other from `mapuser`; `readusers` and
`User::unserialize` do both for a contact and for a record of the state cache.
-/

namespace MegaSdk.Contacts

open ByteOrder RecordReader
open Cache (AttrMap NodeHead copystring undef)
open Crypto (PublicKey bitCount decodeints serializeint)

/-- `visibility_t`. -/
abbrev Visibility := Int32

def visibilityUnknown : Visibility := -1
def visible : Visibility := 1
def ownAccount : Visibility := 2

/-- `tolower` on ASCII letters. -/
def tolower (c : UInt8) : UInt8 := if 65 ≤ c ∧ c ≤ 90 then c + 32 else c

/-- `nuid`: the lowercase copy of an address. -/
def nuid (email : Bytes) : Bytes := (copystring email).map tolower

/-- Whether a text begins with its terminating NUL. -/
def blank (text : Bytes) : Bool := text.headD 0 = 0

def handleText (uh : UInt64) : Bytes := Base64.btoa (leBytes 8 uh.toNat)

structure User where
  userhandle : UInt64
  uid : Bytes
  email : Bytes
  attrs : AttrMap
  visibility : Visibility
  ctime : Int64
  pubk : PublicKey

namespace User

def new : User := ⟨undef, [], [], [], visibilityUnknown, 0, ⟨0, 0⟩⟩

def set (v : Visibility) (ct : Int64) (u : User) : User := { u with visibility := v, ctime := ct }

end User

/-- `users[id]`, of which those from 1 to `userid` exist, and the two indexes. -/
structure Client where
  users : Nat → User
  userid : Nat
  uhindex : UInt64 → Option Nat
  umindex : Bytes → Option Nat
  me : UInt64

namespace Client

def Live (c : Client) (id : Nat) : Prop := 0 < id ∧ id ≤ c.userid

def start : Client := ⟨fun _ => User.new, 0, fun _ => none, fun _ => none, undef⟩

variable (c : Client)

def modify (id : Nat) (f : User → User) : Client :=
  { c with users := Function.update c.users id (f (c.users id)) }

/-- `++userid`, with the user that is then created. -/
def create (u : User) : Client :=
  { c with
    users := Function.update c.users (c.userid + 1) u
    userid := c.userid + 1 }

/-- `uhindex[uh] = id`. -/
def indexHandle (uh : UInt64) (id : Nat) : Client :=
  { c with uhindex := Function.update c.uhindex uh (some id) }

/-- `umindex[m] = id`. -/
def indexAddress (m : Bytes) (id : Nat) : Client :=
  { c with umindex := Function.update c.umindex m (some id) }

def addHandle (uh : UInt64) : Client :=
  (c.create { User.new with uid := handleText uh, userhandle := uh }).indexHandle uh (c.userid + 1)

def addAddress (uid : Bytes) : Client :=
  (c.create { User.new with uid := nuid uid, email := copystring uid }).indexAddress (nuid uid)
    (c.userid + 1)

def giveAddress (id : Nat) (email : Bytes) : Client :=
  (c.modify id fun u => { u with email := copystring email }).indexAddress (nuid email) id

/-- The handle for a user that is found by its address. -/
def giveHandle (id : Nat) (uh : UInt64) : Client :=
  (c.modify id fun u => { u with userhandle := uh, uid := handleText uh }).indexHandle uh id

@[simp] theorem modify_users (id : Nat) (f : User → User) (k : Nat) :
    (c.modify id f).users k = if k = id then f (c.users id) else c.users k :=
  Function.update_apply ..

@[simp] theorem create_users (u : User) (k : Nat) :
    (c.create u).users k = if k = c.userid + 1 then u else c.users k := Function.update_apply ..

@[simp] theorem indexHandle_users (uh : UInt64) (id : Nat) :
    (c.indexHandle uh id).users = c.users := rfl

@[simp] theorem indexAddress_users (m : Bytes) (id : Nat) :
    (c.indexAddress m id).users = c.users := rfl

/-- `finduser` with a binary handle. -/
def finduserHandle (uh : UInt64) (add : Bool) : Client × Option Nat :=
  if uh = 0 then (c, none)
  else
    match c.uhindex uh with
    | some id => (c, some id)
    | none => if add then (c.addHandle uh, some (c.userid + 1)) else (c, none)

/-- `finduser` with an e-mail address or an ASCII handle. -/
def finduser (uid : Bytes) (add : Bool) : Client × Option Nat :=
  if blank uid then (c, none)
  else if 64 ∉ uid.takeWhile (· ≠ 0) then
    let uh := Base64.atob uid 8
    if uh.length = 8 then c.finduserHandle (UInt64.ofNat (ofLe uh)) add else (c, none)
  else
    match c.umindex (nuid uid) with
    | some id => (c, some id)
    | none => if add then (c.addAddress uid, some (c.userid + 1)) else (c, none)

/-- `mapuser`: adds the missing one of handle and address. -/
def mapuser (uh : UInt64) (email : Bytes) : Client :=
  if blank email then c
  else
    match c.uhindex uh with
    | some id => if (c.users id).email = [] then c.giveAddress id email else c
    | none =>
      match c.umindex (nuid email) with
      | some id => c.giveHandle id uh
      | none => c

end Client

/-- The locals of `readusers` behind one object of the array. -/
structure Contact where
  uh : UInt64
  v : Visibility
  ts : Int64
  m : Option Bytes

namespace Client

variable (c : Client)

/-- `me = uh` for the account's own entry. -/
def recordMe (v : Visibility) (uh : UInt64) : Client :=
  if v = ownAccount then { c with me := uh } else c

@[simp] theorem recordMe_users (v : Visibility) (uh : UInt64) :
    (c.recordMe v uh).users = c.users := by
  unfold recordMe
  split <;> rfl

@[simp] theorem recordMe_uhindex (v : Visibility) (uh : UInt64) :
    (c.recordMe v uh).uhindex = c.uhindex := by
  unfold recordMe
  split <;> rfl

@[simp] theorem recordMe_umindex (v : Visibility) (uh : UInt64) :
    (c.recordMe v uh).umindex = c.umindex := by
  unfold recordMe
  split <;> rfl

@[simp] theorem recordMe_userid (v : Visibility) (uh : UInt64) :
    (c.recordMe v uh).userid = c.userid := by
  unfold recordMe
  split <;> rfl

/-- One round of `readusers`. -/
def readuser (x : Contact) : Client :=
  match x.m with
  | none => c
  | some m =>
    if x.uh = undef then c
    else
      match (c.recordMe x.v x.uh).finduserHandle x.uh true with
      | (c, none) => c
      | (c, some id) =>
        let c := c.mapuser x.uh m
        if x.v = visibilityUnknown then c else c.modify id (User.set x.v x.ts)

def readusers (contacts : List Contact) : Client := contacts.foldl readuser c

end Client

def isvalid (key : PublicKey) : Bool := bitCount key.pq ≠ 0 && bitCount key.e ≠ 0

/-- `AsymmCipher::setkey` with `PUBKEY`: integers that were read stay when a later one is missing. -/
def setkey (key : PublicKey) (data : Bytes) : PublicKey × Bool :=
  match decodeints 2 data with
  | some ([pq, e], rest) => (⟨pq, e⟩, rest.length < 16)
  | _ =>
    match decodeints 1 data with
    | some ([pq], _) => ({ key with pq := pq }, false)
    | _ => (key, false)

/-- `serializekey` with `PUBKEY`. -/
def serializekey (key : PublicKey) : Bytes := serializeint key.pq ++ serializeint key.e

def User.serialize (u : User) : Bytes :=
  let l := u.email.length % 256
  leBytes 8 u.userhandle.toNat ++ Cache.word64 u.ctime ++ leBytes 4 u.visibility.toUInt32.toNat ++
    [UInt8.ofNat l] ++ u.email.take l ++ List.replicate 8 0 ++ u.attrs.serialize ++
    if isvalid u.pubk then serializekey u.pubk else []

/-- What `User::unserialize` reads before it looks for the user. -/
structure UserHead where
  uh : UInt64
  ts : Int64
  v : Visibility
  m : Bytes

def UserHead.read (ptr : Bytes) : Read (UserHead × Bytes) :=
  (require 22 ptr).bind fun _ =>
  (word 8 ptr).bind fun (uh, ptr) =>
  (word 8 ptr).bind fun (ts, ptr) =>
  (word 4 ptr).bind fun (v, ptr) =>
  (word 1 ptr).bind fun (l, ptr) =>
  (bytes l ptr).bind fun (m, ptr) =>
  (NodeHead.skip 8 ptr).bind fun ptr =>
    .ok (⟨UInt64.ofNat uh, (UInt64.ofNat ts).toInt64, (UInt32.ofNat v).toInt32, m⟩, ptr)

namespace Client

variable (c : Client)

/-- The attributes and the key at the end of a record, for the user that was found; the pointer is
at `end` when only the terminating NUL is left. -/
def readRest (id : Nat) (ptr : Bytes) : Client × Read Nat :=
  if ptr.length ≤ 1 then (c, .ok id)
  else
    match AttrMap.unserializeFrom (ptr.length + 1) (c.users id).attrs ptr with
    | .null => (c, .null)
    | .wild => (c, .wild)
    | .ok (attrs, ptr) =>
      let c := c.modify id fun u => { u with attrs := attrs }
      if ptr.length ≤ 1 then (c, .ok id)
      else
        let (key, complete) := setkey (c.users id).pubk ptr.dropLast
        (c.modify id fun u => { u with pubk := key }, if complete then .ok id else .null)

/-- `User::unserialize`: the client afterwards, and the user. -/
def unserialize (d : Bytes) : Client × Read Nat :=
  match UserHead.read (d ++ [0]) with
  | .null => (c, .null)
  | .wild => (c, .wild)
  | .ok (x, ptr) =>
    match c.finduserHandle x.uh true with
    | (c, none) => (c, .null)
    | (c, some id) =>
      (((c.recordMe x.v x.uh).mapuser x.uh x.m).modify id (User.set x.v x.ts)).readRest id ptr

end Client

/-- An operation on the user table; `readusers` is one event for each object of its array. -/
inductive Event where
  | finduserHandle (uh : UInt64) (add : Bool)
  | finduser (uid : Bytes) (add : Bool)
  | mapuser (uh : UInt64) (email : Bytes)
  | readuser (contact : Contact)
  | unserialize (d : Bytes)

def step (c : Client) : Event → Client
  | .finduserHandle uh add => (c.finduserHandle uh add).1
  | .finduser uid add => (c.finduser uid add).1
  | .mapuser uh email => c.mapuser uh email
  | .readuser contact => c.readuser contact
  | .unserialize d => (c.unserialize d).1

end MegaSdk.Contacts
