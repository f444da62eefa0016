import MegaSdk.Api.RequestQueue
import MegaSdk.Crypto.Rsa
import MegaSdk.Server.CommandText
import MegaSdk.Server.Records
import MegaSdk.Server.ShareNodeKeys
import MegaSdk.Xfer.PendingAttributes

/-!
# The texts of requests

commands.cpp: what the constructors of all commands write. However the commands are chosen, the
text of a request is an array of one object for each of them, and no flag outside of the array
`levels` is touched; the only arguments written as they are, the names, the addresses and the
identifiers of users, are not escaped.
-/

namespace MegaSdk.Server

open ByteOrder Crypto Json Nodes Writers CommandText
open MegaSdk.Tree hiding undef

/-- The members of `MegaClient` that the constructors read. -/
structure Sender where
  sessionid : Bytes
  letters : ∀ c ∈ sessionid, 97 ≤ c ∧ c ≤ 123
  me : UInt64
  aes : Aes
  /-- The master key. -/
  key : Block
  cachedscsn : UInt64
  nodes : KeyForest
  nodebyhandle : UInt64 → Option Ref
  pendingfa : UInt64 → List Xfer.Attach.PendingFA
  purchaseBasket : List UInt64

/-- What `CommandPutNodes` reads from a `NewNode`. -/
structure NewNode where
  source : NewNodeSource
  nodehandle : UInt64
  uploadhandle : UInt64
  uploadtoken : Vector UInt8 27
  parenthandle : UInt64
  type : Int
  attrstring : Bytes
  nodekey : Bytes
  clienttimestamp : Int

/-- A user as `CommandSetShare` reads it, and the random padding of the encryption. -/
structure Sharee where
  uid : Bytes
  pubk : PublicKey
  padding : Bytes

/-- The target of `CommandPutNodes`. -/
inductive Target where
  | user (userhandle : Bytes)
  | node (th : UInt64)

/-- `ShareNodeKeys::get` and `CommandKeyCR`, whose handles are written in the same way. -/
def crElement (shares : List UInt64) (items : List Bytes) (keys : Bytes) : Write :=
  beginarrayOf "cr" >=>
    ((beginarray >=> each shares (elementHandle 6) >=> endarray) >=>
      (beginarray >=> each items elementBinary >=> endarray) >=>
      (beginarray >=> append keys >=> endarray)) >=> endarray

/-- `ShareNodeKeys::get`. -/
def ShareNodeKeys.write (t : KeyTree) (k : ShareNodeKeys) : Write :=
  (k.get t).elim some fun c => crElement c.shares c.items c.keys

namespace Sender

variable (client : Sender)

def ecbEncrypt (data : Bytes) : Bytes := ecbData (client.aes client.key) data

def getFA (fahref : UInt64) : Write := cmd "ufa" >=> argHandle "fah" 8 fahref

def putFA (size : Nat) : Write := cmd "ufa" >=> argInt "s" size

def attachFA (nh : UInt64) (t : UInt16) (ah : UInt64) : Write :=
  cmd "pfa" >=> argHandle "n" 6 nh >=> argString "fa" (Xfer.Attach.attrText t ah)

def putFile (size ms : Int) : Write := cmd "u" >=> argInt "s" size >=> argInt "ms" ms

def getFile (h : UInt64) (p : Bool) : Write :=
  cmd "g" >=> argHandle (if p then "n" else "p") 6 h >=> argInt "g" 1

/-- `CommandSetAttr`; `attrs` is what `makeattr` makes of the attributes. -/
def setAttr (n : UInt64) (attrs : Bytes) : Write :=
  cmd "a" >=> notself client.sessionid >=> argHandle "n" 6 n >=> argBinary "at" attrs

/-- The key of a new node; longer ones are encrypted to a user already. -/
def newNodeKey (nn : NewNode) : Bytes :=
  if nn.nodekey.length ≤ 32 then client.ecbEncrypt nn.nodekey else nn.nodekey

def newNodeSource (nn : NewNode) : Write :=
  match nn.source with
  | .newNode => argHandle "h" 6 nn.nodehandle
  | .newPublic => argHandle "ph" 6 nn.nodehandle
  | .newUpload => argBinary "h" nn.uploadtoken.toList >=>
      only (Xfer.Attach.attrString (client.pendingfa nn.uploadhandle) ≠ [])
        (argString "fa" (Xfer.Attach.attrString (client.pendingfa nn.uploadhandle)))

def newNode (nn : NewNode) : Write :=
  client.newNodeSource nn >=>
    only (nn.parenthandle ≠ MegaSdk.Tree.undef) (argHandle "p" 6 nn.parenthandle) >=>
    argInt "t" nn.type >=> argBinary "a" nn.attrstring >=>
    argBinary "k" (client.newNodeKey nn) >=> argInt "ts" nn.clienttimestamp

/-- The share keys for another new node below `tn`. -/
def addNewNode (tn : Ref) (snk : ShareNodeKeys) (nn : NewNode) : ShareNodeKeys :=
  match nn.source with
  | .newNode => snk.add client.aes client.nodes.toKeyTree ⟨nn.nodehandle, nn.nodekey⟩ tn false none
  | .newUpload => snk.add client.aes client.nodes.toKeyTree ⟨nn.nodehandle, nn.nodekey⟩ tn false
      (some nn.uploadtoken.toList)
  | .newPublic => snk

def target : Target → Write
  | .user userhandle => argString "t" userhandle
  | .node th => argHandle "t" 6 th

/-- The `cr` element for new nodes. -/
def targetKeys (nodes : List NewNode) : Target → Write
  | .user _ => some
  | .node th => (client.nodebyhandle th).elim some fun tn =>
      (nodes.foldl (client.addNewNode tn) ShareNodeKeys.empty).write client.nodes.toKeyTree

def putNodes (t : Target) (nodes : List NewNode) : Write :=
  cmd "p" >=> notself client.sessionid >=> target t >=>
    (beginarrayOf "n" >=>
      each nodes (fun nn => beginobject >=> client.newNode nn >=> endobject) >=> endarray) >=>
    client.targetKeys nodes t

/-- The `cr` element of a subtree, `none` if `proctree` does not end. -/
def shareKeys (sn : Option Ref) (n : Ref) : Write := fun b =>
  (client.nodes.proctree (treeProcShareKeys client.aes client.nodes.toKeyTree sn) n
    ShareNodeKeys.empty).bind fun k => k.write client.nodes.toKeyTree b

def nodehandle (n : Ref) : UInt64 := (client.nodes.keys n).nodehandle

def moveNode (n t : Ref) : Write :=
  cmd "m" >=> notself client.sessionid >=> argHandle "n" 6 (client.nodehandle n) >=>
    argHandle "t" 6 (client.nodehandle t) >=> client.shareKeys none n

def delNode (th : UInt64) : Write :=
  cmd "d" >=> notself client.sessionid >=> argHandle "n" 6 th

/-- `CommandLogin`; without an address, the session is validated. -/
def login (user : Option (Bytes × UInt64)) : Write :=
  cmd "us" >=>
    (user.elim some fun u => argString "user" u.1 >=> argHandle "uh" 8 u.2) >=>
    only (client.cachedscsn ≠ MegaSdk.Tree.undef) (argHandle "sn" 8 client.cachedscsn)

/-- `CommandShareKeyUpdate` for one user. -/
def shareKeyUpdate (sh : UInt64) (uid key : Bytes) : Write :=
  cmd "k" >=> beginarrayOf "sr" >=>
    (elementHandle 6 sh >=> elementBinary uid >=> elementBinary key) >=> endarray

def ownShareKey (h : UInt64) : Write :=
  ((client.nodebyhandle h).bind fun n => (client.nodes.keys n).sharekey).elim some fun key =>
    elementHandle 6 h >=> elementHandle 8 client.me >=> elementBinary (client.ecbEncrypt key.toList)

/-- `CommandShareKeyUpdate` for the own shares, from the last one on. -/
def shareKeyUpdates (v : List UInt64) : Write :=
  cmd "k" >=> beginarrayOf "sr" >=> each v.reverse client.ownShareKey >=> endarray

/-- `handleauth`: the handle in ASCII, twice, under the master key. -/
def handleauth (h : UInt64) : Bytes :=
  let text := Base64.btoa (leBytes 6 h.toNat)
  client.ecbEncrypt (text ++ text)

/-- The share key for the sharee; it is empty if the buffer is too small. -/
def shareeKey (n : Ref) (u : Sharee) : Bytes :=
  (encrypt u.pubk (sharekey client.nodes.toKeyTree n).toList u.padding 1026).getD []

def shareeAccess (n : Ref) (u : Option Sharee) (a : Int) : Write :=
  argInt "r" a >=> u.elim some fun u => argBinary "k" (client.shareeKey n u)

/-- `CommandSetShare`; without an access level, the share is cancelled. -/
def setShare (n : Ref) (u : Option Sharee) (a : Option Int) (newshare : Bool) : Write :=
  cmd "s" >=> argHandle "n" 6 (client.nodehandle n) >=>
    only a.isSome
      (argBinary "ok" (client.ecbEncrypt (sharekey client.nodes.toKeyTree n).toList) >=>
        argBinary "ha" (client.handleauth (client.nodehandle n))) >=>
    (beginarrayOf "s" >=>
      (beginobject >=>
        (argString "u" (u.elim exportedlink Sharee.uid) >=>
          a.elim some (client.shareeAccess n u)) >=> endobject) >=> endarray) >=>
    only newshare (client.shareKeys (some n) n)

def enumerateQuotaItems : Write := cmd "utqa"

def purchaseAddItem : Write := cmd "uts"

def purchaseCheckout (gateway : Int) : Write :=
  cmd "utc" >=>
    (beginarrayOf "s" >=> each client.purchaseBasket (elementHandle 8) >=> endarray) >=>
    argInt "m" gateway

def userRequest (m : Bytes) (visibility : Int) : Write :=
  cmd "ur" >=> argString "u" m >=> argInt "l" visibility

def putUA (an : String) (av : Bytes) : Write := cmd "up" >=> argBinary an av

def getUA (uid an : Bytes) : Write := cmd "uga" >=> argString "u" uid >=> argString "ua" an

def nodeKey (h : UInt64) : Write :=
  (client.nodebyhandle h).elim some fun n =>
    elementHandle 6 h >=> elementBinary (client.ecbEncrypt (client.nodes.keys n).nodekey)

/-- `CommandNodeKeyUpdate`, from the last node on. -/
def nodeKeyUpdate (v : List UInt64) : Write :=
  cmd "k" >=> beginarrayOf "nk" >=> each v.reverse client.nodeKey >=> endarray

def singleKeyCR (sh nh : UInt64) (key : Bytes) : Write :=
  cmd "k" >=> beginarrayOf "cr" >=>
    ((beginarray >=> elementHandle 6 sh >=> endarray) >=>
      (beginarray >=> elementHandle 6 nh >=> endarray) >=>
      (beginarray >=> (elementInt 0 >=> elementInt 0 >=> elementBinary key) >=> endarray)) >=>
    endarray

/-- `CommandKeyCR`, for the keys of a response. -/
def keyCR (rshares rnodes : List UInt64) (keys : List CrEntry) : Write :=
  cmd "k" >=> crElement rshares (rnodes.map fun h => leBytes 6 h.toNat) (crkeysText keys)

def pubKeyRequest (uid : Bytes) : Write := cmd "uk" >=> argString "u" uid

def getUserQuota (storage transfer pro : Bool) : Write :=
  cmd "uq" >=> only storage (arg "strg" (ascii "1") false) >=>
    only transfer (arg "xfer" (ascii "1") false) >=> only pro (arg "pro" (ascii "1") false)

def getUserTransactions : Write := cmd "utt"

def getUserPurchases : Write := cmd "utp"

def getUserSessions : Write := cmd "usl"

def setPH (n : UInt64) (del : Bool) : Write :=
  cmd "l" >=> argHandle "n" 6 n >=> only del (argInt "d" 1)

def getPH (ph : UInt64) : Write := cmd "g" >=> argHandle "p" 6 ph

def setMasterKey (oldkey newkey : Block) (hash : UInt64) : Write :=
  cmd "up" >=> argBinary "currk" oldkey.toList >=> argBinary "k" newkey.toList >=>
    argHandle "uh" 8 hash

def createEphemeralSession (key : Block) (ssc : Vector UInt8 32) : Write :=
  cmd "up" >=> argBinary "k" key.toList >=> argBinary "ts" ssc.toList

def resumeEphemeralSession (uh : UInt64) : Write := cmd "us" >=> argHandle "user" 8 uh

def sendSignupLink (email name : Bytes) (c : Vector UInt8 32) : Write :=
  cmd "uc" >=> argBinary "c" c.toList >=> argBinary "n" name >=> argBinary "m" email

def querySignupLink (code : Bytes) : Write := cmd "ud" >=> argBinary "c" code

def confirmSignupLink (code : Bytes) (emailhash : UInt64) : Write :=
  cmd "up" >=> argBinary "c" code >=> argHandle "uh" 8 emailhash

def setKeyPair (privk pubk : Bytes) : Write :=
  cmd "up" >=> argBinary "privk" privk >=> argBinary "pubk" pubk

def fetchNodes : Write := cmd "f" >=> arg "c" (ascii "1") false >=> arg "r" (ascii "1") false

end Sender

/-- The commands with what their constructors are given. -/
inductive Outgoing where
  | getFA (fahref : UInt64)
  | putFA (size : Nat)
  | attachFA (nh : UInt64) (t : UInt16) (ah : UInt64)
  | putFile (size ms : Int)
  | getFile (h : UInt64) (p : Bool)
  | setAttr (n : UInt64) (attrs : Bytes)
  | putNodes (t : Target) (nodes : List NewNode)
  | moveNode (n t : Ref)
  | delNode (th : UInt64)
  | login (user : Option (Bytes × UInt64))
  | shareKeyUpdate (sh : UInt64) (uid key : Bytes)
  | shareKeyUpdates (v : List UInt64)
  | setShare (n : Ref) (u : Option Sharee) (a : Option Int) (newshare : Bool)
  | enumerateQuotaItems
  | purchaseAddItem
  | purchaseCheckout (gateway : Int)
  | userRequest (m : Bytes) (visibility : Int)
  | putUA (an : String) (av : Bytes)
  | getUA (uid an : Bytes)
  | nodeKeyUpdate (v : List UInt64)
  | singleKeyCR (sh nh : UInt64) (key : Bytes)
  | keyCR (rshares rnodes : List UInt64) (keys : List CrEntry)
  | pubKeyRequest (uid : Bytes)
  | getUserQuota (storage transfer pro : Bool)
  | getUserTransactions
  | getUserPurchases
  | getUserSessions
  | setPH (n : UInt64) (del : Bool)
  | getPH (ph : UInt64)
  | setMasterKey (oldkey newkey : Block) (hash : UInt64)
  | createEphemeralSession (key : Block) (ssc : Vector UInt8 32)
  | resumeEphemeralSession (uh : UInt64)
  | sendSignupLink (email name : Bytes) (c : Vector UInt8 32)
  | querySignupLink (code : Bytes)
  | confirmSignupLink (code : Bytes) (emailhash : UInt64)
  | setKeyPair (privk pubk : Bytes)
  | fetchNodes

namespace Outgoing

def write (client : Sender) : Outgoing → Write
  | getFA fahref => Sender.getFA fahref
  | putFA size => Sender.putFA size
  | attachFA nh t ah => Sender.attachFA nh t ah
  | putFile size ms => Sender.putFile size ms
  | getFile h p => Sender.getFile h p
  | setAttr n attrs => client.setAttr n attrs
  | putNodes t nodes => client.putNodes t nodes
  | moveNode n t => client.moveNode n t
  | delNode th => client.delNode th
  | login user => client.login user
  | shareKeyUpdate sh uid key => Sender.shareKeyUpdate sh uid key
  | shareKeyUpdates v => client.shareKeyUpdates v
  | setShare n u a newshare => client.setShare n u a newshare
  | enumerateQuotaItems => Sender.enumerateQuotaItems
  | purchaseAddItem => Sender.purchaseAddItem
  | purchaseCheckout gateway => client.purchaseCheckout gateway
  | userRequest m visibility => Sender.userRequest m visibility
  | putUA an av => Sender.putUA an av
  | getUA uid an => Sender.getUA uid an
  | nodeKeyUpdate v => client.nodeKeyUpdate v
  | singleKeyCR sh nh key => Sender.singleKeyCR sh nh key
  | keyCR rshares rnodes keys => Sender.keyCR rshares rnodes keys
  | pubKeyRequest uid => Sender.pubKeyRequest uid
  | getUserQuota storage transfer pro => Sender.getUserQuota storage transfer pro
  | getUserTransactions => Sender.getUserTransactions
  | getUserPurchases => Sender.getUserPurchases
  | getUserSessions => Sender.getUserSessions
  | setPH n del => Sender.setPH n del
  | getPH ph => Sender.getPH ph
  | setMasterKey oldkey newkey hash => Sender.setMasterKey oldkey newkey hash
  | createEphemeralSession key ssc => Sender.createEphemeralSession key ssc
  | resumeEphemeralSession uh => Sender.resumeEphemeralSession uh
  | sendSignupLink email name c => Sender.sendSignupLink email name c
  | querySignupLink code => Sender.querySignupLink code
  | confirmSignupLink code emailhash => Sender.confirmSignupLink code emailhash
  | setKeyPair privk pubk => Sender.setKeyPair privk pubk
  | fetchNodes => Sender.fetchNodes

def opcode : Outgoing → String
  | getFA _ | putFA _ => "ufa"
  | attachFA _ _ _ => "pfa"
  | putFile _ _ => "u"
  | getFile _ _ | getPH _ => "g"
  | setAttr _ _ => "a"
  | putNodes _ _ => "p"
  | moveNode _ _ => "m"
  | delNode _ => "d"
  | login _ | resumeEphemeralSession _ => "us"
  | shareKeyUpdate _ _ _ | shareKeyUpdates _ | nodeKeyUpdate _ | singleKeyCR _ _ _
  | keyCR _ _ _ => "k"
  | setShare _ _ _ _ => "s"
  | enumerateQuotaItems => "utqa"
  | purchaseAddItem => "uts"
  | purchaseCheckout _ => "utc"
  | userRequest _ _ => "ur"
  | putUA _ _ | setMasterKey _ _ _ | createEphemeralSession _ _ | confirmSignupLink _ _
  | setKeyPair _ _ => "up"
  | getUA _ _ => "uga"
  | pubKeyRequest _ => "uk"
  | getUserQuota _ _ _ => "uq"
  | getUserTransactions => "utt"
  | getUserPurchases => "utp"
  | getUserSessions => "usl"
  | setPH _ _ => "l"
  | sendSignupLink _ _ _ => "uc"
  | querySignupLink _ => "ud"
  | fetchNodes => "f"

/-- The commands whose packets are recognized as those of this session. -/
def marked : Outgoing → Bool
  | setAttr _ _ | putNodes _ _ | moveNode _ _ | delNode _ => true
  | _ => false

def raw : Outgoing → List Bytes
  | putNodes (.user userhandle) _ => [userhandle]
  | login (some user) => [user.1]
  | setShare _ (some u) _ _ => [u.uid]
  | userRequest m _ => [m]
  | putUA an _ => [ascii an]
  | getUA uid an => [uid, an]
  | pubKeyRequest uid => [uid]
  | _ => []

end Outgoing

end MegaSdk.Server
