import MegaSdk.Server.Packets
import MegaSdk.Cache.Shares
import MegaSdk.Crypto.Rsa
import MegaSdk.Crypto.SymmCipher
import MegaSdk.Lib.Runs

/-!
# Share records from the server

What `sc_shares`, `readokelement` and `readoutshareelement` queue at the end of their element,
and how `mergenewshares` takes it. Keys and shares come in separate records: a share may be
recorded before its key, and a key may be refused while its share is accepted.
-/

namespace MegaSdk.Server

open Json ByteOrder Crypto
open Cache (NewShare NodeTable mergenewshare)

def Locals.last (locals : Locals) (name : String) : Option Value :=
  (locals.filter fun assignment => assignment.1 = nameid (ascii name)).getLast?.map Prod.snd

/-- A `const char*`, null before it is assigned. -/
def Locals.text (locals : Locals) (name : String) : Option Bytes :=
  match locals.last name with
  | some (.text text) => some text
  | _ => none

/-- A token of 16 bytes with its flag, which is set by a token of the full length only. -/
def Locals.token (locals : Locals) (name : String) : Option Block :=
  match locals.last name with
  | some (.binary token) => if token.length = 16 then some (load token) else none
  | _ => none

def Locals.int (locals : Locals) (name : String) (default : Int) : Int :=
  match locals.last name with
  | some (.number i) => i
  | _ => default

def Locals.nodehandle (locals : Locals) (name : String) : Option Cache.Handle :=
  (locals.handle (nameid (ascii name))).map fun h => BitVec.ofNat 48 (ofLe h)

def Locals.userhandle (locals : Locals) (name : String) : UInt64 :=
  ((locals.handle (nameid (ascii name))).map fun h => UInt64.ofNat (ofLe h)).getD Cache.undef

/-- A cast to `accesslevel_t`. -/
def Locals.access (locals : Locals) : AccessLevel :=
  (BitVec.ofInt 32 (locals.int "r" accessUnknown)).toInt

structure Account where
  /-- `loggedin() >= FULLACCOUNT`. -/
  full : Bool
  me : UInt64
  /-- The master key, in both directions. -/
  ecb : Block → Block
  ecbd : Block → Block
  asymkey : PrivateKey

namespace Account

variable (account : Account)

/-- `decryptkey` for a share key: long keys are RSA-encrypted. -/
def decryptkey (sk : Bytes) : Option Block :=
  let sl := (sk.takeWhile fun c => c ≠ 0 && c ≠ 34 && c ≠ 47).length
  if sl > 43 then
    let sl := sl / 4 * 3 + 3
    if sl > 4096 then none
    else (decrypt account.asymkey (Base64.atob sk sl) 16).map load
  else
    let tk := Base64.atob sk 16
    if tk.length = 16 then some (account.ecbd (load tk)) else none

/-- `handleauth`: the node handle in ASCII, twice, under the master key. -/
def handleauth (h : Cache.Handle) : Block :=
  let text := Base64.btoa (leBytes 6 h.toNat)
  account.ecb (load (text ++ text))

end Account

/-- `NewShare::NewShare`, which keeps an authentication for outbound shares only. -/
def newShare (h : Cache.Handle) (outgoing : Int) (peer : UInt64) (access : AccessLevel) (ts : Int64)
    (key auth : Option Block) : NewShare :=
  ⟨h, outgoing, peer, access, ts, key, if outgoing > 0 then auth else none⟩

namespace Account

variable (account : Account)

/-- `sc_shares` at the end of the packet: what it queues, and what it returns. -/
def scShares (locals : Locals) : Option NewShare × Bool :=
  let oh := locals.userhandle "o"
  let uh := locals.userhandle "u"
  let outbound : Bool := oh = account.me
  let outgoing : Int := if outbound then 1 else 0
  let peer := if outbound then uh else oh
  match locals.nodehandle "n" with
  | none => (none, false)
  | some h =>
    if account.full = false then (none, false)
    else if oh ≠ Cache.undef ∧ outbound = false ∧ uh ≠ account.me then (none, false)
    else
      match if outbound then (locals.text "ok").or (locals.text "k") else locals.text "k" with
      | some k =>
        match account.decryptkey k with
        | none => (none, false)
        | some sharekey =>
          if oh = Cache.undef ∧ uh = Cache.undef then
            (some (newShare h 0 Cache.undef accessUnknown 0 (some sharekey) none), true)
          else if oh ≠ Cache.undef ∧ uh ≠ Cache.undef then
            (some (newShare h outgoing peer locals.access (Int64.ofInt (locals.int "ts" 0))
              (some sharekey) (locals.token "ha")), false)
          else (none, false)
      | none =>
        if oh ≠ Cache.undef ∧ uh ≠ Cache.undef then
          (some (newShare h outgoing peer accessUnknown 0 none none), true)
        else (none, false)

/-- `readokelement` at the end of the element. -/
def readokelement (locals : Locals) : Option NewShare :=
  match locals.nodehandle "h", locals.text "k", locals.token "ha" with
  | some h, some k, some ha =>
    (account.decryptkey k).map fun key =>
      newShare h 1 Cache.undef accessUnknown 0 (some key) (some ha)
  | _, _, _ => none

end Account

/-- `readoutshareelement` at the end of the element. -/
def readoutshareelement (locals : Locals) : Option NewShare :=
  match locals.nodehandle "h" with
  | none => none
  | some h =>
    if locals.userhandle "u" = Cache.undef then none
    else if locals.access = accessUnknown then none
    else some (newShare h 1 (locals.userhandle "u") locals.access
      (Int64.ofInt (locals.int "ts" 0)) none none)

/-- The inbound share of a node record in `readnodes`. A share key that does not decrypt leaves
its buffer as it was, and the result of `decryptkey` is not looked at. -/
def Account.inshare (account : Account) (buf : Block) (h : Cache.Handle) (t : NodeType)
    (sts : Int64) (locals : Locals) : Option NewShare :=
  if locals.userhandle "su" = Cache.undef ∨ t ≠ folderNode ∨ locals.access = accessUnknown then none
  else (locals.text "sk").map fun sk =>
    newShare h 0 (locals.userhandle "su") locals.access sts
      (some ((account.decryptkey sk).getD buf)) none

/-- The share key of a node, if the node is there. -/
def sharekeyAt (nodes : NodeTable) (h : Cache.Handle) : Option Block :=
  (nodes h).bind fun n => n.info.sharekey

section Merging

variable {auth : Cache.Handle → Block} {garbage : Block} {rank : Cache.Handle → Nat}
  {nodes : NodeTable} {s : NewShare} {n : Cache.Node}

theorem sharekey_apply : (s.apply rank nodes n).info.sharekey = n.info.sharekey := by
  rw [NewShare.apply]
  split_ifs <;> rfl

theorem sharekey_setKey :
    (s.setKey auth garbage rank nodes n).info.sharekey =
      if n.info.sharekey = none ∧ s.key.isSome ∧ s.authentic auth garbage rank nodes then s.key
      else n.info.sharekey := by
  rw [NewShare.setKey]
  split_ifs <;> rfl

theorem setKey_of_keyless (keyless : s.key = none) : s.setKey auth garbage rank nodes n = n := by
  rw [NewShare.setKey, if_neg (by simp [keyless])]

theorem sharekeyAt_removeTree (h k : Cache.Handle) :
    sharekeyAt (NodeTable.removeTree rank nodes h) k = sharekeyAt nodes k := by
  rw [sharekeyAt, sharekeyAt, NodeTable.removeTree]
  cases nodes k with
  | none => rfl
  | some n =>
    rw [Option.map_some, Option.bind_some, Option.bind_some]
    split_ifs <;> rfl

/-- The node has no share key, and has one after the merge. -/
def SetsKey (auth : Cache.Handle → Block) (garbage : Block) (rank : Cache.Handle → Nat)
    (nodes : NodeTable) (s : NewShare) : Prop :=
  sharekeyAt nodes s.h = none ∧ (sharekeyAt (mergenewshare auth garbage rank nodes s) s.h).isSome

/-- A merge sets the share key of a node exactly if the record has a key that passes. -/
theorem setsKey_iff :
    SetsKey auth garbage rank nodes s ↔
      ∃ n, nodes s.h = some n ∧ n.info.sharekey = none ∧ s.key.isSome ∧
        s.authentic auth garbage rank nodes := by
  rw [SetsKey, mergenewshare, sharekeyAt]
  cases here : nodes s.h with
  | none => simp [sharekeyAt, here]
  | some n =>
    simp only [Option.bind_some, Option.some.injEq, exists_eq_left']
    refine and_congr_right fun keyless => ?_
    by_cases revoked : s.access = accessUnknown ∧ s.key = none
    · rw [if_pos revoked, setKey_of_keyless revoked.2, revoked.2]
      by_cases outbound : s.outgoing ≠ 0
      · rw [if_pos outbound]
        simp [sharekeyAt, NewShare.erase, keyless]
      · rw [if_neg outbound, sharekeyAt_removeTree]
        simp [sharekeyAt, keyless]
    · rw [if_neg revoked, sharekeyAt, Function.update_self, Option.bind_some, sharekey_apply,
        sharekey_setKey, keyless]
      by_cases passes : s.key.isSome ∧ s.authentic auth garbage rank nodes
      · rw [if_pos ⟨rfl, passes⟩]
        simp [passes]
      · rw [if_neg fun both => passes both.2]
        simpa using passes

end Merging

/-- The elements from the server that may carry an outbound share key. -/
inductive ShareElement where
  | packet (locals : Locals)
  | ok (locals : Locals)

namespace ShareElement

variable (account : Account) (rank : Cache.Handle → Nat) (nodes : NodeTable)

def queues : ShareElement → Option NewShare
  | packet locals => (account.scShares locals).1
  | ok locals => account.readokelement locals

/-- The `ha` token, if it has the full length. -/
def token : ShareElement → Option Block
  | packet locals => locals.token "ha"
  | ok locals => locals.token "ha"

/-- An outbound share key is taken from the element only if its token is that of the node.
`garbage` is what an authentication that was never given happens to hold. -/
def Authenticated (element : ShareElement) (garbage : Block) : Prop :=
  ∀ s, element.queues account = some s → s.outgoing > 0 →
    SetsKey account.handleauth garbage rank nodes s → element.token = some (account.handleauth s.h)

/-- A packet that adds an outbound share with a key, but without a full-length token, to an own
node that has no share key yet. -/
structure Unsigned (locals : Locals) : Prop where
  full : account.full = true
  owner : locals.userhandle "o" = account.me
  self : account.me ≠ Cache.undef
  target : locals.userhandle "u" ≠ Cache.undef
  token : locals.token "ha" = none
  key : ((locals.text "ok").or (locals.text "k")).any fun k => (account.decryptkey k).isSome
  node : (locals.nodehandle "n").any fun h =>
    nodes.checkaccess rank h && (nodes h).any fun n => n.info.sharekey.isNone

/-- Only a share packet can come without its token. -/
def IsUnsigned : ShareElement → Prop
  | packet locals => Unsigned account rank nodes locals
  | ok _ => False

end ShareElement

section Outbound

variable {account : Account} {locals : Locals} {s : NewShare}

/-- The packets that queue an outbound share with a key, and what they queue. -/
theorem scShares_outbound (queued : (account.scShares locals).1 = some s)
    (outbound : s.outgoing > 0) (keyed : s.key.isSome) :
    account.full = true ∧ locals.userhandle "o" = account.me ∧ account.me ≠ Cache.undef ∧
      locals.userhandle "u" ≠ Cache.undef ∧ locals.nodehandle "n" = some s.h ∧
      s.auth = locals.token "ha" ∧
      ((locals.text "ok").or (locals.text "k")).any fun k => (account.decryptkey k).isSome := by
  unfold Account.scShares at queued
  cases node : locals.nodehandle "n" with
  | none => simp [node] at queued
  | some h =>
    cases full : account.full with
    | false => simp [node, full] at queued
    | true =>
      simp only [node, full, Bool.true_eq_false, if_false] at queued
      by_cases owner : locals.userhandle "o" = account.me
      · simp only [owner, decide_true, if_true, Bool.true_eq_false, false_and, and_false,
          if_false] at queued
        cases given : (locals.text "ok").or (locals.text "k") with
        | none =>
          simp only [given] at queued
          split_ifs at queued
          obtain rfl := Option.some.inj queued
          cases keyed
        | some k =>
          simp only [given] at queued
          cases decrypted : account.decryptkey k with
          | none => simp [decrypted] at queued
          | some sharekey =>
            simp only [decrypted] at queued
            split_ifs at queued with neither both
            · obtain rfl := Option.some.inj queued
              cases outbound
            · obtain rfl := Option.some.inj queued
              refine ⟨rfl, owner, both.1, both.2, rfl, rfl, ?_⟩
              rw [Option.any_some, decrypted]
              rfl
      · -- an inbound share, whatever is queued
        simp only [owner, decide_false, Bool.false_eq_true, if_false] at queued
        exfalso
        cases given : locals.text "k" with
        | none =>
          simp only [given] at queued
          split_ifs at queued
          obtain rfl := Option.some.inj queued
          cases outbound
        | some k =>
          simp only [given] at queued
          cases decrypted : account.decryptkey k with
          | none => simp [decrypted] at queued
          | some sharekey =>
            simp only [decrypted] at queued
            split_ifs at queued <;> obtain rfl := Option.some.inj queued <;> cases outbound

theorem readokelement_some (queued : account.readokelement locals = some s) :
    locals.token "ha" = s.auth ∧ s.auth.isSome := by
  rw [Account.readokelement] at queued
  split at queued
  · rename_i h k ha _ _ token
    obtain ⟨key, -, rfl⟩ := Option.map_eq_some_iff.mp queued
    exact ⟨token, rfl⟩
  · cases queued

/-- A packet with a key queues the outbound share with whatever token it has. -/
theorem scShares_of_unsigned {rank : Cache.Handle → Nat} {nodes : NodeTable}
    (unsigned : ShareElement.Unsigned account rank nodes locals) :
    ∃ s n, (account.scShares locals).1 = some s ∧ s.outgoing > 0 ∧ s.key.isSome ∧ s.auth = none ∧
      nodes s.h = some n ∧ n.info.sharekey = none ∧ nodes.checkaccess rank s.h = true := by
  obtain ⟨full, owner, self, target, token, key, node⟩ := unsigned
  obtain ⟨h, packetNode, own⟩ := (Option.any_eq_true _ _).mp node
  obtain ⟨access, known⟩ := Bool.and_eq_true_iff.mp own
  obtain ⟨n, here, keyless⟩ := (Option.any_eq_true _ _).mp known
  obtain ⟨k, given, decrypts⟩ := (Option.any_eq_true _ _).mp key
  obtain ⟨sharekey, decrypted⟩ := Option.isSome_iff_exists.mp decrypts
  refine ⟨newShare h 1 (locals.userhandle "u") locals.access (Int64.ofInt (locals.int "ts" 0))
    (some sharekey) (locals.token "ha"), n, ?_, Int.one_pos, rfl, ?_, here,
    Option.isNone_iff_eq_none.mp keyless, access⟩
  · simp [Account.scShares, packetNode, full, owner, given, decrypted, self, target]
  · rw [token]
    rfl

end Outbound

/-- Whatever the memory of a missing token holds, outbound share keys are authenticated exactly if
the element is not a packet that adds an outbound share key without a token. -/
theorem authenticated_iff (account : Account) (rank : Cache.Handle → Nat) (nodes : NodeTable)
    (element : ShareElement) :
    (∀ garbage, element.Authenticated account rank nodes garbage) ↔
      ¬element.IsUnsigned account rank nodes := by
  constructor
  · intro authenticated unsigned
    cases element with
    | ok locals => exact unsigned
    | packet locals =>
      obtain ⟨s, n, queued, outbound, keyed, unauthenticated, here, keyless, own⟩ :=
        scShares_of_unsigned unsigned
      -- the stale bytes that happen to be the authentication of the node
      have sets : SetsKey account.handleauth (account.handleauth s.h) rank nodes s := by
        refine setsKey_iff.mpr ⟨n, here, keyless, keyed, ?_⟩
        simp [NewShare.authentic, own, unauthenticated]
      have carried := authenticated _ s queued outbound sets
      rw [ShareElement.token, unsigned.token] at carried
      cases carried
  · intro signed garbage s queued outbound sets
    obtain ⟨n, here, keyless, keyed, passes⟩ := setsKey_iff.mp sets
    have notInbound : ¬s.outgoing ≤ 0 := Int.not_le.mpr outbound
    simp only [NewShare.authentic, notInbound, decide_false, Bool.false_or, Bool.and_eq_true,
      decide_eq_true_eq] at passes
    obtain ⟨own, same⟩ := passes
    cases element with
    | ok locals =>
      obtain ⟨carried, given⟩ := readokelement_some queued
      obtain ⟨token, present⟩ := Option.isSome_iff_exists.mp given
      rw [ShareElement.token, carried, same, present, Option.getD_some]
    | packet locals =>
      obtain ⟨full, owner, self, target, node, carried, key⟩ :=
        scShares_outbound queued outbound keyed
      cases token : locals.token "ha" with
      | some ha => rw [ShareElement.token, token, same, carried, token, Option.getD_some]
      | none =>
        refine absurd ⟨full, owner, self, target, token, key, ?_⟩ signed
        simp [node, own, here, keyless]

/-- The packet of an own share with a key and no token. -/
def unsignedPacket : Locals :=
  [(nameid (ascii "n"), .handle (some [1, 0, 0, 0, 0, 0])),
    (nameid (ascii "o"), .handle (some [7, 0, 0, 0, 0, 0, 0, 0])),
    (nameid (ascii "u"), .handle (some [9, 0, 0, 0, 0, 0, 0, 0])),
    (nameid (ascii "ok"), .text (ascii "AAAAAAAAAAAAAAAAAAAAAA")),
    (nameid (ascii "r"), .number 0)]

def bareNode (type : NodeType) (parent : Option Cache.Handle) : Cache.Node where
  type := type
  size := -1
  nodekey := []
  keystring := []
  info := {
    owner := 7
    clienttimestamp := 0
    ctime := 0
    fileattrstring := []
    attrstring := []
    attrs := []
    inshare := none
    outshares := []
    sharekey := none }
  parent := parent
  removed := false
  notified := false
  dbid := 0

def ownNodes : NodeTable := fun h =>
  if h = 1 then some (bareNode folderNode (some 2))
  else if h = 2 then some (bareNode rootNode none)
  else none

def ownRank (h : Cache.Handle) : Nat := if h = 1 then 1 else 0

def ownAccount : Account := ⟨true, 7, xorBlock (load (ascii "0123456789abcdef")),
  xorBlock (load (ascii "0123456789abcdef")), ⟨11, 13, 7, 6⟩⟩

def unsignedShare : NewShare :=
  newShare 1 1 9 rdOnly 0 (some (load (ascii "0123456789abcdef"))) none

/-- Without any token, the packet sets the share key if the memory holds the right bytes. -/
theorem unsignedPacket_sets_key :
    ¬(ShareElement.packet unsignedPacket).Authenticated ownAccount ownRank ownNodes
      (ownAccount.handleauth 1) := by
  intro authenticated
  have queued : (ShareElement.packet unsignedPacket).queues ownAccount = some unsignedShare := by
    decide +kernel
  have sets : SetsKey ownAccount.handleauth (ownAccount.handleauth 1) ownRank ownNodes
      unsignedShare :=
    setsKey_iff.mpr ⟨bareNode folderNode (some 2), rfl, rfl, rfl, by decide +kernel⟩
  have token : (ShareElement.packet unsignedPacket).token = none := by decide +kernel
  have carried := authenticated _ queued Int.one_pos sets
  rw [token] at carried
  cases carried

end MegaSdk.Server
