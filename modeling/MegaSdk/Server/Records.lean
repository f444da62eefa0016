import MegaSdk.Json.Members

/-!
# Records in server responses

megaclient.cpp: the functions that read arrays of nodes, users, shares and key requests
from a response. Their local variables are the assignments made to them, in order, and
what they do to the client is a call with these; the client itself is a parameter.
-/

namespace MegaSdk.Server

open Json

/-- A node or user handle; `none` is `UNDEF`. -/
abbrev Handle := Option Bytes

inductive Value where
  | number (i : Int)
  | text (bytes : Bytes)
  | binary (bytes : Bytes)
  | handle (h : Handle)
  | stored (text : Option Bytes)
  deriving DecidableEq, Repr

/-- The assignments to the local variables of a function, by member name. -/
abbrev Locals := List (UInt64 × Value)

inductive Call where
  /-- The end of a record of `readnodes`. -/
  | node (notify : Bool) (locals : Locals)
  /-- The child nodes that arrived before their parents. -/
  | linkparents
  | user (locals : Locals)
  | okelement (locals : Locals)
  | outshare (locals : Locals)
  | mergenewshares (notify : Bool)
  | applykeys
  | queuepubkeyreq (sh uh : Handle)
  | singlekeycr (sh nh : Handle)
  /-- `cr_response` with the tuples of its selector; `complete` if it reached their end. -/
  | crresponse (shares nodes : List Handle) (tuples : List (Nat × Nat × Option Bytes))
      (complete : Bool)
  | setscsn (scsn : Bytes)
  | scnotifyurl (url : Bytes)
  | updatenode (locals : Locals)
  | deltree (locals : Locals)
  | share (locals : Locals)
  | keys (locals : Locals)
  | fileattr (locals : Locals)
  | userattr (uh : Handle) (isprivate : Bool) (name : Bytes)
  | mapuser (locals : Locals)
  /-- The callback of a command, with an error code or with what was read. -/
  | result (e : Option Int) (locals : Locals)
  deriving DecidableEq, Repr

/-- Requests for keys, which add and remove no nodes. -/
def Call.Requests : Call → Prop
  | queuepubkeyreq _ _ => True
  | singlekeycr _ _ => True
  | crresponse _ _ _ _ => True
  | _ => False

structure Client (σ : Type) where
  perform : Call → σ → σ
  nodebyhandle : σ → Handle → Bool
  finduser : σ → Handle → Bool
  /-- `fafcs` has a channel for this cluster. -/
  fafc : σ → Int → Bool
  /-- The node is known and has a share key. -/
  sharekey : σ → Handle → Bool
  /-- What `sc_shares` returns. -/
  merges : σ → Locals → Bool
  sessionid : Bytes
  letters : ∀ c ∈ sessionid, 97 ≤ c ∧ c ≤ 123
  requests : ∀ call σ h, call.Requests → nodebyhandle (perform call σ) h = nodebyhandle σ h

/-- An id of ten letters. -/
theorem sampleSession_letters : ∀ c ∈ ascii "abcdefghij", 97 ≤ c ∧ c ≤ 123 :=
  forall_mem_of_all (by decide)

def exportedlink : Bytes := ascii "EXP"

inductive Kind where
  | int
  | float
  | handle (size : Nat)
  /-- `is(EXPORTEDLINK) ? 0 : gethandle(USERHANDLE)`. -/
  | link
  | value
  /-- `Base64::atob(getvalue(), …)`. -/
  | token (len : Nat)
  | binary (len : Nat)
  | stored
  deriving DecidableEq, Repr

def Kind.read : Kind → Text → Value × Text
  | int, s => (.number (getint s).1, (getint s).2)
  | float, s => (.stored (getfloat s).1, (getfloat s).2)
  | handle size, s => (.handle (gethandle size s).1, (gethandle size s).2)
  | link, s =>
    if (is exportedlink s).1 then (.handle (some (List.replicate 8 0)), (is exportedlink s).2)
    else (.handle (gethandle 8 s).1, (gethandle 8 s).2)
  | value, s => (.text (getvalue s).1, (getvalue s).2)
  | token len, s => (.binary (Base64.atob (payload s) len), (getvalue s).2)
  | binary len, s => (.binary (storebinary len s).1, (storebinary len s).2)
  | stored, s => (.stored (storeobject s).1, (storeobject s).2)

section
variable {σ : Type}

/-- A case of a switch that assigns to a local variable. -/
def Kind.assign (kind : Kind) (id : UInt64) : Reader (Locals × σ) := fun t s =>
  .ok (.next, (t.1 ++ [(id, (kind.read s).1)], t.2), (kind.read s).2)

abbrev Columns := List (String × Kind)

def Columns.kind (columns : Columns) (id : UInt64) : Option Kind :=
  (columns.find? fun column => nameid (ascii column.1) = id).map (·.2)

def Columns.cases (columns : Columns) (id : UInt64) : Option (Reader (Locals × σ)) :=
  (columns.kind id).map fun kind => kind.assign id

/-- `while (j->enterobject())`. -/
def objectRound (body : Reader σ) : Reader σ := fun t s =>
  match enterobject s with
  | (false, s) => .ok (.ended, t, s)
  | (true, s) => body t s

/-- `while (j->enterarray())`. -/
def arrayRound (body : Reader σ) : Reader σ := fun t s =>
  match enterarray s with
  | (false, s) => .ok (.ended, t, s)
  | (true, s) => body t s

/-- One record: its members, and then what is done with them. -/
def record (columns : Columns) (finish : Locals → σ → σ) (reject : Flow) : Reader σ :=
  fun t s =>
    match members columns.cases ([], t) s with
    | .error fault => .error fault
    | .ok (.rejected, (_, t), s) => .ok (reject, t, s)
    | .ok (_, (locals, t), s) => .ok (.next, finish locals t, s)

/-- A function that reads a value: what it returns, the client and the cursor. -/
abbrev Function (σ : Type) := σ → Text → Except Fault (Bool × σ × Text)

/-- A case of a switch that calls a function and goes on. -/
def calls (f : Function σ) : Reader σ := fun t s =>
  match f t s with
  | .error fault => .error fault
  | .ok (_, t, s) => .ok (.next, t, s)

/-- The rest of a function that has entered an object, which it leaves at `EOO`. -/
def inobject (cases : UInt64 → Option (Reader σ)) : Function σ := fun t s =>
  match members cases t s with
  | .error fault => .error fault
  | .ok (.ended, t, s) =>
    match leaveobject s with
    | .error fault => .error fault
    | .ok (_, s) => .ok (true, t, s)
  | .ok (_, t, s) => .ok (true, t, s)

def readrecords (columns : Columns) (finish : Locals → σ → σ) (reject : Flow) (last : σ → σ) :
    Function σ := fun t s =>
  match enterarray s with
  | (false, s) => .ok (false, t, s)
  | (true, s) =>
    match loop (objectRound (record columns finish reject)) t s with
    | .error fault => .error fault
    | .ok (.ended, t, s) => .ok ((leavearray s).1, last t, (leavearray s).2)
    | .ok (_, t, s) => .ok (false, t, s)

end

section Readers
variable {σ : Type} (client : Client σ)

def nodeColumns : Columns :=
  [("h", .handle 6), ("p", .handle 6), ("u", .handle 8), ("t", .int), ("a", .value),
    ("k", .value), ("s", .int), ("ts", .int), ("tmd", .int), ("fa", .value), ("r", .int),
    ("sk", .value), ("su", .handle 8), ("sts", .int)]

def userColumns : Columns := [("u", .handle 8), ("c", .int), ("m", .value), ("ts", .int)]

def okColumns : Columns := [("h", .handle 6), ("ha", .token 16), ("k", .value)]

def outshareColumns : Columns := [("h", .handle 6), ("u", .link), ("r", .int), ("ts", .int)]

def readnodes (notify : Bool) : Function σ :=
  readrecords nodeColumns (fun locals => client.perform (.node notify locals)) .rejected
    (client.perform .linkparents)

def readusers : Function σ :=
  readrecords userColumns (fun locals => client.perform (.user locals)) .rejected id

/-- `readok`; an element that is rejected does not end the loop. -/
def readok : Function σ :=
  readrecords okColumns (fun locals => client.perform (.okelement locals)) .next
    (client.perform (.mergenewshares false))

def readoutshares : Function σ :=
  readrecords outshareColumns (fun locals => client.perform (.outshare locals)) .next
    (client.perform (.mergenewshares false))

/-- `if (handle)`: only the zero handle is false. -/
def isNull : Handle → Bool
  | none => false
  | some bytes => bytes.all (· = 0)

/-- `while (j->ishandle(USERHANDLE) && (uh = j->gethandle(USERHANDLE)))`; the users of an
unknown node are skipped. -/
def procsrUser (known : Bool) (sh : Handle) : Reader σ := fun t s =>
  match ishandle 8 s with
  | (false, s) => .ok (.ended, t, s)
  | (true, s) =>
    match gethandle 8 s with
    | (uh, s) =>
      if isNull uh then .ok (.ended, t, s)
      else if known && client.finduser t uh then
        .ok (.next, client.perform (.queuepubkeyreq sh uh) t, s)
      else .ok (.next, t, s)

/-- `while (j->ishandle() && (sh = j->gethandle()))`. -/
def procsrNode : Reader σ := fun t s =>
  match ishandle 6 s with
  | (false, s) => .ok (.ended, t, s)
  | (true, s) =>
    match gethandle 6 s with
    | (sh, s) =>
      if isNull sh then .ok (.ended, t, s)
      else
        match loop (procsrUser client (client.nodebyhandle t sh) sh) t s with
        | .error fault => .error fault
        | .ok (_, t, s) => .ok (.next, t, s)

/-- `procsr`: {node,user+}+ handle tuples. -/
def procsr : Function σ := fun t s =>
  match enterarray s with
  | (false, s) => .ok (true, t, s)
  | (true, s) =>
    match loop (procsrNode client) t s with
    | .error fault => .error fault
    | .ok (_, t, s) => .ok (true, t, (leavearray s).2)

/-- A pair of `procsnk`. -/
def procsnkPair : Reader σ := fun t s =>
  match gethandle 6 s with
  | (none, s) => .ok (.returned, t, s)
  | (some sh, s) =>
    match gethandle 6 s with
    | (none, s) => .ok (.returned, t, s)
    | (some nh, s) =>
      .ok (.next, client.perform (.singlekeycr (some sh) (some nh)) t, (leavearray s).2)

def procsnk : Function σ := fun t s =>
  match enterarray s with
  | (false, s) => .ok (true, t, s)
  | (true, s) =>
    match loop (arrayRound (procsnkPair client)) t s with
    | .error fault => .error fault
    | .ok (.ended, t, s) => .ok (true, t, (leavearray s).2)
    | .ok (_, t, s) => .ok (true, t, s)

/-- A pair of `procsuk`, which does nothing with it yet. -/
def procsukPair : Reader σ := fun t s =>
  match gethandle 6 s with
  | (none, s) => .ok (.next, t, (leavearray s).2)
  | (some _, s) => .ok (.next, t, (leavearray (gethandle 6 s).2).2)

def procsuk : Function σ := fun t s =>
  match enterarray s with
  | (false, s) => .ok (true, t, s)
  | (true, s) =>
    match loop (arrayRound procsukPair) t s with
    | .error fault => .error fault
    | .ok (_, t, s) => .ok (true, t, (leavearray s).2)

/-- `while (!ISUNDEF(h = j->gethandle()))`. -/
def handleRound : Reader (List Handle) := fun handles s =>
  match gethandle 6 s with
  | (none, s) => .ok (.ended, handles, s)
  | (some h, s) => .ok (.next, handles ++ [some h], s)

/-- `(unsigned)i`. -/
def unsigned (i : Int) : Nat := (i % 2 ^ 32).toNat

/-- A tuple of the selector of `cr_response`; the walk ends where the cursor does not move. -/
def selectorRound (shares nodes : Nat) : Reader (List (Nat × Nat × Option Bytes)) :=
  fun tuples s =>
    match getint s with
    | (si, s₁) =>
      if s₁.length = s.length then .ok (.ended, tuples, s₁)
      else
        match getint s₁ with
        | (ni, s₂) =>
          if shares ≤ unsigned si then .ok (.returned, tuples, s₂)
          else if nodes ≤ unsigned ni then .ok (.returned, tuples, s₂)
          else if s₂[1]? = some quote then
            .ok (.next, tuples ++ [(unsigned si, unsigned ni, some (storebinary 32 s₂).1)],
              (storebinary 32 s₂).2)
          else .ok (.next, tuples ++ [(unsigned si, unsigned ni, none)], s₂)

/-- The linkage part of `proccr`. -/
def proccrLinkage (shares nodes : List Handle) : Function σ := fun t s =>
  match enterarray s with
  | (false, s) => .ok (true, t, s)
  | (true, s) =>
    match loop (selectorRound shares.length nodes.length) [] s with
    | .error fault => .error fault
    | .ok (flow, tuples, s) =>
      .ok (true, client.perform (.crresponse shares nodes tuples (flow = .ended)) t,
        (leavearray (leavearray s).2).2)

def proccrNodes (shares : List Handle) : Function σ := fun t s =>
  match enterarray s with
  | (false, s) => .ok (true, t, s)
  | (true, s) =>
    match loop handleRound [] s with
    | .error fault => .error fault
    | .ok (_, nodes, s) => proccrLinkage client shares nodes t (leavearray s).2

/-- `proccr` on an array. -/
def proccrArray : Function σ := fun t s =>
  match enterarray s with
  | (false, s) => .ok (true, t, s)
  | (true, s) =>
    match enterarray s with
    | (false, s) => .ok (true, t, (leavearray s).2)
    | (true, s) =>
      match loop handleRound [] s with
      | .error fault => .error fault
      | .ok (_, shares, s) => proccrNodes client shares t (leavearray s).2

def proccrCases (id : UInt64) : Option (Reader σ) :=
  if id = nameid (ascii "snk") then some (calls (procsnk client))
  else if id = nameid (ascii "suk") then some (calls procsuk)
  else none

def proccr : Function σ := fun t s =>
  match enterobject s with
  | (false, s) => proccrArray client t s
  | (true, s) => inobject (proccrCases client) t s

def setscsn : Function σ := fun t s =>
  match storebinary 8 s with
  | (scsn, s) =>
    if scsn.length = 8 then .ok (true, client.perform (.setscsn scsn) t, s) else .ok (false, t, s)

end Readers

end MegaSdk.Server
