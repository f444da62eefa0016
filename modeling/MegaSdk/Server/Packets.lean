import MegaSdk.Server.KeyRequests

/-!
# Action packets

`MegaClient::procsc` and its handlers: the packets of a server-client response are read
through one cursor, which each handler has to leave somewhere inside its packet.
-/

namespace MegaSdk.Server

open Json

section Handlers
variable {σ : Type} (client : Client σ)

/-- A case of a switch that calls a function of the client. -/
def callField (f : Function σ) : Reader (Locals × σ) := fun t s =>
  match f t.2 s with
  | .error fault => .error fault
  | .ok (_, client, s) => .ok (.next, (t.1, client), s)

/-- The cases of a handler: assignments and calls, by member name. -/
structure Handler (σ : Type) where
  columns : Columns
  calls : List (String × (UInt64 → Reader (Locals × σ)))
  finish : Locals → σ → σ

def Handler.call (handler : Handler σ) (id : UInt64) : Option (Reader (Locals × σ)) :=
  (handler.calls.find? fun call => nameid (ascii call.1) = id).map fun call => call.2 id

def Handler.cases (handler : Handler σ) (id : UInt64) : Option (Reader (Locals × σ)) :=
  (handler.columns.cases id).or (handler.call id)

/-- A handler: its loop, and what it does at the end of the packet. -/
def Handler.run (handler : Handler σ) : σ → Text → Except Fault (σ × Text) := fun t s =>
  match members handler.cases ([], t) s with
  | .error fault => .error fault
  | .ok (.ended, (locals, t), s) => .ok (handler.finish locals t, s)
  | .ok (_, (_, t), s) => .ok (t, s)

def scUpdatenode : Handler σ where
  columns := [("n", .handle 6), ("u", .handle 8), ("at", .value), ("ts", .int), ("tmd", .int)]
  calls := []
  finish locals := client.perform (.updatenode locals)

def readtreeCases (id : UInt64) : Option (Reader σ) :=
  if id = nameid (ascii "f") then some (calls (readnodes client true))
  else if id = nameid (ascii "u") then some (calls (readusers client))
  else none

def readtree : Function σ := fun t s =>
  match enterobject s with
  | (false, s) => .ok (true, t, s)
  | (true, s) => inobject (readtreeCases client) t s

/-- `sc_newnodes`, after which `procsc` merges the new shares. -/
def scNewnodes : Handler σ where
  columns := []
  calls := [("t", fun _ => callField (readtree client)),
    ("u", fun _ => callField (readusers client))]
  finish _ := id

/-- `sc_shares`, after which `procsc` merges the new shares if it returns true. -/
def scShares : Handler σ where
  columns := [("n", .handle 6), ("o", .handle 8), ("u", .link), ("ok", .value),
    ("ha", .token 16), ("r", .int), ("ts", .int), ("k", .value)]
  calls := []
  finish locals t :=
    if client.merges t locals then
      client.perform (.mergenewshares true) (client.perform (.share locals) t)
    else client.perform (.share locals) t

def scContacts : Handler σ where
  columns := []
  calls := [("u", fun _ => callField (readusers client))]
  finish _ := id

/-- `while (!ISUNDEF(h = jsonsc.gethandle()) && (n = nodebyhandle(h)))`. -/
def knodesRound (id : UInt64) : Reader (Locals × σ) := fun t s =>
  match gethandle 6 s with
  | (none, s) => .ok (.ended, t, s)
  | (some h, s) =>
    if client.nodebyhandle t.2 (some h) then
      .ok (.next, (t.1 ++ [(id, .handle (some h))], t.2), s)
    else .ok (.ended, t, s)

/-- The nodes of `sc_keys`. -/
def knodes (id : UInt64) : Reader (Locals × σ) := fun t s =>
  match enterarray s with
  | (false, s) => .ok (.next, t, s)
  | (true, s) =>
    match loop (knodesRound client id) t s with
    | .error fault => .error fault
    | .ok (_, t, s) => .ok (.next, t, (leavearray s).2)

def scKeys : Handler σ where
  columns := [("h", .handle 6)]
  calls := [("sr", fun _ => callField (procsr client)), ("n", knodes client),
    ("cr", fun _ => callField (proccr client))]
  finish locals := client.perform (.keys locals)

def scFileattr : Handler σ where
  columns := [("fa", .value), ("n", .handle 6)]
  calls := []
  finish locals := client.perform (.fileattr locals)

def scDeltree : Handler σ where
  columns := [("n", .handle 6)]
  calls := []
  finish locals := client.perform (.deltree locals)

/-- A local variable of type `handle`, `UNDEF` before it is assigned. -/
def Locals.handle (locals : Locals) (id : UInt64) : Handle :=
  locals.foldl (fun h assignment =>
    match assignment with
    | (id', .handle h') => if id' = id then h' else h
    | _ => h) none

/-- `while (jsonsc.storeobject(&ua))`. -/
def userattrRound (uh : Handle) : Reader (Locals × σ) := fun t s =>
  match storeobject s with
  | (none, s) => .ok (.ended, t, s)
  | (some ua, s) =>
    if peek ua = 43 then .ok (.next, (t.1, client.perform (.userattr uh false ua.tail) t.2), s)
    else if peek ua = 42 then
      .ok (.next, (t.1, client.perform (.userattr uh true ua.tail) t.2), s)
    else .ok (.next, t, s)

/-- The attributes of `sc_userattr`, whose list is entered for a known user only. -/
def userattr : Reader (Locals × σ) := fun t s =>
  let uh := t.1.handle (nameid (ascii "u"))
  if uh.isSome ∧ client.finduser t.2 uh then
    match enterarray s with
    | (true, s) =>
      match loop (userattrRound client uh) t s with
      | .error fault => .error fault
      | .ok (_, t, s) => .ok (.returned, t, (leavearray s).2)
    | (false, s) => .ok (.next, t, (storeobject s).2)
  else .ok (.next, t, (storeobject s).2)

def scUserattr : Handler σ where
  columns := [("u", .handle 8)]
  calls := [("ua", fun _ => userattr client)]
  finish _ := id

/-- The handler of a packet type, and what `procsc` does after it. -/
def handlerOf (name : UInt64) : Option (Handler σ × (σ → σ)) :=
  if name = nameid (ascii "u") then some (scUpdatenode client, id)
  else if name = nameid (ascii "t") then
    some (scNewnodes client, client.perform (.mergenewshares true))
  else if name = nameid (ascii "d") then some (scDeltree client, id)
  else if name = nameid (ascii "s") then some (scShares client, id)
  else if name = nameid (ascii "c") then some (scContacts client, id)
  else if name = nameid (ascii "k") then some (scKeys client, id)
  else if name = nameid (ascii "fa") then some (scFileattr client, id)
  else if name = nameid (ascii "ua") then some (scUserattr client, id)
  else none

/-- The marker of a packet that this session caused. -/
def selfMarker : Bytes := ascii "\"i\":\"" ++ client.sessionid ++ [quote]

/-- A packet after its `a` member. -/
def dispatch (name : UInt64) : σ → Text → Except Fault (σ × Text) := fun t s =>
  if (selfMarker client).isPrefixOf s then .ok (t, s)
  else
    match handlerOf client name with
    | none => .ok (t, s)
    | some (handler, after) =>
      match handler.run t s with
      | .error fault => .error fault
      | .ok (t, s) => .ok (after t, s)

/-- A packet up to the end of its handler; its first member is the type. -/
def action : σ → Text → Except Fault (σ × Text) := fun t s =>
  match getnameid s with
  | .error fault => .error fault
  | .ok (id, s) =>
    if id = nameid (ascii "a") then
      match getnameid s with
      | .error fault => .error fault
      | .ok (name, s) => dispatch client name t s
    else .ok (t, s)

def packet : Reader σ := fun t s =>
  match action client t s with
  | .error fault => .error fault
  | .ok (t, s) =>
    match leaveobject s with
    | .error fault => .error fault
    | .ok (_, s) => .ok (.next, t, s)

def actionpackets : Reader σ := fun t s =>
  match enterarray s with
  | (false, s) => .ok (.next, t, s)
  | (true, s) =>
    match loop (objectRound (packet client)) t s with
    | .error fault => .error fault
    | .ok (_, t, s) => .ok (.next, t, (leavearray s).2)

def procscCases (id : UInt64) : Option (Reader σ) :=
  if id = nameid (ascii "w") then
    some fun t s =>
      match storeobject s with
      | (none, s) => .ok (.returned, t, s)
      | (some url, s) => .ok (.next, client.perform (.scnotifyurl url) t, s)
  else if id = nameid (ascii "a") then some (actionpackets client)
  else if id = nameid (ascii "sn") then some (calls (setscsn client))
  else none

def procsc : σ → Text → Except Fault (σ × Text) := fun t s =>
  match members (procscCases client) t (enterobject s).2 with
  | .error fault => .error fault
  | .ok (.ended, t, s) =>
    .ok (client.perform .applykeys (client.perform (.mergenewshares true) t), s)
  | .ok (_, t, s) => .ok (t, s)

end Handlers

end MegaSdk.Server
