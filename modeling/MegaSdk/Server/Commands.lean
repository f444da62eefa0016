import MegaSdk.Server.Packets

/-!
# Results of commands

commands.cpp and request.cpp: `Request::procresult` hands the elements of a response to the
commands of the request, one by one, through one cursor. What the commands report to the
application is a call with an error code or with what they read.
-/

namespace MegaSdk.Server

open Json

/-- Where the application or the client is told that a result is malformed. -/
def einternal : Int := ApiError.internal.code

section Commands
variable {σ : Type} (client : Client σ)

/-- A `procresult`: the client and the cursor. -/
abbrev Procresult (σ : Type) := σ → Text → Except Fault (σ × Text)

def report (e : Option Int) (locals : Locals) : σ → σ := client.perform (.result e locals)

/-- `if (client->json.isnumeric())` with the code passed on, and what is done otherwise. -/
def numericOr (otherwise : Procresult σ) : Procresult σ := fun t s =>
  match isnumeric s with
  | (true, s) => .ok (report client (some (getint s).1) [] t, (getint s).2)
  | (false, s) => otherwise t s

/-- A loop over the members of a result object; `returned` and `rejected` end it early. -/
def readmembers (cases : UInt64 → Option (Reader (Locals × σ))) : Procresult σ := fun t s =>
  match members cases ([], t) s with
  | .error fault => .error fault
  | .ok (.ended, (locals, t), s) => .ok (report client none locals t, s)
  | .ok (.returned, (_, t), s) => .ok (t, s)
  | .ok (_, (_, t), s) => .ok (report client (some einternal) [] t, s)

/-- A result that is skipped, or stored as a whole. -/
def storeresult : Procresult σ := fun t s =>
  .ok (report client none [(0, .stored (storeobject s).1)] t, (storeobject s).2)

def readvalue (kind : Kind) : Procresult σ := fun t s =>
  .ok (report client none [(0, (kind.read s).1)] t, (kind.read s).2)

/-- The values of a row, read one after the other. -/
def readrow : List Kind → Text → List Value × Text
  | [], s => ([], s)
  | kind :: kinds, s => ((kind.read s).1 :: (readrow kinds (kind.read s).2).1,
      (readrow kinds (kind.read s).2).2)

def row (kinds : List Kind) : Reader σ := fun t s =>
  .ok (.next, report client none ((readrow kinds s).1.map fun value => (0, value)) t,
    (leavearray (readrow kinds s).2).2)

/-- `while (client->json.enterarray())` over rows. -/
def readrows (kinds : List Kind) : Procresult σ := fun t s =>
  match loop (arrayRound (row client kinds)) t s with
  | .error fault => .error fault
  | .ok (_, t, s) => .ok (report client none [] t, s)

/-- A case of a switch that does not read its value. -/
def unread : Reader (Locals × σ) := fun t s => .ok (.next, t, s)

/-- A case that returns if the function it calls returns false. -/
def callOrReturn (f : Function σ) : Reader (Locals × σ) := fun t s =>
  match f t.2 s with
  | .error fault => .error fault
  | .ok (true, t', s) => .ok (.next, (t.1, t'), s)
  | .ok (false, t', s) => .ok (.returned, (t.1, report client (some einternal) [] t'), s)

/-- A case that enters an array, loops over it and leaves it. -/
def inarray (round : Reader σ) : Reader (Locals × σ) := fun t s =>
  match enterarray s with
  | (false, s) => .ok (.next, t, s)
  | (true, s) =>
    match loop round t.2 s with
    | .error fault => .error fault
    | .ok (_, t', s) => .ok (.next, (t.1, t'), (leavearray s).2)

/-- The cases of a switch: assignments and other cases. -/
def casesOf (columns : Columns) (others : List (String × Reader (Locals × σ))) (id : UInt64) :
    Option (Reader (Locals × σ)) :=
  (columns.cases id).or
    ((others.find? fun other => nameid (ascii other.1) = id).map fun other => other.2)

/-- `HttpReqCommandPutFA`: a code is not consumed. -/
def putFA : Procresult σ := fun t s =>
  match isnumeric s with
  | (true, s) => .ok (report client none [] t, s)
  | (false, s) => readmembers client (casesOf [("p", .value)] []) t s

/-- `CommandGetFA`: nor is it here. -/
def getFA (part : Int) : Procresult σ := fun t s =>
  if client.fafc t part then
    match isnumeric s with
    | (true, s) => .ok (report client none [] t, s)
    | (false, s) => readmembers client (casesOf [("p", .value)] []) t s
  else .ok (t, s)

/-- `CommandAttachFA`. -/
def attachFA : Procresult σ := numericOr client (storeresult client)

/-- `CommandPutFile`; a canceled one reads neither a code nor the address. -/
def putFile (canceled : Bool) : Procresult σ := fun t s =>
  match isnumeric s with
  | (true, s) =>
    if canceled then .ok (t, s) else .ok (report client (some (getint s).1) [] t, (getint s).2)
  | (false, s) =>
    readmembers client
      (if canceled then casesOf [] [("p", unread)] else casesOf [("p", .stored)] []) t s

def getFileColumns (tslot : Bool) : Columns :=
  [("g", .stored), ("s", .int), ("ts", .int), ("tmd", .int), ("at", .value), ("fa", .stored),
    ("e", .int)] ++ if tslot then [("pfa", .int)] else []

def getFileReaders (tslot : Bool) : List (String × Reader (Locals × σ)) :=
  [("d", unread)] ++ if tslot then [] else [("pfa", unread)]

/-- `CommandGetFile` with or without a slot. -/
def getFile (tslot : Bool) : Procresult σ :=
  numericOr client (readmembers client (casesOf (getFileColumns tslot) (getFileReaders tslot)))

def setAttr : Procresult σ := numericOr client (storeresult client)

def putNodesReaders : List (String × Reader (Locals × σ)) :=
  [("f", callField (readnodes client true))]

def putNodes : Procresult σ :=
  numericOr client (readmembers client (casesOf [] (putNodesReaders client)))

def moveNode : Procresult σ := numericOr client (storeresult client)

def delNode : Procresult σ := numericOr client (storeresult client)

def fetchNodesReaders : List (String × Reader (Locals × σ)) :=
  [("f", callOrReturn client (readnodes client false)), ("ok", callField (readok client)),
    ("s", callField (readoutshares client)), ("u", callOrReturn client (readusers client)),
    ("cr", callField (proccr client)), ("sr", callField (procsr client)),
    ("sn", callOrReturn client (setscsn client))]

def fetchNodes : Procresult σ :=
  numericOr client (readmembers client (casesOf [] (fetchNodesReaders client)))

def setPH : Procresult σ := numericOr client (readvalue client (.handle 6))

def getPHColumns : Columns :=
  [("s", .int), ("at", .stored), ("fa", .stored), ("ts", .int), ("tmd", .int)]

/-- `CommandGetPH`: a member that `storeobject` rejects is reported, and the loop goes on. -/
def getPHCases (id : UInt64) : Option (Reader (Locals × σ)) :=
  (casesOf getPHColumns [] id).or
    (some fun t s =>
      match storeobject s with
      | (none, s) => .ok (.next, (t.1, report client (some einternal) [] t.2), s)
      | (some _, s) => .ok (.next, t, s))

def getPH : Procresult σ := numericOr client (readmembers client (getPHCases client))

/-- An owner key: the request is repeated with it if the node still has a share key. -/
def ownerkey (sh : Handle) : Reader (Locals × σ) := fun t s =>
  match storebinary 18 s with
  | (key, s) =>
    if key.length = 16 ∧ client.sharekey t.2 sh then
      .ok (.returned, (t.1, client.perform (.result none [(0, .binary key)]) t.2), s)
    else .ok (.next, t, s)

/-- The user confirmations of `CommandSetShare`: `procuserresult` is called until it returns
false, and the array is not left. -/
def shareusers : Reader (Locals × σ) := fun t s =>
  match enterarray s with
  | (false, s) => .ok (.next, t, s)
  | (true, s) =>
    match loop (objectRound (record [("u", .handle 8), ("m", .value)]
        (fun locals => client.perform (.mapuser locals)) .ended)) t.2 s with
    | .error fault => .error fault
    | .ok (_, t', s) => .ok (.next, (t.1, t'), s)

/-- `while (client->json.isnumeric())`. -/
def shareresultRound : Reader σ := fun t s =>
  match isnumeric s with
  | (false, s) => .ok (.ended, t, s)
  | (true, s) => .ok (.next, report client (some (getint s).1) [] t, (getint s).2)

def shareresults : Reader (Locals × σ) := inarray (shareresultRound client)

def setShareReaders (sh : Handle) : List (String × Reader (Locals × σ)) :=
  [("ok", ownerkey client sh), ("u", shareusers client), ("r", shareresults client),
    ("snk", callField (procsnk client)), ("suk", callField procsuk),
    ("cr", callField (proccr client))]

def setShare (sh : Handle) : Procresult σ :=
  numericOr client (readmembers client (casesOf [] (setShareReaders client sh)))

/-- `Command::procresult`, the default: ignore and skip. -/
def ignoreresult : Procresult σ := numericOr client (readmembers client (casesOf [] []))

def pubKeyRequestColumns : Columns := [("u", .handle 8), ("pubk", .binary 1026)]

/-- `CommandPubKeyRequest`: a code is noticed and not consumed. -/
def pubKeyRequest : Procresult σ := fun t s =>
  readmembers client (casesOf pubKeyRequestColumns []) t (isnumeric s).2

def userRequest : Procresult σ := numericOr client (storeresult client)

def putUA : Procresult σ := numericOr client (storeresult client)

def getUA : Procresult σ := numericOr client (readvalue client .value)

def loginColumns : Columns :=
  [("k", .binary 16), ("u", .handle 8), ("tsid", .binary 1026), ("csid", .binary 1026),
    ("privk", .binary 2052), ("sn", .int)]

def login : Procresult σ := numericOr client (readmembers client (casesOf loginColumns []))

def resumeEphemeralSessionColumns : Columns := [("k", .binary 16), ("tsid", .binary 43)]

def resumeEphemeralSession : Procresult σ :=
  numericOr client (readmembers client (casesOf resumeEphemeralSessionColumns []))

def createEphemeralSession : Procresult σ := numericOr client (readvalue client (.handle 8))

/-- `CommandSetMasterKey`: what is no code is not consumed. -/
def setMasterKey : Procresult σ :=
  numericOr client fun t s => .ok (report client (some 0) [] t, s)

def sendSignupLink : Procresult σ := numericOr client (storeresult client)

def confirmSignupLink : Procresult σ := numericOr client (storeresult client)

def setKeyPair : Procresult σ := numericOr client (storeresult client)

def storebinarystring (s : Text) : Option Bytes × Text :=
  let pos := skip comma s
  if peek pos = quote then
    if quote ∈ pos.tail then
      (some (Base64.atob pos.tail ((nameChars pos.tail).length / 4 * 3 + 3)), (storeobject pos).2)
    else (none, pos)
  else (some [], pos)

/-- `CommandQuerySignupLink`: the zero handle ends the reading early, and a result that is
accepted is left twice, here and by `Request::procresult`. -/
def querySignupLink : Procresult σ :=
  numericOr client fun t s =>
    match storebinarystring s with
    | (none, s) => .ok (report client (some einternal) [] t, s)
    | (some name, s) =>
      match storebinarystring s with
      | (none, s) => .ok (report client (some einternal) [] t, s)
      | (some email, s) =>
        match gethandle 8 s with
        | (uh, s) =>
          if isNull uh then .ok (report client (some einternal) [] t, s)
          else
            match readrow [.token 16, .token 16] s with
            | (keys, s) =>
              if uh ≠ none ∧ keys.all (fun
                  | .binary key => key.length = 16
                  | _ => false) then
                .ok (report client none (([Value.handle uh, .binary name, .binary email] ++
                  keys).map fun value => (0, value)) t, (leavearray s).2)
              else .ok (report client (some einternal) [] t, s)

/-- `(int)i`. -/
def toInt32 (i : Int) : Int := i.bmod (2 ^ 32)

/-- `while ((t = client->json.getint()) >= 0)`. -/
def historyRound : Reader σ := fun t s =>
  match getint s with
  | (i, s) =>
    if 0 ≤ i then .ok (.next, report client none [(0, .number i)] t, s) else .ok (.ended, t, s)

def history : Reader (Locals × σ) := inarray (historyRound client)

def balances : Reader (Locals × σ) := inarray (arrayRound (row client [.value, .value]))

def getUserQuotaColumns : Columns :=
  [("bt", .int), ("bti", .int), ("tar", .int), ("tal", .int), ("tua", .int), ("tuo", .int),
    ("rua", .int), ("ruo", .int), ("cstrg", .int), ("mstrg", .int), ("caxfer", .int),
    ("csxfer", .int), ("mxfer", .int), ("srvratio", .float), ("utype", .int),
    ("stype", .value), ("suntil", .int)]

def getUserQuotaReaders : List (String × Reader (Locals × σ)) :=
  [("tah", history client), ("balance", balances client)]

def getUserQuota : Procresult σ :=
  numericOr client (readmembers client (casesOf getUserQuotaColumns (getUserQuotaReaders client)))

def transactionRow : List Kind := [.value, .int, .value, .value]

def purchaseRow : List Kind := [.value, .int, .value, .value, .int]

def sessionRow : List Kind := [.int, .int, .stored, .stored, .value, .int]

/-- The rows of the account history; a code is not consumed. -/
def getUserTransactions : Procresult σ := readrows client transactionRow

def getUserPurchases : Procresult σ := readrows client purchaseRow

def getUserSessions : Procresult σ := readrows client sessionRow

/-- A quota item; a missing handle or a negative number ends the whole command. -/
def quotaitem : Reader σ := fun t s =>
  match gethandle 6 s with
  | (none, s) => .ok (.returned, report client (some einternal) [] t, s)
  | (some product, s) =>
    match getint s with
    | (prolevel, s) =>
      if toInt32 prolevel < 0 then .ok (.returned, report client (some einternal) [] t, s)
      else
        match getint s with
        | (gbstorage, s) =>
          if toInt32 gbstorage < 0 then .ok (.returned, report client (some einternal) [] t, s)
          else
            match getint s with
            | (gbtransfer, s) =>
              if toInt32 gbtransfer < 0 then
                .ok (.returned, report client (some einternal) [] t, s)
              else
                match getint s with
                | (months, s) =>
                  if toInt32 months < 0 then
                    .ok (.returned, report client (some einternal) [] t, s)
                  else
                    match readrow [.value, .value] s with
                    | (values, s) =>
                      .ok (.next, report client none (([Value.handle (some product),
                        .number prolevel, .number gbstorage, .number gbtransfer,
                        .number months] ++ values).map fun value => (0, value)) t,
                          (leavearray s).2)

def enumerateQuotaItems : Procresult σ :=
  numericOr client fun t s =>
    match loop (arrayRound (quotaitem client)) t s with
    | .error fault => .error fault
    | .ok (.ended, t, s) => .ok (report client none [] t, s)
    | .ok (_, t, s) => .ok (t, s)

/-- `CommandPurchaseAddItem` is not implemented. -/
def purchaseAddItem : Procresult σ := fun t s => .ok (t, s)

def purchaseCheckout : Procresult σ := numericOr client (storeresult client)

/-- The command classes, with what decides how they read their result. -/
inductive Command where
  | putFA
  | getFA (part : Int)
  | attachFA
  | putFile (canceled : Bool)
  | getFile (tslot : Bool)
  | setAttr
  | putNodes
  | moveNode
  | delNode
  | fetchNodes
  | setPH
  | getPH
  | setShare (sh : Handle)
  | shareKeyUpdate
  | nodeKeyUpdate
  | singleKeyCR
  | keyCR
  | pubKeyRequest
  | userRequest
  | putUA
  | getUA
  | login
  | resumeEphemeralSession
  | createEphemeralSession
  | setMasterKey
  | sendSignupLink
  | confirmSignupLink
  | setKeyPair
  | querySignupLink
  | getUserQuota
  | getUserTransactions
  | getUserPurchases
  | getUserSessions
  | enumerateQuotaItems
  | purchaseAddItem
  | purchaseCheckout
  deriving DecidableEq, Repr

/-- The virtual `procresult`. -/
def Command.procresult : Command → Procresult σ
  | putFA => Server.putFA client
  | getFA part => Server.getFA client part
  | attachFA => Server.attachFA client
  | putFile canceled => Server.putFile client canceled
  | getFile tslot => Server.getFile client tslot
  | setAttr => Server.setAttr client
  | putNodes => Server.putNodes client
  | moveNode => Server.moveNode client
  | delNode => Server.delNode client
  | fetchNodes => Server.fetchNodes client
  | setPH => Server.setPH client
  | getPH => Server.getPH client
  | setShare sh => Server.setShare client sh
  | shareKeyUpdate => ignoreresult client
  | nodeKeyUpdate => ignoreresult client
  | singleKeyCR => ignoreresult client
  | keyCR => ignoreresult client
  | pubKeyRequest => Server.pubKeyRequest client
  | userRequest => Server.userRequest client
  | putUA => Server.putUA client
  | getUA => Server.getUA client
  | login => Server.login client
  | resumeEphemeralSession => Server.resumeEphemeralSession client
  | createEphemeralSession => Server.createEphemeralSession client
  | setMasterKey => Server.setMasterKey client
  | sendSignupLink => Server.sendSignupLink client
  | confirmSignupLink => Server.confirmSignupLink client
  | setKeyPair => Server.setKeyPair client
  | querySignupLink => Server.querySignupLink client
  | getUserQuota => Server.getUserQuota client
  | getUserTransactions => Server.getUserTransactions client
  | getUserPurchases => Server.getUserPurchases client
  | getUserSessions => Server.getUserSessions client
  | enumerateQuotaItems => Server.enumerateQuotaItems client
  | purchaseAddItem => Server.purchaseAddItem
  | purchaseCheckout => Server.purchaseCheckout client

/-- One command of `Request::procresult`: its result is entered and left around it. -/
def process (command : Command) : Procresult σ := fun t s =>
  match enterobject s with
  | (true, s) =>
    match command.procresult client t s with
    | .error fault => .error fault
    | .ok (t, s) =>
      match leaveobject s with
      | .error fault => .error fault
      | .ok (_, s) => .ok (t, s)
  | (false, s) =>
    match enterarray s with
    | (true, s) =>
      match command.procresult client t s with
      | .error fault => .error fault
      | .ok (t, s) => .ok (t, (leavearray s).2)
    | (false, s) => command.procresult client t s

/-- The loop of `Request::procresult`, with the cursor after each command. -/
def processAll : List Command → σ → Text → Except Fault (List Text × σ)
  | [], t, _ => .ok ([], t)
  | command :: commands, t, s =>
    match process client command t s with
    | .error fault => .error fault
    | .ok (t, s) =>
      match processAll commands t s with
      | .error fault => .error fault
      | .ok (cursors, t) => .ok (s :: cursors, t)

def procresult (commands : List Command) (t : σ) (s : Text) : Except Fault (List Text × σ) :=
  processAll client commands t (enterarray s).2

end Commands

end MegaSdk.Server
