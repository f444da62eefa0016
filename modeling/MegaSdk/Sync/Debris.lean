import MegaSdk.Tree.Move
import MegaSdk.Lib.Runs
import Mathlib.Data.List.Sort

/-!
# Moving deleted nodes to the SyncDebris folder

A node whose local counterpart is gone is moved to the rubbish bin, then to the SyncDebris folder of
the day. Its `syncdeleted` state hides it from the sync while this is going on: it is set before the
move is tried and updated with the result of the move command.
-/

namespace MegaSdk.Sync.Debris

open ParentForest Runs

universe u

/-- `syncdel_t`. -/
inductive SyncDel where
  | none
  | deleted
  | inflight
  | bin
  | debris
  | debrisDay
  deriving DecidableEq

abbrev Ref := Nat

structure Node (User : Type u) where
  type : NodeType
  parent : Option Ref
  children : List Ref
  displayname : Bytes
  inshare : Option (Tree.Share User)
  syncdeleted : SyncDel

/-- A `CommandMoveNode` of `n` to `t`; `syncn` is `n` if `syncdel` is not `none`. -/
structure MoveCommand where
  n : Ref
  t : Ref
  syncdel : SyncDel
  deriving DecidableEq

structure State (User : Type u) where
  /-- The live nodes. -/
  node : Ref → Option (Node User)
  /-- A set of pointers, in the order of the addresses. -/
  todebris : List Ref
  /-- The `CommandMoveNode`s that are queued or in flight, in the order in which they are executed. -/
  reqs : List MoveCommand
  rubbish : Option Ref
  loggedIn : Bool
  next : Ref

namespace State

variable {User : Type u}

def start (loggedIn : Bool) : State User := ⟨fun _ => none, [], [], none, loggedIn, 0⟩

variable (s : State User)

def parent (n : Ref) : Option Ref := (s.node n).bind Node.parent

def children (n : Ref) : List Ref := ((s.node n).map Node.children).getD []

def type (n : Ref) : NodeType := ((s.node n).map Node.type).getD typeUnknown

def inshare (n : Ref) : Option (Tree.Share User) := (s.node n).bind Node.inshare

def syncdeleted (n : Ref) : SyncDel := ((s.node n).map Node.syncdeleted).getD .none

def modify (n : Ref) (f : Node User → Node User) : State User :=
  { s with node := Function.update s.node n ((s.node n).map f) }

def setSyncdeleted (n : Ref) (syncdel : SyncDel) : State User :=
  s.modify n fun node => { node with syncdeleted := syncdel }

/-! No chain of parents is longer than the number of nodes. -/

def shared (n : Ref) : Bool := (s.inshare n).isSome

/-- The inbound share or the top-level node at or above `n`. -/
def top (n : Ref) : Ref := climb s.parent s.shared (s.next + 1) n

def checkaccess (n : Ref) (a : AccessLevel) : Bool :=
  if a < ownerPreLogin ∧ s.loggedIn = false then a = rdOnly
  else
    match s.inshare (s.top n) with
    | some share => share.access ≥ a
    | none => s.type (s.top n) > folderNode

def sameTree [DecidableEq User] (fn tn : Ref) : ApiError :=
  if fn = tn ∨ ((s.inshare fn).isNone ∧ (s.inshare tn).isNone) then .ok
  else
    match s.inshare fn, s.inshare tn with
    | some f, some t => if f.user = t.user then .ok else .access
    | _, _ => .access

def checkmove [DecidableEq User] (fn tn : Ref) : ApiError :=
  match s.parent fn with
  | none => .access
  | some p =>
    if s.checkaccess p full = false then .access
    else if s.type tn = fileNode then .access
    else if s.checkaccess tn rdWr = false then .access
    else
      match climbAvoiding s.parent s.shared fn (s.next + 1) tn with
      | none => .circular
      | some tn => s.sameTree (s.top fn) tn

/-- The links after `Node::setparent`. -/
def relink (n p : Ref) : State User :=
  let s := match s.parent n with
    | none => s
    | some q => s.modify q fun node => { node with children := node.children.erase n }
  (s.modify n fun node => { node with parent := some p }).modify p
    fun node => { node with children := node.children ++ [n] }

/-- `rename`; its result is not used. -/
def rename [DecidableEq User] (n p : Ref) (syncdel : SyncDel) : State User :=
  if s.checkmove n p = .ok ∧ s.parent n ≠ some p then
    { s.relink n p with reqs := s.reqs ++ [⟨n, p, syncdel⟩] }
  else s

/-- Whether a node of this chain of parents is on its way to SyncDebris. -/
def onTheWay : Nat → Option Ref → Bool
  | 0, _ | _ + 1, none => false
  | fuel + 1, some p => s.syncdeleted p ≠ .none || onTheWay fuel (s.parent p)

/-- At least one parent is on its way to SyncDebris. -/
def parentOnTheWay (n : Ref) : Bool := s.onTheWay (s.next + 1) (s.parent n)

/-- `todebris.insert`. -/
def insertDebris (address : Ref → Nat) (n : Ref) : State User :=
  if n ∈ s.todebris then s
  else { s with todebris := s.todebris.orderedInsert (fun a b => address a ≤ address b) n }

/-- `movetosyncdebris`, without the `LocalNode`. -/
def movetosyncdebris (address : Ref → Nat) (dn : Ref) : State User :=
  let s := s.setSyncdeleted dn .deleted
  if s.parentOnTheWay dn then s else s.insertDebris address dn

def childnodebyname (p : Ref) (name : Bytes) : Option Ref :=
  (s.children p).find? fun c => (s.node c).any fun node => node.displayname = name

/-- The best available target: the folder of the day, the SyncDebris folder or the rubbish bin. -/
def target (day : Bytes) : Option (Ref × SyncDel) :=
  match s.rubbish with
  | none => none
  | some tn =>
    match s.childnodebyname tn (ascii "SyncDebris") with
    | none => some (tn, .bin)
    | some n =>
      match s.childnodebyname n day with
      | none => some (n, .debris)
      | some today => some (today, .debrisDay)

def forget (n : Ref) : State User :=
  { s.setSyncdeleted n .none with todebris := s.todebris.erase n }

/-- `SYNCDEL_DELETED` nodes are moved to any target, `SYNCDEL_BIN` and `SYNCDEL_DEBRIS` nodes to the
folder of the day. -/
def movesTo (target : SyncDel) (n : Ref) : Bool :=
  match s.syncdeleted n with
  | .deleted => true
  | .bin | .debris => target = .debrisDay
  | _ => false

/-- The loop body of `execmovetosyncdebris`. -/
def visit [DecidableEq User] (tn : Ref) (target : SyncDel) (n : Ref) : State User :=
  match s.syncdeleted n with
  | .deleted | .bin | .debris =>
    if s.parentOnTheWay n then s
    else if s.movesTo target n then (s.setSyncdeleted n .inflight).rename n tn target
    else s.forget n
  | .debrisDay => s.forget n
  | .none | .inflight => s

/-- `execmovetosyncdebris`, without the creation of missing folders. -/
def execmovetosyncdebris [DecidableEq User] (day : Bytes) : State User :=
  match s.target day with
  | none => s
  | some (tn, target) => s.todebris.foldl (fun s n => s.visit tn target n) s

/-- Whether `n` is `top` or below it. -/
def isBelow (top n : Ref) : Bool := climb s.parent (fun m => m = top) (s.next + 1) n = top

def updateRecords (c : MoveCommand) : State User :=
  s.todebris.foldl
    (fun s n => if s.isBelow c.n n then s.setSyncdeleted n c.syncdel else s) s

/-- What the server answers: a number, or anything else. -/
inductive Response where
  | numeric (e : Int)
  | other
  deriving DecidableEq

/-- `CommandMoveNode::procresult` of the next command. -/
def procresult (response : Response) : State User :=
  match s.reqs with
  | [] => s
  | c :: rest =>
    let s := { s with reqs := rest }
    match response with
    | .other => s
    | .numeric e =>
      if c.syncdel = .none then s
      else if e = 0 then s.updateRecords c
      else s.setSyncdeleted c.n .none

/-- `~Node`. -/
def delete (n : Ref) : State User :=
  let s := { s with todebris := s.todebris.erase n }
  let s := match s.parent n with
    | none => s
    | some q => s.modify q fun node => { node with children := node.children.erase n }
  let s := (s.children n).foldl
    (fun s c => s.modify c fun node => { node with parent := none }) s
  { s with
    node := Function.update s.node n none
    rubbish := s.rubbish.filter fun r => r ≠ n }

/-- `new Node`, with the parent if it is known. -/
def newNode (type : NodeType) (p : Option Ref) (displayname : Bytes)
    (inshare : Option (Tree.Share User)) : State User :=
  let n := s.next
  let s := { s with
    node := Function.update s.node n (some ⟨type, none, [], displayname, inshare, .none⟩)
    rubbish := if type = rubbishNode then some n else s.rubbish
    next := n + 1 }
  match p with
  | none => s
  | some p => if (s.node p).isSome then s.relink n p else s

end State

inductive Event (User : Type u) where
  | movetosyncdebris (dn : Ref)
  | execmovetosyncdebris (day : Bytes)
  | rename (n p : Ref)
  | procresult (response : State.Response)
  | delete (n : Ref)
  | newNode (type : NodeType) (p : Option Ref) (displayname : Bytes)
      (inshare : Option (Tree.Share User))
  /-- Another client has moved the node. -/
  | setparent (n p : Ref)

variable {User : Type u} [DecidableEq User]

def step (address : Ref → Nat) (s : State User) : Event User → State User
  | .movetosyncdebris dn =>
    if (s.node dn).isSome then s.movetosyncdebris address dn else s
  | .execmovetosyncdebris day => s.execmovetosyncdebris day
  | .rename n p =>
    if (s.node n).isSome ∧ (s.node p).isSome then s.rename n p .none else s
  | .procresult response => s.procresult response
  | .delete n => s.delete n
  | .newNode type p displayname inshare => s.newNode type p displayname inshare
  | .setparent n p =>
    if (s.node n).isSome ∧ (s.node p).isSome ∧ s.parent n ≠ some p then s.relink n p else s

end MegaSdk.Sync.Debris
