import MegaSdk.Sync.Names
import MegaSdk.Lib.ParentForest
import Mathlib.Data.Finset.Range
import Mathlib.Logic.Function.Basic

/-!
# Sync states of local nodes

Every `LocalNode` has the state that its icon shows. A change is reported to the parents up to the
root of the sync, and a parent derives its own state from those of its children.
-/

namespace MegaSdk.Sync.States

open ParentForest

/-- `treestate_t`. -/
inductive TreeState where
  | none
  | synced
  | pending
  | syncing
  deriving DecidableEq

abbrev LocalRef := Nat

/-- The part of the `LocalNode`s that matters here. `children` is a map by local names, its entries
in no particular order; `node` is the name of the associated node, if there is one. A deleted
`LocalNode` has no links. -/
structure Forest where
  parent : LocalRef → Option LocalRef
  children : LocalRef → List (Bytes × LocalRef)
  localname : LocalRef → Bytes
  node : LocalRef → Option Bytes
  ts : LocalRef → TreeState
  dts : LocalRef → TreeState
  next : LocalRef

/-- The loop over the children in `treestate`. -/
def aggregateFrom (ts : TreeState) : List TreeState → TreeState
  | [] => ts
  | child :: rest =>
    if child = .syncing then .syncing
    else aggregateFrom (if child = .pending ∧ ts = .synced then .pending else ts) rest

namespace Forest

def start : Forest :=
  ⟨fun _ => none, fun _ => [], fun _ => [], fun _ => none, fun _ => .none, fun _ => .none, 0⟩

variable (s : Forest)

def childStates (p : LocalRef) : List TreeState := (s.children p).map fun entry => s.ts entry.2

def aggregate (p : LocalRef) : TreeState := aggregateFrom .synced (s.childStates p)

def setTs (r : LocalRef) (state : TreeState) : Forest :=
  { s with ts := Function.update s.ts r state }

/-- The first line of `treestate`. -/
def assign (r : LocalRef) (newts : TreeState) : Forest :=
  if newts = .none then s else s.setTs r newts

/-- What `treestate` does to the parent of the node. -/
def tellParent (r p : LocalRef) (newts : TreeState) : Forest :=
  if s.ts r = .syncing then s.setTs p .syncing
  else if newts ≠ s.dts r ∧ (s.ts r ≠ .synced ∨ s.ts p ≠ .synced) then s.setTs p (s.aggregate p)
  else s

/-- `dts = ts`. -/
def display (r : LocalRef) : Forest := { s with dts := Function.update s.dts r (s.ts r) }

/-- `LocalNode::treestate`, up to `fuel` levels. -/
def report : Nat → Forest → LocalRef → TreeState → Forest
  | 0, s, _, _ => s
  | fuel + 1, s, r, newts =>
    let s := s.assign r newts
    match s.parent r with
    | none => s.display r
    | some p => (report fuel (s.tellParent r p newts) p .none).display r

/-- No chain of parents is longer than the number of `LocalNode`s. -/
def treestate (r : LocalRef) (newts : TreeState) : Forest := report (s.next + 1) s r newts

/-- `children.erase(&name)`. -/
def eraseChild (p : LocalRef) (name : Bytes) : Forest :=
  { s with
    children := Function.update s.children p
      ((s.children p).filter fun entry => entry.1 ≠ name) }

/-- `children[&name] = r`. -/
def insertChild (p : LocalRef) (name : Bytes) (r : LocalRef) : Forest :=
  { s with
    children := Function.update s.children p
      ((name, r) :: (s.children p).filter fun entry => entry.1 ≠ name) }

def setParent (r p : LocalRef) : Forest := { s with parent := Function.update s.parent r (some p) }

def unlink (r : LocalRef) : Forest :=
  match s.parent r with
  | none => s
  | some q => s.eraseChild q (s.localname r)

/-- The new name, and the name of the associated node if it is different. -/
def rename (r : LocalRef) (newname : Bytes) : Forest :=
  if s.localname r = newname then s
  else
    let s := { s with localname := Function.update s.localname r newname }
    match s.node r with
    | none => s
    | some name =>
      if local2name newname = name then s
      else
        let s := { s with node := Function.update s.node r (some (local2name newname)) }
        s.treestate r .syncing

/-- The new parent, for a node that has another one. -/
def reparent (r p : LocalRef) (newnode : Bool) : Forest :=
  if s.parent r = some p then s
  else
    let s := match s.parent r with
      | none => s
      | some q => s.treestate q .none
    let s := s.setParent r p
    if !newnode && (s.node r).isSome then s.treestate r .syncing else s

/-- `LocalNode::setnameparent`; a full path is given by its last component. -/
def setnameparent (r : LocalRef) (newparent : Option LocalRef) (newname : Option Bytes) : Forest :=
  let newnode : Bool := s.localname r = []
  let s := s.unlink r
  let s := match newname with
    | none => s
    | some name => s.rename r name
  match newparent with
  | none => s
  | some p =>
    let s := s.reparent r p newnode
    (s.insertChild p (s.localname r) r).treestate p .none

/-- A new `LocalNode`, before it has a place. -/
def new (name : Bytes) : Forest :=
  { s with
    parent := Function.update s.parent s.next none
    children := Function.update s.children s.next []
    localname := Function.update s.localname s.next name
    node := Function.update s.node s.next none
    ts := Function.update s.ts s.next .none
    dts := Function.update s.dts s.next .none
    next := s.next + 1 }

def init (parent : Option LocalRef) (name : Bytes) : Forest :=
  match parent with
  | none => s.new name
  | some p => (s.new []).setnameparent s.next (some p) (some name)

/-- Whether `r` is `top` or below it. -/
def below (top r : LocalRef) : Bool :=
  climb s.parent (fun n => n = top) (s.next + 1) r = top

/-- `~LocalNode`: the links of the node and of everything below it are gone. -/
def delete (r : LocalRef) : Forest :=
  let t := s.setnameparent r none none
  { t with
    parent := fun n => if s.below r n then none else t.parent n
    children := fun n => if s.below r n then [] else t.children n }

/-- The deletion of a local item in `syncdown`, once the file system has agreed to it. -/
def syncdownDelete (r : LocalRef) : Forest :=
  let t := (s.treestate r .syncing).delete r
  match s.parent r with
  | none => t
  | some l => t.treestate l .none

end Forest

/-- What happens to the `LocalNode`s of a sync. -/
inductive Event where
  | treestate (r : LocalRef) (newts : TreeState)
  | init (parent : Option LocalRef) (name : Bytes)
  | setnode (r : LocalRef) (name : Option Bytes)
  | setnameparent (r newparent : LocalRef) (newname : Bytes)
  | delete (r : LocalRef)
  | syncdownDelete (r : LocalRef)

def step (s : Forest) : Event → Forest
  | .treestate r newts => s.treestate r newts
  | .init parent name => s.init parent name
  | .setnode r name => { s with node := Function.update s.node r name }
  | .setnameparent r newparent newname => s.setnameparent r (some newparent) (some newname)
  | .delete r => s.delete r
  | .syncdownDelete r => s.syncdownDelete r

end MegaSdk.Sync.States
