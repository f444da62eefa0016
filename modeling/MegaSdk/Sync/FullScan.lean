import MegaSdk.Sync.LocalBytes
import MegaSdk.Sync.LocalPlaces

/-!
# The initial scan

A sync that starts has the `LocalNode`s of its state cache. `scan` puts the entries of a folder
into `notifyq`; `checkpath` matches each of them with the `LocalNode`s and scans the folders it
finds. When the queue is empty the sync becomes active and `deletemissing` deletes what no check
has come across. Paths are lists of names below the root of the sync.
-/

namespace MegaSdk.Sync.FullScan

open LocalBytes (Found)
open States (Forest TreeState)

abbrev LocalRef := Nat
abbrev Path := List Bytes

/-- The address of `localroot`. -/
def localroot : LocalRef := 0

/-- What file system and application answer: the entries of a folder in the order of `dnext`, what
`fopen` opens, and whether `sync_syncable` accepts a local name at a path. -/
structure Environment where
  entries : Path → List Bytes
  fopen : Path → Option LocalBytes.FileAccess
  syncable : Path → Path → Bool
  localdebris : Path

/-- `LocalNode`s without and with their names, and the numbers of scans that they are marked
with. -/
structure State where
  bytes : LocalBytes.State
  forest : Forest
  scanseqno : Int
  seqnos : LocalRef → Int
  notifyq : List Path

/-- What `localnodebypath` returns, with `*parent` and `*rpath`. -/
structure Lookup where
  l : Option LocalRef
  parent : LocalRef
  rpath : Path
  deriving DecidableEq

/-- `Sync::localnodebypath`; no path ends in the root of the sync. -/
def localnodebypath (s : Forest) (l : LocalRef) : Path → Lookup
  | [] => ⟨none, l, []⟩
  | name :: rest =>
    match s.childbyname l name with
    | none => ⟨none, l, name :: rest⟩
    | some child => if rest = [] then ⟨some child, l, []⟩ else localnodebypath s child rest

section Scan
variable (env : Environment)

/-- The paths of the entries of a folder, without those that are not synced. -/
def listing (path : Path) : List Path :=
  (((env.entries path).filter fun name => env.syncable path [name]).map fun name =>
    path ++ [name]).filter fun entry => ¬env.localdebris <+: entry

namespace State

/-- `Sync::scan`; `dopen` fails on a file. -/
def scan (s : State) (path : Path) (type : LocalBytes.LocalType) : State :=
  if env.localdebris <+: path ∨ type = .file then s
  else { s with notifyq := s.notifyq ++ listing env path }

/-- `setnotseen(0)`. -/
def see (s : State) (l : LocalRef) : State :=
  { s with seqnos := Function.update s.seqnos l s.scanseqno }

/-- `setnameparent`. -/
def move (s : State) (l parent : LocalRef) (path : Path) : State :=
  { s with forest := s.forest.setnameparent l (some parent) path.getLast? }

/-- What `checkpath` does with an open file, besides what it does to the sizes. -/
def proceed (s : State) (parent : LocalRef) (path : Path) (type : LocalBytes.LocalType) :
    LocalBytes.Branch → State
  | .ignored => s
  | .unchanged l => if s.bytes.isFile l then s.see l else (s.see l).scan env path type
  | .replaced l moved =>
    (State.move { s with forest := s.forest.delete l } moved parent path).see moved
  | .changed l => s.see l
  | .present l => s.see l
  | .moved moved =>
    let s := (s.move moved parent path).see moved
    if s.bytes.fullscan then s.scan env path type else s
  | .added =>
    let l := s.forest.next
    let s := { s with forest := s.forest.init (some parent) (path.getLast?.getD []) }
    (s.see l).scan env path type

def found (s : State) (path : Path) (unset : UInt64) : Found :=
  let lookup := localnodebypath s.forest localroot path
  ⟨false, lookup.l, some lookup.parent,
    s.forest.childbyname lookup.parent (path.getLast?.getD []), s.forest.next, unset⟩

/-- `Sync::checkpath` of a queued path, none if it is postponed. A path that cannot be opened is
left to `deletemissing`. -/
def checkpath (s : State) (path : Path) (unset : UInt64) : Option State :=
  let lookup := localnodebypath s.forest localroot path
  if lookup.l = none ∧ lookup.rpath = [] then some s
  else if !env.syncable path lookup.rpath then some s
  else if (s.forest.node lookup.parent).isNone then none
  else
    match env.fopen path with
    | none => some s
    | some fa =>
      let found := s.found path unset
      some (proceed env { s with bytes := s.bytes.checkpath found fa } lookup.parent path fa.type
        (s.bytes.branch found fa))

/-- A path is taken off the queue by `procscanq`. -/
def procscanq (s : State) (unset : UInt64) : State :=
  match s.notifyq with
  | [] => s
  | path :: rest => (checkpath env { s with notifyq := rest } path unset).getD s

end State

end Scan

namespace State

/-- `~LocalNode`, with everything below. -/
def delete (s : State) (l : LocalRef) : State :=
  { s with
    bytes := s.bytes.delete l
    forest := s.forest.delete l }

/-- `Sync::deletemissing`, down to `fuel` levels. -/
def deletemissing : Nat → State → LocalRef → State
  | 0, s, _ => s
  | fuel + 1, s, l =>
    (s.forest.children l).foldl
      (fun s entry =>
        if s.scanseqno - s.seqnos entry.2 > 1 then s.delete entry.2
        else deletemissing fuel s entry.2)
      s

def activate (s : State) : State :=
  deletemissing (s.forest.next + 1) { s with scanseqno := s.scanseqno + 1 } localroot

end State

/-- The checks, and what else happens to the `LocalNode`s before the sync is active. -/
inductive Event where
  | check (unset : UInt64)
  | setnode (l : LocalRef) (name : Option Bytes)
  | treestate (l : LocalRef) (newts : TreeState)
  | syncup (l : LocalRef) (source : Option FileFingerprint.Source)

def step (env : Environment) (s : State) : Event → State
  | .check unset => s.procscanq env unset
  | .setnode l name => { s with forest := States.step s.forest (.setnode l name) }
  | .treestate l newts => { s with forest := s.forest.treestate l newts }
  | .syncup l source => { s with bytes := s.bytes.syncupFile l source }

end MegaSdk.Sync.FullScan
