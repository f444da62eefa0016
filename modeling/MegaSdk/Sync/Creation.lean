import MegaSdk.Cache.NodeRecord
import MegaSdk.Lib.Runs
import Mathlib.Algebra.Order.Group.Int
import Mathlib.Data.List.Count

/-!
# The counter of node creations for syncs

`syncadding` counts the `CommandPutNodes` of syncs whose results are awaited, and no sync is
processed while it is not zero. `syncupdate` and the completion of uploads count up, the results
count down, and `init` starts again from zero. Of the list that `syncupdate` cuts into subtrees
only what the number of commands depends on is kept here.
-/

namespace MegaSdk.Sync.Creation

open Runs
open Cache (Handle)

/-- Who asked for the nodes, `putsource_t`. -/
inductive PutSource where
  | app
  | sync
  | syncdebris
  deriving DecidableEq

/-- A `CommandPutNodes` of `count` nodes; without a target node they go to a user. -/
structure PutNodes where
  target : Option Handle
  count : Nat
  tag : Int
  source : PutSource
  deriving DecidableEq

inductive Command where
  | putnodes (c : PutNodes)
  | fetchnodes
  | other
  deriving DecidableEq

/-- An entry of `synccreate`: a local node, whether `nodebyfingerprint` finds a copy of it, and
the node of its parent. -/
structure NewLocal where
  type : NodeType
  copy : Bool
  parentNode : Option Handle
  tag : Int
  deriving DecidableEq

/-- What `putnodes` for a user comes to: `queuepubkeyreq` asks for the public key, or nothing is
queued as there is no such user, the key is asked for already or cannot encrypt, or the nodes are
sent with the key that is known. -/
inductive Recipient where
  | asked
  | failed
  | known

/-- The remote tree and the users as far as the completion of an upload looks at them. -/
structure Remote where
  known : Handle → Bool
  root : Handle
  rubbish : Handle
  recipient : Bytes → Recipient

structure LocalFile where
  parentNode : Option Handle
  nodeMtime : Option Int
  mtime : Int
  tag : Int

structure File where
  put : Bool
  h : Handle
  targetuser : Bytes
  tag : Int

/-- A member of a result object: `f`, and whether the nodes were read, or another one, and
whether its value was skipped. -/
inductive Member where
  | nodes (ok : Bool)
  | other (stored : Bool)

inductive Reply where
  | numeric (e : Int)
  | members (ms : List Member)

structure Client where
  syncadding : Int
  synccreate : List NewLocal
  puts : List NewLocal
  reqs : Bool → List Command
  r : Bool
  fetchingnodes : Bool
  results : List (PutNodes × Int)

def apiEInternal : Int := -1

namespace Client

def start : Client := ⟨0, [], [], fun _ => [], false, false, []⟩

def add (c : Command) (s : Client) : Client :=
  { s with reqs := Function.update s.reqs s.r (s.reqs s.r ++ [c]) }

/-- The distinct subtrees beneath existing nodes: a new one starts at every entry whose parent
has a node. -/
def subtrees : Nat → List NewLocal → List (List NewLocal)
  | 0, _ => []
  | _, [] => []
  | fuel + 1, l :: rest =>
    (l :: rest.takeWhile fun k => k.parentNode.isNone) ::
      subtrees fuel (rest.dropWhile fun k => k.parentNode.isNone)

/-- Folders and files that exist already are created at once. -/
def immediate (l : NewLocal) : Bool := l.type = folderNode || l.copy

/-- One subtree of `syncupdate`: nodes are created unless the parent node has been deleted. -/
def createSubtree (s : Client) (subtree : List NewLocal) : Client :=
  let s := { s with
    puts := s.puts ++ subtree.filter fun l => !immediate l && l.type = fileNode }
  match (subtree.filter immediate).length, subtree.head? with
  | count + 1, some first =>
    match first.parentNode with
    | some h =>
      { s with syncadding := s.syncadding + 1 }.add
        (.putnodes ⟨some h, count + 1, first.tag, .sync⟩)
    | none => s
  | _, _ => s

def syncupdate (s : Client) : Client :=
  { (subtrees s.synccreate.length s.synccreate).foldl createSubtree s with synccreate := [] }

/-- `putnodes` of one node to a user; with a key that is asked for the nodes wait. -/
def putnodesUser (recipient : Recipient) (tag : Int) (s : Client) : Client :=
  match recipient with
  | .asked => s.add .other
  | .failed => s
  | .known => s.add (.putnodes ⟨none, 1, tag, .app⟩)

/-- `File::completed`, for a local node or not. -/
def fileCompleted (remote : Remote) (f : File) (l : Option LocalFile) (s : Client) : Client :=
  if f.put then
    if f.targetuser ≠ [] then s.putnodesUser (remote.recipient f.targetuser) f.tag
    else
      let th := if remote.known f.h then f.h else remote.root
      match l with
      | some l =>
        { s with syncadding := s.syncadding + 1 }.add (.putnodes ⟨some th, 1, l.tag, .sync⟩)
      | none => s.add (.putnodes ⟨some th, 1, f.tag, .app⟩)
  else s

/-- `LocalNode::completed`: to the rubbish if the parent is gone or the node is newer. The command
that moves an overwritten node to the debris is queued by an event of its own. -/
def localCompleted (remote : Remote) (f : File) (l : LocalFile) (s : Client) : Client :=
  let newer := l.nodeMtime.any fun t => l.mtime < t
  match l.parentNode, newer with
  | some h, false => fileCompleted remote { f with h := h } (some l) s
  | _, _ => fileCompleted remote { f with h := remote.rubbish } (some l) s

def putnodesSyncResult (s : Client) : Client := { s with syncadding := s.syncadding - 1 }

/-- The loop over the members of a result object. -/
def readMembers : List Member → Int → Int
  | [], e => e
  | .nodes ok :: rest, e => readMembers rest (if ok then 0 else e)
  | .other true :: rest, e => readMembers rest e
  | .other false :: _, _ => apiEInternal

def procresult (c : PutNodes) (reply : Reply) (s : Client) : Client :=
  match reply with
  | .numeric e =>
    let s := { s with results := s.results ++ [(c, e)] }
    if c.source = .sync then s.putnodesSyncResult else s
  | .members ms =>
    let s := { s with results := s.results ++ [(c, readMembers ms apiEInternal)] }
    if c.source = .sync then s.putnodesSyncResult else s

/-- The next command of the batch in `reqs[r ^ 1]` gets its result. -/
def result (reply : Reply) (s : Client) : Client :=
  match s.reqs (!s.r) with
  | [] => s
  | c :: rest =>
    let s := { s with reqs := Function.update s.reqs (!s.r) rest }
    match c with
    | .putnodes c => s.procresult c reply
    | .fetchnodes => { s with fetchingnodes := false }
    | .other => s

/-- `MegaClient::init`, as far as requests and syncs go. -/
def init (s : Client) : Client := { s with syncadding := 0, fetchingnodes := false }

/-- `MegaClient::fetchnodes`: unless the cache serves it or a reload is under way, everything is
purged. The commands stay. -/
def fetchnodes (cached : Bool) (s : Client) : Client :=
  if cached then s
  else if s.fetchingnodes then s
  else { s.init with fetchingnodes := true }.add .fetchnodes

end Client

inductive Event where
  | create (l : NewLocal)
  | syncupdate
  | fileCompleted (remote : Remote) (f : File)
  | localCompleted (remote : Remote) (f : File) (l : LocalFile)
  | putnodes (target : Option Handle) (count : Nat) (tag : Int) (debris : Bool)
  | other
  | flip
  | result (reply : Reply)
  | fetchnodes (cached : Bool)

def step (s : Client) : Event → Client
  | .create l => { s with synccreate := s.synccreate ++ [l] }
  | .syncupdate => s.syncupdate
  | .fileCompleted remote f => s.fileCompleted remote f none
  | .localCompleted remote f l => s.localCompleted remote f l
  | .putnodes target count tag debris =>
    s.add (.putnodes ⟨target, count, tag, if debris then .syncdebris else .app⟩)
  | .other => s.add .other
  | .flip => { s with r := !s.r }
  | .result reply => s.result reply
  | .fetchnodes cached => s.fetchnodes cached

/-- A `CommandPutNodes` of a sync. -/
def Command.ofSync : Command → Bool
  | .putnodes c => c.source = .sync
  | _ => false

/-- The commands of syncs, queued or in flight, whose results are awaited. -/
def Client.outstanding (s : Client) : Nat :=
  (s.reqs false).countP Command.ofSync + (s.reqs true).countP Command.ofSync

structure Counted (s : Client) : Prop where
  count : s.syncadding = s.outstanding
  nonneg : 0 ≤ s.syncadding
  zero_iff : s.syncadding = 0 ↔ s.outstanding = 0

/-- A reload that purges finds no command of a sync queued or in flight. -/
def ReloadQuiet (s : Client) : Event → Prop
  | .fetchnodes false => s.fetchingnodes = false → s.outstanding = 0
  | _ => True

instance (s : Client) (e : Event) : Decidable (ReloadQuiet s e) := by
  unfold ReloadQuiet
  split <;> infer_instance

namespace Client

variable {s : Client}

def excess (s : Client) : Int := s.syncadding - s.outstanding

theorem counted_iff : Counted s ↔ s.excess = 0 := by
  constructor
  · intro counted
    rw [excess, counted.count, Int.sub_self]
  · intro balanced
    rw [excess] at balanced
    exact ⟨by omega, by omega, by omega⟩

theorem outstanding_add (c : Command) (s : Client) :
    (s.add c).outstanding = s.outstanding + if c.ofSync then 1 else 0 := by
  cases buffer : s.r with
  | false =>
    simp [outstanding, add, buffer, List.countP_singleton]
    omega
  | true =>
    simp [outstanding, add, buffer, List.countP_singleton]
    omega

theorem excess_add {c : Command} (foreign : c.ofSync = false) (s : Client) :
    (s.add c).excess = s.excess := by
  rw [excess, outstanding_add, foreign]
  rfl

/-- A command of a sync is counted as it is queued. -/
theorem excess_count {c : Command} (own : c.ofSync = true) (s : Client) :
    ({ s with syncadding := s.syncadding + 1 }.add c).excess = s.excess := by
  rw [excess, outstanding_add, own, excess]
  change s.syncadding + 1 - ((s.outstanding + 1 : Nat) : Int) = _
  omega

theorem excess_createSubtree (s : Client) (subtree : List NewLocal) :
    (s.createSubtree subtree).excess = s.excess := by
  rw [createSubtree]
  split
  case h_1 first _ _ =>
    split
    case h_1 => exact excess_count rfl _
    case h_2 => rfl
  case h_2 => rfl

theorem excess_syncupdate (s : Client) : s.syncupdate.excess = s.excess := by
  have each : ∀ (trees : List (List NewLocal)) (s : Client),
      (trees.foldl createSubtree s).excess = s.excess := by
    intro trees
    induction trees with
    | nil => exact fun s => rfl
    | cons subtree trees ih => exact fun s => (ih _).trans (excess_createSubtree s subtree)
  exact each _ s

theorem excess_putnodesUser (recipient : Recipient) (tag : Int) (s : Client) :
    (s.putnodesUser recipient tag).excess = s.excess := by
  cases recipient with
  | asked => exact excess_add rfl s
  | failed => rfl
  | known => exact excess_add rfl s

theorem excess_fileCompleted (remote : Remote) (f : File) (l : Option LocalFile) (s : Client) :
    (s.fileCompleted remote f l).excess = s.excess := by
  rw [fileCompleted]
  split
  case isFalse => rfl
  case isTrue =>
    split
    case isTrue => exact excess_putnodesUser _ _ s
    case isFalse =>
      cases l with
      | some l => exact excess_count rfl s
      | none => exact excess_add rfl s

theorem excess_localCompleted (remote : Remote) (f : File) (l : LocalFile) (s : Client) :
    (s.localCompleted remote f l).excess = s.excess := by
  rw [localCompleted]
  split
  · exact excess_fileCompleted ..
  · exact excess_fileCompleted ..

/-- Whatever the reply, the result of a command is counted once. -/
theorem syncadding_procresult (c : PutNodes) (reply : Reply) (s : Client) :
    (s.procresult c reply).syncadding = s.syncadding - if c.source = .sync then 1 else 0 := by
  cases reply with
  | numeric e =>
    rw [procresult]
    split
    · rfl
    · exact (Int.sub_zero _).symm
  | members ms =>
    rw [procresult]
    split
    · rfl
    · exact (Int.sub_zero _).symm

theorem reqs_procresult (c : PutNodes) (reply : Reply) (s : Client) :
    (s.procresult c reply).reqs = s.reqs := by
  cases reply with
  | numeric e =>
    rw [procresult]
    split <;> rfl
  | members ms =>
    rw [procresult]
    split <;> rfl

theorem outstanding_pop {c : Command} {rest : List Command} (batch : s.reqs (!s.r) = c :: rest) :
    s.outstanding = { s with reqs := Function.update s.reqs (!s.r) rest }.outstanding +
      if c.ofSync then 1 else 0 := by
  cases buffer : s.r with
  | false =>
    rw [buffer, Bool.not_false] at batch
    simp [outstanding, batch, List.countP_cons]
    omega
  | true =>
    rw [buffer, Bool.not_true] at batch
    simp [outstanding, batch, List.countP_cons]
    omega

theorem excess_result (reply : Reply) (s : Client) : (s.result reply).excess = s.excess := by
  rw [result]
  split
  case h_1 => rfl
  case h_2 c rest batch =>
    have popped := outstanding_pop batch
    cases c with
    | putnodes c =>
      have queue := reqs_procresult c reply
        { s with reqs := Function.update s.reqs (!s.r) rest }
      have same : ∀ t u : Client, t.reqs = u.reqs → t.outstanding = u.outstanding := by
        intro t u eq
        rw [outstanding, outstanding, eq]
      rw [excess, excess, popped, syncadding_procresult, same _ _ queue]
      by_cases own : c.source = .sync
      · simp only [own, Command.ofSync]
        simp
        omega
      · simp [own, Command.ofSync]
    | fetchnodes =>
      rw [excess, excess, popped]
      rfl
    | other =>
      rw [excess, excess, popped]
      rfl

/-- After a purge the counter is short by what is still outstanding. -/
theorem excess_purge (idle : s.fetchingnodes = false) :
    (s.fetchnodes false).excess = -s.outstanding := by
  rw [fetchnodes, if_neg Bool.false_ne_true, idle, if_neg Bool.false_ne_true, excess_add rfl]
  change 0 - (s.outstanding : Int) = _
  exact Int.zero_sub _

/-- The step lemma: from a right counter, a step leads to a right one exactly if it is not a
reload in the middle of a creation. -/
theorem counted_step_iff (counted : Counted s) (e : Event) :
    Counted (step s e) ↔ ReloadQuiet s e := by
  have balanced := counted_iff.mp counted
  have kept : (step s e).excess = s.excess → Counted (step s e) := fun same =>
    counted_iff.mpr (same.trans balanced)
  cases e with
  | create l => exact iff_of_true (kept rfl) trivial
  | syncupdate => exact iff_of_true (kept (excess_syncupdate s)) trivial
  | fileCompleted remote f => exact iff_of_true (kept (excess_fileCompleted ..)) trivial
  | localCompleted remote f l => exact iff_of_true (kept (excess_localCompleted ..)) trivial
  | putnodes target count tag debris =>
    refine iff_of_true (kept (excess_add ?_ s)) trivial
    cases debris <;> rfl
  | other => exact iff_of_true (kept (excess_add rfl s)) trivial
  | flip => exact iff_of_true (kept rfl) trivial
  | result reply => exact iff_of_true (kept (excess_result reply s)) trivial
  | fetchnodes cached =>
    cases cached with
    | true => exact iff_of_true (kept rfl) trivial
    | false =>
      cases fetching : s.fetchingnodes with
      | true =>
        have same : step s (.fetchnodes false) = s := by
          simp [step, fetchnodes, fetching]
        refine iff_of_true (kept (by rw [same])) fun no => ?_
        rw [fetching] at no
        cases no
      | false =>
        rw [counted_iff]
        have short : (step s (.fetchnodes false)).excess = -s.outstanding := excess_purge fetching
        rw [short]
        constructor
        · intro zero _
          omega
        · intro quiet
          have none := quiet fetching
          omega

end Client

/-- The counter is right in every state of a run exactly if no reload purges the client while a
command of a sync is queued or in flight. -/
theorem counted_iff_reloadQuiet (events : List Event) :
    Always step Counted Client.start events ↔ Meets step ReloadQuiet Client.start events :=
  always_iff_meets (fun _ e counted => Client.counted_step_iff counted e)
    ⟨rfl, Int.le_refl 0, iff_of_true rfl rfl⟩ events

/-- A new folder in a synced one, the reload that a lost notification leads to, and the result
of the creation. -/
def reloadDuringCreation : List Event :=
  [.create ⟨folderNode, false, some 7, 1⟩, .syncupdate, .fetchnodes false, .flip,
    .result (.numeric 0)]

/-- The counter ends up at -1 with nothing outstanding, and no sync is processed any more. -/
theorem counter_lost :
    (run step Client.start reloadDuringCreation).syncadding = -1 ∧
      (run step Client.start reloadDuringCreation).outstanding = 0 ∧
        ¬Always step Counted Client.start reloadDuringCreation := by
  have last : (run step Client.start reloadDuringCreation).syncadding = -1 ∧
      (run step Client.start reloadDuringCreation).outstanding = 0 := by
    decide
  refine ⟨last.1, last.2, ?_⟩
  rintro ⟨-, -, -, -, -, counted⟩
  exact absurd counted.nonneg (by decide)

end MegaSdk.Sync.Creation
