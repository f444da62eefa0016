import MegaSdk.Lib.Runs
import MegaSdk.Types
import Mathlib.Data.List.Forall2

/-!
# From file system events to checked paths

posix/fs.cpp: `checkevents` reads the records of inotify; filesystem.cpp: `DirNotify::notify` puts
paths into queues; sync.cpp: `scan` does so for the entries of a folder, and `procscanq` hands them
to `checkpath`. A record about a file that went away may belong to the next one, if both are parts
of a move, and is held back until the next one is there.
-/

namespace MegaSdk.Sync.FileEvents

open Runs

abbrev LocalRef := Nat
abbrev SyncRef := Nat

inductive NotifyQueue where
  | dirEvents | retry
  deriving DecidableEq

/-- What a path is relative to: `NULL` for a whole path, a `LocalNode`, or `~0` after its
deletion. -/
inductive Base where
  | null
  | localNode (l : LocalRef)
  | deleted
  deriving DecidableEq

structure Notification where
  timestamp : DsTime
  path : Bytes
  localnode : Base
  deriving DecidableEq

/-- A record of inotify, with its name up to the terminating zero. -/
structure InotifyEvent where
  wd : Int
  mask : UInt32
  cookie : UInt32
  name : Bytes

def IN_CLOSE_WRITE : UInt32 := 0x8
def IN_MOVED_FROM : UInt32 := 0x40
def IN_MOVED_TO : UInt32 := 0x80
def IN_CREATE : UInt32 := 0x100
def IN_DELETE : UInt32 := 0x200
def IN_UNMOUNT : UInt32 := 0x2000
def IN_Q_OVERFLOW : UInt32 := 0x4000
def IN_EXCL_UNLINK : UInt32 := 0x4000000
def IN_ISDIR : UInt32 := 0x40000000

/-- A call of `checkpath` for a notification, and whether it returned `~0`. -/
structure Check where
  ds : DsTime
  notification : Notification
  deferred : Bool

/-- `checked` has the calls of `checkpath` for the notifications of a queue, and `entered` all that
were ever put into it. Nothing happens after an access through `~0`. -/
structure State where
  wdnodes : Int → Option LocalRef
  sync : LocalRef → SyncRef
  ignore : SyncRef → Bytes
  localdebris : SyncRef → Bytes
  localseparator : Bytes
  notifyerr : Bool
  lastcookie : UInt32
  lastlocalnode : LocalRef
  lastname : Bytes
  notifyq : SyncRef × NotifyQueue → List Notification
  entered : SyncRef × NotifyQueue → List Notification
  checked : SyncRef × NotifyQueue → List Check
  faulted : Bool

/-- What a call of `checkpath` leads to in the queues of its sync. -/
inductive Effect where
  | notify (q : NotifyQueue) (localnode : Base) (path : Bytes) (immediate : Bool)
  | destroy (l : LocalRef)

/-- What `checkpath` returns: `~0`, a file, or anything else. -/
inductive Checked where
  | deferred | file | other
  deriving DecidableEq

/-- The result of `procscanq`: a time, or an access through `~0`. -/
inductive Scanned where
  | wait (ds : DsTime)
  | fault
  deriving DecidableEq

inductive Event where
  | checkevents (ds : DsTime) (reads : List (List InotifyEvent))
  | scan (k : SyncRef) (ds : DsTime) (localpath : Bytes) (syncable : Bytes → Bool)
      (names : List Bytes)
  | procscanq (k : SyncRef) (q : NotifyQueue) (ds : DsTime) (checks : Nat → Checked × List Effect)
  | destroy (l : LocalRef)
  | watch (wdnodes : Int → Option LocalRef)

def inDebris (localseparator debris path : Bytes) : Bool :=
  debris.isPrefixOf path &&
    (path.length == debris.length || localseparator.isPrefixOf (path.drop debris.length))

namespace State

variable (s : State)

def notify (ds : DsTime) (k : SyncRef) (q : NotifyQueue) (localnode : Base) (path : Bytes)
    (immediate : Bool) : State :=
  let n : Notification := ⟨if immediate then 0 else ds, path, localnode⟩
  { s with
    notifyq := Function.update s.notifyq (k, q) (s.notifyq (k, q) ++ [n])
    entered := Function.update s.entered (k, q) (s.entered (k, q) ++ [n]) }

/-- A name in a watched folder, unless it is the one of the debris folder. -/
def report (ds : DsTime) (l : LocalRef) (name : Bytes) : State :=
  if inDebris s.localseparator (s.ignore (s.sync l)) name then s
  else s.notify ds (s.sync l) .dirEvents (.localNode l) name false

/-- The folder of a record that is about a change; files count once they are closed. -/
def watched (e : InotifyEvent) : Option LocalRef :=
  if e.mask &&& (IN_CREATE ||| IN_DELETE ||| IN_MOVED_FROM ||| IN_MOVED_TO ||| IN_CLOSE_WRITE |||
        IN_EXCL_UNLINK) ≠ 0 ∧ e.mask &&& (IN_CREATE ||| IN_ISDIR) ≠ IN_CREATE then
    s.wdnodes e.wd
  else none

/-- The round of the loop in `checkevents` for a record. -/
def record (ds : DsTime) (s : State) (e : InotifyEvent) : State :=
  let s := if e.mask &&& (IN_Q_OVERFLOW ||| IN_UNMOUNT) ≠ 0 then { s with notifyerr := true } else s
  match s.watched e with
  | none => s
  | some l =>
    -- a move out of the watched folders is a deletion
    let s :=
      if s.lastcookie ≠ 0 ∧ s.lastcookie ≠ e.cookie then s.report ds s.lastlocalnode s.lastname
      else s
    if e.mask &&& IN_MOVED_FROM ≠ 0 then
      { s with lastcookie := e.cookie, lastlocalnode := l, lastname := e.name }
    else report { s with lastcookie := 0 } ds l e.name

/-- `checkevents`, with the records of each `read`. -/
def checkevents (ds : DsTime) (reads : List (List InotifyEvent)) : State :=
  let s := reads.foldl (fun s records => records.foldl (record ds) s) s
  if s.lastcookie ≠ 0 then { s.report ds s.lastlocalnode s.lastname with lastcookie := 0 } else s

/-- The round of the loop in `scan` for an entry of the folder. -/
def scanEntry (k : SyncRef) (ds : DsTime) (localpath : Bytes) (syncable : Bytes → Bool) (s : State)
    (name : Bytes) : State :=
  let path := (if localpath = [] then [] else localpath ++ s.localseparator) ++ name
  if syncable name ∧ inDebris s.localseparator (s.localdebris k) path = false then
    s.notify ds k .dirEvents .null path true
  else s

/-- `scan`, if the folder can be read. -/
def scan (k : SyncRef) (ds : DsTime) (localpath : Bytes) (syncable : Bytes → Bool)
    (names : List Bytes) : State :=
  names.foldl (scanEntry k ds localpath syncable) s

/-- `~LocalNode`: its notifications stay in the queues without it. -/
def destroy (l : LocalRef) : State :=
  { s with
    notifyq := fun kq =>
      if kq.1 = s.sync l then
        (s.notifyq kq).map fun n =>
          if n.localnode = .localNode l then { n with localnode := .deleted } else n
      else s.notifyq kq }

def effect (ds : DsTime) (k : SyncRef) (s : State) : Effect → State
  | .notify q localnode path immediate => s.notify ds k q localnode path immediate
  | .destroy l => s.destroy l

def checkpath (ds : DsTime) (k : SyncRef) (check : Checked × List Effect) : State :=
  check.2.foldl (effect ds k) s

/-- A call of `checkpath` is noted. -/
def note (kq : SyncRef × NotifyQueue) (c : Check) : State :=
  { s with checked := Function.update s.checked kq (s.checked kq ++ [c]) }

/-- `pop_front`. -/
def pop (kq : SyncRef × NotifyQueue) : State :=
  { s with notifyq := Function.update s.notifyq kq (s.notifyq kq).tail }

/-- The loop of `procscanq`, for what the calls of `checkpath` do. A notification without its
`LocalNode` is not checked, and then `l->type` is read through `~0`. -/
def procscanqLoop (k : SyncRef) (q : NotifyQueue) (ds : DsTime)
    (checks : Nat → Checked × List Effect) : Nat → State → State × Scanned
  | 0, s => (s, .wait 0xffffffff)
  | t + 1, s =>
    match s.notifyq (k, q) with
    | [] => (s, .wait 0xffffffff)
    | n :: _ =>
      if n.timestamp > ds - 3 then (s, .wait (n.timestamp - (ds - 3)))
      else if n.localnode = .deleted then (s, .fault)
      else
        let checked := s.checkpath ds k (checks t)
        match (checks t).1 with
        | .deferred => (checked.note (k, q) ⟨ds, n, true⟩, .wait 0)
        | .file => ((checked.note (k, q) ⟨ds, n, false⟩).pop (k, q), .wait 0xffffffff)
        | .other => procscanqLoop k q ds checks t ((checked.note (k, q) ⟨ds, n, false⟩).pop (k, q))

def procscanq (k : SyncRef) (q : NotifyQueue) (ds : DsTime)
    (checks : Nat → Checked × List Effect) : State :=
  match procscanqLoop k q ds checks (s.notifyq (k, q)).length s with
  | (s, .wait _) => s
  | (s, .fault) => { s with faulted := true }

def step (s : State) (e : Event) : State :=
  if s.faulted then s
  else
    match e with
    | .checkevents ds reads => s.checkevents ds reads
    | .scan k ds localpath syncable names => s.scan k ds localpath syncable names
    | .procscanq k q ds checks => s.procscanq k q ds checks
    | .destroy l => s.destroy l
    | .watch wdnodes => { s with wdnodes := wdnodes }

end State

def start (sync : LocalRef → SyncRef) (ignore localdebris : SyncRef → Bytes)
    (localseparator : Bytes) : State where
  wdnodes _ := none
  sync := sync
  ignore := ignore
  localdebris := localdebris
  localseparator := localseparator
  notifyerr := false
  lastcookie := 0
  lastlocalnode := 0
  lastname := []
  notifyq _ := []
  entered _ := []
  checked _ := []
  faulted := false

/-- The elements of a list, each with the one behind it. -/
def withNext {α : Type} : List α → List (α × Option α)
  | [] => []
  | a :: rest => (a, rest.head?) :: withNext rest

/-- The records about changes in watched folders. -/
def changes (s : State) (events : List InotifyEvent) : List (LocalRef × InotifyEvent) :=
  events.filterMap fun e => (s.watched e).map fun l => (l, e)

/-- A file that went away came back if the next change has the same cookie. -/
def vanished (change : (LocalRef × InotifyEvent) × Option (LocalRef × InotifyEvent)) : Bool :=
  change.1.2.mask &&& IN_MOVED_FROM = 0 ||
    (change.1.2.cookie ≠ 0 && change.2.all fun next => next.2.cookie ≠ change.1.2.cookie)

def reported (changes : List (LocalRef × InotifyEvent)) : List (LocalRef × Bytes) :=
  ((withNext changes).filter vanished).map fun change => (change.1.1, change.1.2.name)

/-- The notifications of a sync that reports lead to. -/
def notifications (s : State) (ds : DsTime) (k : SyncRef) (reports : List (LocalRef × Bytes)) :
    List Notification :=
  (reports.filter fun r => s.sync r.1 = k && !inDebris s.localseparator (s.ignore k) r.2).map
    fun r => ⟨ds, r.2, .localNode r.1⟩

/-- From one state to another, there are these reports, and nothing else happens to the queues. -/
structure Reports (ds : DsTime) (reports : List (LocalRef × Bytes)) (s s' : State) : Prop where
  notifyq : ∀ k, s'.notifyq (k, .dirEvents) =
    s.notifyq (k, .dirEvents) ++ notifications s ds k reports
  entered : ∀ k, s'.entered (k, .dirEvents) =
    s.entered (k, .dirEvents) ++ notifications s ds k reports
  retry : ∀ k, s'.notifyq (k, .retry) = s.notifyq (k, .retry) ∧
    s'.entered (k, .retry) = s.entered (k, .retry)
  wdnodes : s'.wdnodes = s.wdnodes
  sync : s'.sync = s.sync
  ignore : s'.ignore = s.ignore
  localseparator : s'.localseparator = s.localseparator
  checked : s'.checked = s.checked
  faulted : s'.faulted = s.faulted

variable {s s' s'' : State} {ds : DsTime} {reports more : List (LocalRef × Bytes)}

/-- The registers of `checkevents` are not part of the queues. -/
theorem Reports.registers (s : State) (ds : DsTime) (notifyerr : Bool) (lastcookie : UInt32)
    (lastlocalnode : LocalRef) (lastname : Bytes) :
    Reports ds [] s
      { s with
        notifyerr := notifyerr
        lastcookie := lastcookie
        lastlocalnode := lastlocalnode
        lastname := lastname } where
  notifyq _ := (List.append_nil _).symm
  entered _ := (List.append_nil _).symm
  retry _ := ⟨rfl, rfl⟩
  wdnodes := rfl
  sync := rfl
  ignore := rfl
  localseparator := rfl
  checked := rfl
  faulted := rfl

theorem Reports.trans (first : Reports ds reports s s') (second : Reports ds more s' s'') :
    Reports ds (reports ++ more) s s'' := by
  have same : ∀ k, notifications s' ds k more = notifications s ds k more := by
    intro k
    rw [notifications, notifications, first.sync, first.ignore, first.localseparator]
  have both : ∀ k, notifications s ds k (reports ++ more) =
      notifications s ds k reports ++ notifications s ds k more := by
    intro k
    rw [notifications, List.filter_append, List.map_append]
    rfl
  constructor
  · intro k
    rw [second.notifyq, first.notifyq, same, both, List.append_assoc]
  · intro k
    rw [second.entered, first.entered, same, both, List.append_assoc]
  · intro k
    exact ⟨(second.retry k).1.trans (first.retry k).1, (second.retry k).2.trans (first.retry k).2⟩
  · exact second.wdnodes.trans first.wdnodes
  · exact second.sync.trans first.sync
  · exact second.ignore.trans first.ignore
  · exact second.localseparator.trans first.localseparator
  · exact second.checked.trans first.checked
  · exact second.faulted.trans first.faulted

theorem Reports.report (s : State) (ds : DsTime) (l : LocalRef) (name : Bytes) :
    Reports ds [(l, name)] s (s.report ds l name) := by
  rw [State.report]
  split
  · rename_i ignored
    have none : ∀ k, notifications s ds k [(l, name)] = [] := by
      intro k
      rw [notifications, List.filter_cons_of_neg, List.filter_nil, List.map_nil]
      rw [Bool.and_eq_true, Bool.not_eq_true', decide_eq_true_eq]
      rintro ⟨rfl, outside⟩
      rw [ignored] at outside
      cases outside
    exact
      { notifyq := fun k => by rw [none, List.append_nil]
        entered := fun k => by rw [none, List.append_nil]
        retry := fun k => ⟨rfl, rfl⟩
        wdnodes := rfl
        sync := rfl
        ignore := rfl
        localseparator := rfl
        checked := rfl
        faulted := rfl }
  · rename_i outside
    rw [Bool.not_eq_true] at outside
    have here : notifications s ds (s.sync l) [(l, name)] = [⟨ds, name, .localNode l⟩] := by
      simp [notifications, outside]
    have elsewhere : ∀ k, k ≠ s.sync l → notifications s ds k [(l, name)] = [] := by
      intro k other
      simp [notifications, Ne.symm other]
    have put : ∀ (f : SyncRef × NotifyQueue → List Notification) k,
        Function.update f (s.sync l, .dirEvents)
          (f (s.sync l, .dirEvents) ++ [⟨ds, name, .localNode l⟩]) (k, .dirEvents) =
          f (k, .dirEvents) ++ notifications s ds k [(l, name)] := by
      intro f k
      by_cases same : k = s.sync l
      · rw [same, Function.update_self, here]
      · rw [Function.update_of_ne (by simpa using same), elsewhere k same, List.append_nil]
    exact
      { notifyq := put s.notifyq
        entered := put s.entered
        retry := fun k => ⟨Function.update_of_ne (by simp) _ _, Function.update_of_ne (by simp) _ _⟩
        wdnodes := rfl
        sync := rfl
        ignore := rfl
        localseparator := rfl
        checked := rfl
        faulted := rfl }

theorem reported_cons (a : LocalRef × InotifyEvent) (rest : List (LocalRef × InotifyEvent)) :
    reported (a :: rest) =
      (if vanished (a, rest.head?) then [(a.1, a.2.name)] else []) ++ reported rest := by
  rw [reported, withNext, List.filter_cons]
  split <;> rfl

inductive Holds (s : State) : Option (LocalRef × InotifyEvent) → Prop where
  | none (free : s.lastcookie = 0) : Holds s none
  | some (change : LocalRef × InotifyEvent) (moved : change.2.mask &&& IN_MOVED_FROM ≠ 0)
      (cookie : s.lastcookie = change.2.cookie) (place : s.lastlocalnode = change.1)
      (name : s.lastname = change.2.name) : Holds s (some change)

/-- The end of `checkevents`. -/
def flush (ds : DsTime) (s : State) : State :=
  if s.lastcookie ≠ 0 then { s.report ds s.lastlocalnode s.lastname with lastcookie := 0 } else s

def overflown (e : InotifyEvent) : Bool := e.mask &&& (IN_Q_OVERFLOW ||| IN_UNMOUNT) ≠ 0

@[simp] theorem report_notifyerr (s : State) (ds : DsTime) (l : LocalRef) (name : Bytes) :
    (s.report ds l name).notifyerr = s.notifyerr := by
  rw [State.report]
  split <;> rfl

@[simp] theorem report_lastcookie (s : State) (ds : DsTime) (l : LocalRef) (name : Bytes) :
    (s.report ds l name).lastcookie = s.lastcookie := by
  rw [State.report]
  split <;> rfl

/-- A change that was held back is reported, unless it is the first part of a move. -/
theorem report_held {held : Option (LocalRef × InotifyEvent)} (holds : Holds s held) (ds : DsTime)
    (next : LocalRef × InotifyEvent) : ∃ reports,
      Reports ds reports s
        (if s.lastcookie ≠ 0 ∧ s.lastcookie ≠ next.2.cookie then
          s.report ds s.lastlocalnode s.lastname else s) ∧
      ∀ rest, reported (held.toList ++ next :: rest) = reports ++ reported (next :: rest) := by
  cases holds with
  | none free =>
    refine ⟨[], ?_, fun rest => rfl⟩
    rw [if_neg fun both => both.1 free]
    exact Reports.registers s ds s.notifyerr s.lastcookie s.lastlocalnode s.lastname
  | some change moved cookie place name =>
    have unmoved : ¬(change.2.mask &&& IN_MOVED_FROM = 0) := moved
    rw [cookie, place, name]
    split
    · rename_i gone
      refine ⟨_, Reports.report s ds change.1 change.2.name, fun rest => ?_⟩
      have apart : next.2.cookie ≠ change.2.cookie := Ne.symm gone.2
      rw [Option.toList_some, List.singleton_append, reported_cons]
      simp [vanished, gone.1, apart]
    · rename_i paired
      refine ⟨[], Reports.registers s ds s.notifyerr s.lastcookie s.lastlocalnode s.lastname,
        fun rest => ?_⟩
      rw [Option.toList_some, List.singleton_append, reported_cons, if_neg]
      rw [vanished, List.head?_cons, Option.all_some]
      simp only [unmoved, decide_false, Bool.false_or, Bool.and_eq_true, decide_eq_true_eq]
      exact fun both => paired ⟨both.1, Ne.symm both.2⟩

/-- What a record does to the change that is held back, and to the queues. -/
theorem record_spec {held : Option (LocalRef × InotifyEvent)} (holds : Holds s held) (ds : DsTime)
    (e : InotifyEvent) : ∃ held' reports,
      Holds (s.record ds e) held' ∧ Reports ds reports s (s.record ds e) ∧
      (s.record ds e).notifyerr = (s.notifyerr || overflown e) ∧
      ∀ rest, reported (held.toList ++ changes s [e] ++ rest) =
        reports ++ reported (held'.toList ++ rest) := by
  have marked : (if e.mask &&& (IN_Q_OVERFLOW ||| IN_UNMOUNT) ≠ 0 then { s with notifyerr := true }
      else s) = { s with notifyerr := s.notifyerr || overflown e } := by
    rw [overflown]
    split
    · rename_i lost
      rw [decide_eq_true lost, Bool.or_true]
    · rename_i fine
      rw [decide_eq_false fine, Bool.or_false]
  have start := Reports.registers s ds (s.notifyerr || overflown e) s.lastcookie s.lastlocalnode
    s.lastname
  have holds₁ : Holds { s with notifyerr := s.notifyerr || overflown e } held := by
    cases holds with
    | none free => exact .none free
    | some change moved cookie place name => exact .some change moved cookie place name
  rw [State.record, marked]
  dsimp only
  cases seen : s.watched e with
  | none =>
    have unchanged : changes s [e] = [] := by simp [changes, seen]
    have seen' : State.watched { s with notifyerr := s.notifyerr || overflown e } e = none := seen
    rw [seen', unchanged]
    exact ⟨held, [], holds₁, start, rfl, fun rest => by rw [List.append_nil, List.nil_append]⟩
  | some l =>
    have change : changes s [e] = [(l, e)] := by simp [changes, seen]
    have seen' : State.watched { s with notifyerr := s.notifyerr || overflown e } e = some l := seen
    rw [seen', change]
    obtain ⟨reports, first, same⟩ := report_held holds₁ ds (l, e)
    dsimp only at first ⊢
    generalize here : (if s.lastcookie ≠ 0 ∧ s.lastcookie ≠ e.cookie then
      State.report { s with notifyerr := s.notifyerr || overflown e } ds s.lastlocalnode s.lastname
      else { s with notifyerr := s.notifyerr || overflown e }) = t at first ⊢
    have flag : t.notifyerr = (s.notifyerr || overflown e) := by
      rw [← here]
      split
      · rw [report_notifyerr]
      · rfl
    split
    · rename_i moved
      refine ⟨some (l, e), reports, .some (l, e) moved rfl rfl rfl, ?_, flag, fun rest => ?_⟩
      · have moves := (start.trans first).trans
          (Reports.registers t ds t.notifyerr e.cookie l e.name)
        rwa [List.append_nil] at moves
      · rw [List.append_assoc]
        exact same rest
    · rename_i unmoved
      rw [ne_eq, not_not] at unmoved
      refine ⟨none, reports ++ [(l, e.name)], .none ?_, ?_, ?_, fun rest => ?_⟩
      · rw [report_lastcookie]
      · have freed := Reports.registers t ds t.notifyerr 0 t.lastlocalnode t.lastname
        have moves := ((start.trans first).trans freed).trans
          (Reports.report { t with lastcookie := 0 } ds l e.name)
        rwa [List.append_nil] at moves
      · rw [report_notifyerr]
        exact flag
      · rw [List.append_assoc, List.singleton_append, same, reported_cons, if_pos]
        · rw [List.append_assoc]
          rfl
        · simp [vanished, unmoved]

theorem records_spec {held : Option (LocalRef × InotifyEvent)} (holds : Holds s held)
    (events : List InotifyEvent) :
    Reports ds (reported (held.toList ++ changes s events)) s
        (flush ds (events.foldl (State.record ds) s)) ∧
      (flush ds (events.foldl (State.record ds) s)).lastcookie = 0 ∧
      (flush ds (events.foldl (State.record ds) s)).notifyerr =
        (s.notifyerr || events.any overflown) := by
  induction events generalizing s held with
  | nil =>
    rw [List.foldl_nil, flush, List.any_nil, Bool.or_false]
    have unchanged : changes s [] = [] := rfl
    rw [unchanged, List.append_nil]
    cases holds with
    | none free =>
      rw [if_neg (not_not.mpr free)]
      exact ⟨Reports.registers s ds s.notifyerr s.lastcookie s.lastlocalnode s.lastname, free, rfl⟩
    | some change moved cookie place name =>
      have unmoved : ¬(change.2.mask &&& IN_MOVED_FROM = 0) := moved
      rw [cookie, place, name, Option.toList_some, reported_cons, List.head?_nil]
      by_cases zero : change.2.cookie = 0
      · rw [if_neg (by simp [vanished, zero, unmoved]), if_neg (not_not.mpr zero)]
        exact ⟨Reports.registers s ds s.notifyerr s.lastcookie s.lastlocalnode s.lastname,
          cookie.trans zero, rfl⟩
      · have sent := Reports.report s ds change.1 change.2.name
        have freed := Reports.registers (s.report ds change.1 change.2.name) ds
          (s.report ds change.1 change.2.name).notifyerr 0
          (s.report ds change.1 change.2.name).lastlocalnode
          (s.report ds change.1 change.2.name).lastname
        rw [if_pos (by simp [vanished, zero]), if_pos zero]
        exact ⟨sent.trans freed, rfl, report_notifyerr s ds _ _⟩
  | cons e events ih =>
    obtain ⟨held', reports, holds', first, err, same⟩ := record_spec holds ds e
    obtain ⟨rest, free, errs⟩ := ih holds'
    have later : changes (s.record ds e) events = changes s events := by
      rw [changes, changes]
      refine List.filterMap_congr fun x _ => ?_
      rw [State.watched, State.watched, first.wdnodes]
    have now : changes s (e :: events) = changes s [e] ++ changes s events :=
      @List.filterMap_append _ _ [e] events _
    rw [List.foldl_cons]
    refine ⟨?_, free, ?_⟩
    · rw [now, ← List.append_assoc, same]
      rw [later] at rest
      exact first.trans rest
    · rw [errs, err, List.any_cons, Bool.or_assoc]

theorem checkevents_eq (s : State) (ds : DsTime) (reads : List (List InotifyEvent)) :
    s.checkevents ds reads = flush ds (reads.flatten.foldl (State.record ds) s) := by
  rw [State.checkevents, List.foldl_flatten]
  rfl

/-- However the kernel cuts its records into reads, `checkevents` reports each change in a watched
folder once and in order, but for names of debris folders and for files that reappear with the next
change. Nothing is held back afterwards. -/
theorem checkevents_reports (s : State) (idle : s.lastcookie = 0) (ds : DsTime)
    (reads : List (List InotifyEvent)) :
    Reports ds (reported (changes s reads.flatten)) s (s.checkevents ds reads) ∧
      (s.checkevents ds reads).lastcookie = 0 ∧
      (s.checkevents ds reads).notifyerr = (s.notifyerr || reads.flatten.any overflown) := by
  rw [checkevents_eq]
  exact records_spec (.none idle) reads.flatten

/-- Two watched folders of one sync with the debris folder `d`. -/
def sampleState : State :=
  { start (fun _ => 0) (fun _ => ascii "d") (fun _ => ascii "/r/d") (ascii "/") with
    wdnodes := fun wd => if wd = 1 then some 10 else if wd = 2 then some 20 else none }

/-- A move between the folders, a move out of them and one into the debris, in three reads. -/
def sampleReads : List (List InotifyEvent) :=
  [[⟨1, IN_MOVED_FROM, 7, ascii "a"⟩],
    [⟨2, IN_MOVED_TO, 7, ascii "b"⟩, ⟨1, IN_MOVED_FROM, 8, ascii "c"⟩],
    [⟨1, IN_CREATE, 0, ascii "e"⟩, ⟨3, IN_DELETE, 0, ascii "f"⟩, ⟨2, IN_MOVED_TO, 9, ascii "d"⟩]]

theorem checkevents_reports_sample :
    (Reports 50 (reported (changes sampleState sampleReads.flatten)) sampleState
        (sampleState.checkevents 50 sampleReads) ∧
      (sampleState.checkevents 50 sampleReads).lastcookie = 0 ∧
      (sampleState.checkevents 50 sampleReads).notifyerr =
        (sampleState.notifyerr || sampleReads.flatten.any overflown)) ∧
      (sampleState.checkevents 50 sampleReads).notifyq (0, .dirEvents) =
        [⟨50, ascii "b", .localNode 20⟩, ⟨50, ascii "c", .localNode 10⟩] :=
  ⟨checkevents_reports sampleState rfl 50 sampleReads, by decide⟩

/-- A notification in a queue is as it was entered, or has lost its `LocalNode`. -/
def Remains (n queued : Notification) : Prop :=
  queued = n ∨ queued = { n with localnode := .deleted }

/-- The notifications with which `checkpath` is done. -/
def finished (checks : List Check) : List Notification :=
  (checks.filter fun c => !c.deferred).map Check.notification

/-- Of what was put into a queue, `checkpath` is done with a first part, and the rest waits. -/
def Queued (s : State) (kq : SyncRef × NotifyQueue) : Prop :=
  ∃ waiting, s.entered kq = finished (s.checked kq) ++ waiting ∧
    List.Forall₂ Remains waiting (s.notifyq kq)

/-- Each call is for the first notification with which the calls before it are not done. -/
def InTurn (entered : List Notification) (checks : List Check) : Prop :=
  ∀ before c after, checks = before ++ c :: after →
    entered[(finished before).length]? = some c.notification

structure Inv (s : State) : Prop where
  idle : s.lastcookie = 0
  queued : ∀ kq, Queued s kq
  inTurn : ∀ kq, InTurn (s.entered kq) (s.checked kq)
  timely : ∀ kq, ∀ c ∈ s.checked kq, c.notification.timestamp ≤ c.ds - 3

/-- Each notification is checked in its turn, until `checkpath` is done with it, and 300 ms after its
time, once the clock has made three ticks; the engine crashes only at a notification whose
`LocalNode` was deleted. -/
structure Accounted (s : State) : Prop extends Inv s where
  late : ∀ kq, ∀ c ∈ s.checked kq, 3 ≤ c.ds → c.notification.timestamp.toNat + 3 ≤ c.ds.toNat
  crash : s.faulted → ∃ kq n rest, s.notifyq kq = n :: rest ∧ n.localnode = .deleted

/-- Three ticks later, unless the clock has only begun. -/
theorem Inv.late (inv : Inv s) {kq : SyncRef × NotifyQueue} {c : Check} (mem : c ∈ s.checked kq)
    (running : 3 ≤ c.ds) : c.notification.timestamp.toNat + 3 ≤ c.ds.toNat := by
  have old := UInt32.le_iff_toNat_le.mp (inv.timely kq c mem)
  have three : (3 : UInt32).toNat ≤ c.ds.toNat := UInt32.le_iff_toNat_le.mp running
  rw [UInt32.toNat_sub_of_le _ _ running] at old
  exact (Nat.le_sub_iff_add_le three).mp old

theorem InTurn.append {entered : List Notification} {checks : List Check}
    (inTurn : InTurn entered checks) (more : List Notification) :
    InTurn (entered ++ more) checks := by
  intro before c after split
  have here := inTurn before c after split
  rw [List.getElem?_append_left (List.getElem?_eq_some_iff.mp here).1]
  exact here

theorem InTurn.note {entered : List Notification} {checks : List Check} {c : Check}
    (inTurn : InTurn entered checks)
    (turn : entered[(finished checks).length]? = some c.notification) :
    InTurn entered (checks ++ [c]) := by
  intro before d after split
  rcases List.append_eq_append_iff.mp split with ⟨middle, rfl, last⟩ | ⟨middle, rfl, rest⟩
  · cases middle with
    | nil =>
      obtain rfl := (List.cons.inj last).1
      rwa [List.append_nil]
    | cons x middle => simp at last
  · cases middle with
    | nil =>
      obtain rfl := (List.cons.inj rest).1
      rwa [List.append_nil] at turn
    | cons x middle =>
      obtain ⟨rfl, -⟩ := List.cons.inj rest
      exact inTurn before d middle rfl

theorem Queued.append {kq : SyncRef × NotifyQueue} (queued : Queued s kq)
    {more : List Notification} (entered : s'.entered kq = s.entered kq ++ more)
    (notifyq : s'.notifyq kq = s.notifyq kq ++ more) (checked : s'.checked kq = s.checked kq) :
    Queued s' kq := by
  obtain ⟨waiting, split, remains⟩ := queued
  refine ⟨waiting ++ more, ?_, ?_⟩
  · rw [entered, split, checked, List.append_assoc]
  · rw [notifyq]
    exact List.rel_append remains (List.forall₂_same.mpr fun n _ => .inl rfl)

theorem Queued.unchanged {kq : SyncRef × NotifyQueue} (queued : Queued s kq)
    (entered : s'.entered kq = s.entered kq) (notifyq : s'.notifyq kq = s.notifyq kq)
    (checked : s'.checked kq = s.checked kq) : Queued s' kq := by
  rw [Queued, entered, notifyq, checked]
  exact queued

theorem notify_entered (s : State) (ds : DsTime) (k : SyncRef) (q : NotifyQueue) (localnode : Base)
    (path : Bytes) (immediate : Bool) (kq : SyncRef × NotifyQueue) :
    ∃ more, (s.notify ds k q localnode path immediate).entered kq = s.entered kq ++ more := by
  rw [State.notify]
  dsimp only
  by_cases here : kq = (k, q)
  · rw [here, Function.update_self]
    exact ⟨_, rfl⟩
  · rw [Function.update_of_ne here]
    exact ⟨[], (List.append_nil _).symm⟩

namespace Inv

theorem notify (inv : Inv s) (ds : DsTime) (k : SyncRef) (q : NotifyQueue) (localnode : Base)
    (path : Bytes) (immediate : Bool) : Inv (s.notify ds k q localnode path immediate) where
  idle := inv.idle
  queued kq := by
    by_cases here : kq = (k, q)
    · subst here
      exact (inv.queued (k, q)).append (Function.update_self ..) (Function.update_self ..) rfl
    · exact (inv.queued kq).unchanged (Function.update_of_ne here ..)
        (Function.update_of_ne here ..) rfl
  inTurn kq := by
    obtain ⟨more, entered⟩ := notify_entered s ds k q localnode path immediate kq
    rw [entered]
    exact (inv.inTurn kq).append more
  timely := inv.timely

theorem destroy (inv : Inv s) (l : LocalRef) : Inv (s.destroy l) where
  idle := inv.idle
  queued kq := by
    obtain ⟨waiting, split, remains⟩ := inv.queued kq
    refine ⟨waiting, split, ?_⟩
    rw [State.destroy]
    dsimp only
    split
    · refine List.forall₂_map_right_iff.mpr (remains.imp fun n queued same => ?_)
      split
      · rcases same with rfl | rfl
        · exact .inr rfl
        · exact .inr rfl
      · exact same
    · exact remains
  inTurn := inv.inTurn
  timely := inv.timely

theorem scan (inv : Inv s) (k : SyncRef) (ds : DsTime) (localpath : Bytes) (syncable : Bytes → Bool)
    (names : List Bytes) : Inv (s.scan k ds localpath syncable names) := by
  rw [State.scan]
  induction names generalizing s with
  | nil => exact inv
  | cons name names ih =>
    rw [List.foldl_cons]
    refine ih ?_
    rw [State.scanEntry]
    generalize (if localpath = [] then [] else localpath ++ s.localseparator) ++ name = path
    split
    · exact inv.notify ds k .dirEvents .null path true
    · exact inv

theorem of_reports (inv : Inv s) (sent : Reports ds reports s s') (idle : s'.lastcookie = 0) :
    Inv s' where
  idle := idle
  queued kq := by
    obtain ⟨k, q⟩ := kq
    have checked : s'.checked (k, q) = s.checked (k, q) := by rw [sent.checked]
    cases q with
    | dirEvents => exact (inv.queued _).append (sent.entered k) (sent.notifyq k) checked
    | retry =>
      exact (inv.queued _).unchanged (sent.retry k).2 (sent.retry k).1 checked
  inTurn kq := by
    obtain ⟨k, q⟩ := kq
    rw [sent.checked]
    cases q with
    | dirEvents =>
      rw [sent.entered]
      exact (inv.inTurn _).append _
    | retry =>
      rw [(sent.retry k).2]
      exact inv.inTurn _
  timely kq := by
    rw [sent.checked]
    exact inv.timely kq

end Inv

/-- `checkpath` adds to the queues and does not take anything from them. -/
theorem checkpath_spec (inv : Inv s) (ds : DsTime) (k : SyncRef) (check : Checked × List Effect) :
    Inv (s.checkpath ds k check) ∧ (s.checkpath ds k check).faulted = s.faulted ∧
      (s.checkpath ds k check).checked = s.checked ∧
      ∀ kq, ∃ more, (s.checkpath ds k check).entered kq = s.entered kq ++ more := by
  rw [State.checkpath]
  induction check.2 generalizing s with
  | nil => exact ⟨inv, rfl, rfl, fun kq => ⟨[], (List.append_nil _).symm⟩⟩
  | cons effect effects ih =>
    rw [List.foldl_cons]
    cases effect with
    | notify q localnode path immediate =>
      obtain ⟨inv', sound, checked, entered⟩ := ih (inv.notify ds k q localnode path immediate)
      refine ⟨inv', sound, checked, fun kq => ?_⟩
      obtain ⟨first, now⟩ := notify_entered s ds k q localnode path immediate kq
      obtain ⟨more, later⟩ := entered kq
      rw [now, List.append_assoc] at later
      exact ⟨first ++ more, later⟩
    | destroy l => exact ih (inv.destroy l)

/-- The first notification of a queue is the one whose turn it is. -/
theorem Queued.turn {kq : SyncRef × NotifyQueue} {n : Notification} {rest : List Notification}
    (queued : Queued s kq) (front : s.notifyq kq = n :: rest) (present : n.localnode ≠ .deleted) :
    (s.entered kq)[(finished (s.checked kq)).length]? = some n := by
  obtain ⟨waiting, split, remains⟩ := queued
  rw [front] at remains
  cases remains with
  | @cons w _ ws _ same others =>
    have first : w = n := by
      rcases same with rfl | lost
      · rfl
      · exact absurd (congrArg Notification.localnode lost) present
    rw [split, List.getElem?_append_right le_rfl, Nat.sub_self, first]
    rfl

section Note
variable {kq : SyncRef × NotifyQueue} {c : Check} (inv : Inv s)
  (turn : (s.entered kq)[(finished (s.checked kq)).length]? = some c.notification)
  (old : c.notification.timestamp ≤ c.ds - 3)
include inv turn old

theorem Inv.inTurn_note (kq' : SyncRef × NotifyQueue) :
    InTurn (s.entered kq') ((s.note kq c).checked kq') ∧
      ∀ d ∈ (s.note kq c).checked kq', d.notification.timestamp ≤ d.ds - 3 := by
  rw [State.note]
  dsimp only
  by_cases here : kq' = kq
  · subst here
    rw [Function.update_self]
    refine ⟨(inv.inTurn kq').note turn, fun d mem => ?_⟩
    rcases List.mem_append.mp mem with before | now
    · exact inv.timely _ d before
    · rwa [List.mem_singleton.mp now]
  · rw [Function.update_of_ne here]
    exact ⟨inv.inTurn kq', inv.timely kq'⟩

/-- A notification that is deferred stays in its queue. -/
theorem Inv.defer (deferred : c.deferred = true) : Inv (s.note kq c) where
  idle := inv.idle
  queued kq' := by
    by_cases here : kq' = kq
    · subst here
      have same : finished (s.checked kq' ++ [c]) = finished (s.checked kq') := by
        simp [finished, deferred]
      obtain ⟨waiting, split, remains⟩ := inv.queued kq'
      refine ⟨waiting, ?_, remains⟩
      rw [State.note]
      dsimp only
      rw [Function.update_self, same]
      exact split
    · exact (inv.queued kq').unchanged rfl rfl (Function.update_of_ne here ..)
  inTurn kq' := (inv.inTurn_note turn old kq').1
  timely kq' := (inv.inTurn_note turn old kq').2

/-- The notification that `checkpath` is done with is the first one that waited. -/
theorem Inv.finish (done : c.deferred = false) : Inv ((s.note kq c).pop kq) where
  idle := inv.idle
  queued kq' := by
    by_cases here : kq' = kq
    · subst here
      have more : finished (s.checked kq' ++ [c]) = finished (s.checked kq') ++ [c.notification] := by
        simp [finished, done]
      obtain ⟨waiting, split, remains⟩ := inv.queued kq'
      rw [split, List.getElem?_append_right le_rfl, Nat.sub_self] at turn
      rw [State.pop, State.note, Queued]
      dsimp only
      rw [Function.update_self, Function.update_self, more, split]
      generalize s.notifyq kq' = queue at remains
      cases remains with
      | nil => cases turn
      | @cons w _ ws _ _ others =>
        obtain rfl : w = c.notification := Option.some.inj turn
        exact ⟨ws, by simp, others⟩
    · exact (inv.queued kq').unchanged rfl (Function.update_of_ne here ..)
        (Function.update_of_ne here ..)
  inTurn kq' := (inv.inTurn_note turn old kq').1
  timely kq' := (inv.inTurn_note turn old kq').2

end Note

theorem procscanqLoop_spec (inv : Inv s) (k : SyncRef) (q : NotifyQueue) (ds : DsTime)
    (checks : Nat → Checked × List Effect) (t : Nat) :
    Inv (State.procscanqLoop k q ds checks t s).1 ∧
      (State.procscanqLoop k q ds checks t s).1.faulted = s.faulted ∧
      ((State.procscanqLoop k q ds checks t s).2 = .fault →
        ∃ n rest, (State.procscanqLoop k q ds checks t s).1.notifyq (k, q) = n :: rest ∧
          n.localnode = .deleted) := by
  induction t generalizing s with
  | zero => exact ⟨inv, rfl, fun fault => by cases fault⟩
  | succ t ih =>
    rw [State.procscanqLoop]
    split
    · exact ⟨inv, rfl, fun fault => by cases fault⟩
    rename_i n rest front
    split
    · exact ⟨inv, rfl, fun fault => by cases fault⟩
    rename_i old
    rw [gt_iff_lt, UInt32.not_lt] at old
    split
    · rename_i deleted
      exact ⟨inv, rfl, fun _ => ⟨n, rest, front, deleted⟩⟩
    rename_i present
    obtain ⟨inv', sound, checked, entered⟩ := checkpath_spec inv ds k (checks t)
    have turn : ((s.checkpath ds k (checks t)).entered (k, q))[(finished
        ((s.checkpath ds k (checks t)).checked (k, q))).length]? = some n := by
      have here := (inv.queued (k, q)).turn front present
      obtain ⟨more, later⟩ := entered (k, q)
      rw [later, checked, List.getElem?_append_left (List.getElem?_eq_some_iff.mp here).1]
      exact here
    dsimp only
    split
    · exact ⟨inv'.defer (c := ⟨ds, n, true⟩) turn old rfl, sound, fun fault => by cases fault⟩
    · exact ⟨inv'.finish (c := ⟨ds, n, false⟩) turn old rfl, sound, fun fault => by cases fault⟩
    · obtain ⟨inv'', sound', crash⟩ := ih (inv'.finish (c := ⟨ds, n, false⟩) turn old rfl)
      exact ⟨inv'', sound'.trans sound, crash⟩

theorem scan_faulted (s : State) (k : SyncRef) (ds : DsTime) (localpath : Bytes)
    (syncable : Bytes → Bool) (names : List Bytes) :
    (s.scan k ds localpath syncable names).faulted = s.faulted := by
  rw [State.scan]
  induction names generalizing s with
  | nil => rfl
  | cons name names ih =>
    rw [List.foldl_cons, ih, State.scanEntry]
    generalize (if localpath = [] then [] else localpath ++ s.localseparator) ++ name = path
    split <;> rfl

namespace Accounted

theorem of_inv (inv : Inv s) (sound : s.faulted → False) : Accounted s where
  toInv := inv
  late _ _ mem := inv.late mem
  crash faulted := (sound faulted).elim

theorem step (accounted : Accounted s) (e : Event) : Accounted (s.step e) := by
  unfold State.step
  split
  · exact accounted
  rename_i sound
  cases e with
  | checkevents ds reads =>
    obtain ⟨sent, idle, -⟩ := checkevents_reports s accounted.idle ds reads
    refine of_inv (accounted.toInv.of_reports sent idle) fun faulted => ?_
    rw [sent.faulted] at faulted
    exact sound faulted
  | scan k ds localpath syncable names =>
    refine of_inv (accounted.toInv.scan k ds localpath syncable names) fun faulted => ?_
    rw [scan_faulted] at faulted
    exact sound faulted
  | procscanq k q ds checks =>
    obtain ⟨inv, same, crash⟩ :=
      procscanqLoop_spec accounted.toInv k q ds checks (s.notifyq (k, q)).length
    dsimp only
    unfold State.procscanq
    split
    · rename_i result
      rw [result] at inv same
      refine of_inv inv fun faulted => ?_
      rw [same] at faulted
      exact sound faulted
    · rename_i result
      rw [result] at inv crash
      obtain ⟨n, rest, front, deleted⟩ := crash rfl
      exact
        { idle := inv.idle
          queued := inv.queued
          inTurn := inv.inTurn
          timely := inv.timely
          late := fun kq c mem => inv.late mem
          crash := fun _ => ⟨(k, q), n, rest, front, deleted⟩ }
  | destroy l => exact of_inv (accounted.toInv.destroy l) sound
  | watch wdnodes =>
    exact of_inv ⟨accounted.idle, accounted.queued, accounted.inTurn, accounted.timely⟩ sound

end Accounted

/-- In every run of events, scans, checks and deletions, `checkpath` is called for the paths of a
queue in their turn, for each of them until it is done with it; nothing but the deletion of a
`LocalNode` with a waiting notification makes the engine crash. -/
theorem paths_checked_inTurn (sync : LocalRef → SyncRef) (ignore localdebris : SyncRef → Bytes)
    (localseparator : Bytes) (events : List Event) :
    Always State.step Accounted (start sync ignore localdebris localseparator) events := by
  refine always_of_step (fun s e accounted => accounted.step e)
    (.of_inv ⟨rfl, ?_, ?_, ?_⟩ ?_) events
  · exact fun kq => ⟨[], rfl, .nil⟩
  · intro kq before c after split
    exact absurd split (by simp [start])
  · exact fun kq c mem => absurd mem List.not_mem_nil
  · exact fun faulted => by cases faulted

end MegaSdk.Sync.FileEvents
