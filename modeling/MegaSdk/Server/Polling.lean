import MegaSdk.Api.BackoffTimer
import MegaSdk.Lib.ByteOrder
import MegaSdk.Lib.LogPrefixes
import MegaSdk.Lib.Runs
import MegaSdk.Server.Isolation

/-!
# Following the server's action packets

The server-client part of `MegaClient::exec` with `procsc`, `fetchnodes`, `initsc`, `updatesc` and
the sequence number `scsn`: the client asks for the packets behind `scsn`, waits on a second
connection while there are none, reloads when there are too many, and continues from a state cache
after a later login. Packets are lost with replies, memory is lost with the process, and the nodes
in memory still have every packet up to `scsn` once and in order.
-/

namespace MegaSdk.Server

open Api Json LogPrefixes Runs

namespace Polling

abbrev Scsn := Bytes

/-- The body of a reply: an object, or an error code. -/
inductive Reply where
  | members (ms : List ScMember)
  | code (e : Int)

/-- `pendingsc`: whether it waits on `scnotifyurl`, the sequence number in the URL otherwise, and
what has arrived. -/
structure Pending where
  notify : Bool
  sn : Scsn
  status : ReqStatus
  reply : Reply

def Pending.ended (q : Pending) (reply : Option Reply) : Pending :=
  { q with
    status := if reply.isSome then .success else .failure
    reply := reply.getD q.reply }

/-- What `procsc` works on; `scsn` is none for the empty string. -/
structure Memory (ν : Type) where
  scsn : Option Scsn
  scnotifyurl : Bytes
  nodes : ν

/-- `log` is all that ever happened on the server, `loaded` says whether there are nodes, and
`cachedscsn` is none for `UNDEF`. The table in the file holds a sequence number and nodes, or nothing
usable; without `dbaccess` there is none. -/
structure State (ν : Type) where
  log : List Packet
  dbaccess : Bool
  memory : Memory ν
  loaded : Bool
  pendingsc : Option Pending
  btsc : BackoffTimer
  syncsup : Bool
  fetchingnodes : Bool
  sctable : Bool
  cachedscsn : Option Scsn
  file : Option (Scsn × ν)

/-- `written` says whether the table could be written, and `stored` what its records add up to
then. -/
inductive Event (ν : Type) where
  | happen (p : Packet)
  | arrive (reply : Option Reply)
  | exec (ds : DsTime) (postOk : Bool)
  | syncsup
  | notifypurge (notified written : Bool) (garbage : Scsn) (stored : ν)
  | fetchnodes
  | fetched (result : Option Nat) (written : Bool) (stored : ν)
  | login (continued : Bool)

section Model
variable {ν : Type} [Inhabited ν]

def start (dbaccess : Bool) (log : List Packet) : State ν where
  log := log
  dbaccess := dbaccess
  memory := ⟨none, [], default⟩
  loaded := false
  pendingsc := none
  btsc := .reset
  syncsup := true
  fetchingnodes := false
  sctable := false
  cachedscsn := none
  file := none

/-- The client that `procsc` runs on, and the nodes that the server has after some packets. -/
structure World (ν : Type) where
  client : Client (Memory ν)
  name : Nat → Scsn
  snapshot : List Packet → ν

namespace State

variable (s : State ν)

/-- `purgenodesusersabortsc`. -/
def purge : State ν :=
  { s with
    memory := ⟨none, [], default⟩
    loaded := false
    pendingsc := none
    btsc := .reset
    syncsup := true
    fetchingnodes := false }

/-- `opensctable`, and `truncate` where there is no sequence number to continue from. -/
def opensctable : State ν :=
  { s with
    sctable := s.sctable || s.dbaccess
    file := if (s.sctable || s.dbaccess) && s.cachedscsn.isNone then none else s.file }

/-- `fetchnodes`: from the cache if there are no nodes yet, otherwise from the server. -/
def fetchnodes : State ν :=
  let s := s.opensctable
  match s.loaded, s.sctable, s.cachedscsn with
  | false, true, some sn =>
    { s with
      memory := { s.memory with scsn := some sn, nodes := (s.file.map Prod.snd).getD default }
      loaded := s.file.isSome
      syncsup := false }
  | _, _, _ => if s.fetchingnodes then s else { s.purge with fetchingnodes := true }

/-- `finalizesc` after the sequence number and the records were written. -/
def finalizesc (sn : Scsn) (written : Bool) (stored : ν) : State ν :=
  if written then
    { s with file := some (sn, stored), cachedscsn := s.memory.scsn.or s.cachedscsn }
  else { s with file := none, sctable := false }

def initsc (written : Bool) (stored : ν) : State ν :=
  match s.sctable, s.memory.scsn with
  | true, some sn => s.finalizesc sn written stored
  | _, _ => s

/-- `updatesc`, which needs a table that was written before. Without a sequence number, `garbage`
is written in its place. -/
def updatesc (written : Bool) (garbage : Scsn) (stored : ν) : State ν :=
  if s.sctable ∧ s.file.isSome then s.finalizesc (s.memory.scsn.getD garbage) written stored else s

/-- `notifypurge`, for the cache: nodes or users changed, or the sequence number did. -/
def notifypurge (notified written : Bool) (garbage : Scsn) (stored : ν) : State ν :=
  if notified ∨ s.cachedscsn ≠ s.memory.scsn.or s.cachedscsn then
    s.updatesc written garbage stored
  else s

/-- Failure: repeat with capped exponential backoff. -/
def retry (ds : DsTime) : State ν := { s with pendingsc := none, btsc := s.btsc.backoff ds }

def failed (e : Int) : State ν :=
  if e = -15 then { s with memory := { s.memory with scsn := none } }
  else if e = -6 then s.fetchnodes
  else s

/-- The treatment of `pendingsc`. -/
def handle (client : Client (Memory ν)) (ds : DsTime) : State ν :=
  match s.pendingsc with
  | none => s
  | some q =>
    if s.memory.scnotifyurl ≠ [] then
      if q.status = .success ∨ q.status = .failure then
        { s with pendingsc := none, memory := { s.memory with scnotifyurl := [] } }
      else s
    else if s.syncsup = false ∧ q.status = .success then s
    else
      match q.status, q.reply with
      | .success, .members ms =>
        match procsc client s.memory (object (ms.map ScMember.member)) with
        | .error _ => s
        | .ok (memory, _) => { s with memory := memory, pendingsc := none, btsc := .reset }
      | .success, .code e => (s.failed e).retry ds
      | .failure, _ => s.retry ds
      | _, _ => s

def request (sn : Scsn) (postOk : Bool) : Pending where
  notify := s.memory.scnotifyurl ≠ []
  sn := sn
  status := if postOk then .inflight else .failure
  reply := .code 0

def post (ds : DsTime) (postOk : Bool) : State ν :=
  match s.pendingsc, s.memory.scsn with
  | none, some sn =>
    if s.btsc.armed ds then
      { s with pendingsc := some (s.request sn postOk) }
    else s
  | _, _ => s

/-- The connection in flight ends, with a reply or without one. -/
def arrive (reply : Option Reply) : State ν :=
  match s.pendingsc with
  | none => s
  | some q =>
    if q.status = .inflight then { s with pendingsc := some (q.ended reply) } else s

/-- The result of a `CommandFetchNodes`: the nodes as they are on the server at a position. -/
def fetched (world : World ν) (result : Option Nat) (written : Bool) (stored : ν) : State ν :=
  if s.fetchingnodes then
    match result with
    | none => { s with fetchingnodes := false }
    | some k =>
      State.initsc { s with
        fetchingnodes := false
        memory := { s.memory with
          scsn := some (world.name k)
          nodes := world.snapshot (s.log.take k) }
        loaded := true
        syncsup := false } written stored
  else s

/-- A process that starts, or `logout`, and a login with a session; the server may not continue
from the cached sequence number. -/
def login (continued : Bool) : State ν :=
  { s.purge with
    sctable := s.dbaccess
    cachedscsn := if s.dbaccess && continued then s.file.map Prod.fst else none }

def step (world : World ν) (s : State ν) : Event ν → State ν
  | .happen p => { s with log := s.log ++ [p] }
  | .arrive reply => s.arrive reply
  | .exec ds postOk => (s.handle world.client ds).post ds postOk
  | .syncsup => { s with syncsup := true }
  | .notifypurge notified written garbage stored => s.notifypurge notified written garbage stored
  | .fetchnodes => s.fetchnodes
  | .fetched result written stored => s.fetched world result written stored
  | .login continued => s.login continued

end State

end Model

def packetsOf : ScMember → List Packet
  | .packets ps => ps
  | .other _ => []

def scsnAfter (sn : Scsn) : ScMember → Scsn
  | .packets _ => sn
  | .other m =>
    if nameid m.1 = nameid (ascii "w") then sn
    else if nameid m.1 = nameid (ascii "sn") ∧ (Base64.atob (skip quote m.2) 8).length = 8 then
      Base64.atob (skip quote m.2) 8
    else sn

/-- The reply has the packets behind a sequence number, and the sequence number behind them. -/
def Answers (name : Nat → Scsn) (log : List Packet) (sn : Scsn) (ms : List ScMember) : Prop :=
  Segment name log sn (ms.foldl scsnAfter sn) (ms.flatMap packetsOf)

section Proper
variable {ν : Type} (world : World ν) (act : ν → Packet → ν) (settle : ν → ν)

/-- A packet acts on the nodes, and on nothing else that `procsc` knows of. -/
def Acts (p : Packet) : Prop :=
  ∀ t t', effect world.client t p = .ok t' → t' = { t with nodes := act t.nodes p }

/-- What the client does to its sequence number and its URL, and what it does to the nodes after a
response. -/
structure Faithful : Prop where
  setscsn : ∀ sn t, world.client.perform (.setscsn sn) t = { t with scsn := some sn }
  scnotifyurl : ∀ url t, world.client.perform (.scnotifyurl url) t = { t with scnotifyurl := url }
  settled : ∀ t, world.client.perform .applykeys (world.client.perform (.mergenewshares true) t) =
    { t with nodes := settle t.nodes }

/-- The nodes after a response with some packets. -/
def receive (nodes : ν) (packets : List Packet) : ν := settle (packets.foldl act nodes)

/-- The nodes are those that the server had at some time, with the packets from there up to a
sequence number, each once and in order, a response at a time. -/
def Shows (log : List Packet) (sn : Scsn) (nodes : ν) : Prop :=
  ∃ k ≤ log.length, ∃ responses : List (List Packet),
    Segment world.name log (world.name k) sn responses.flatten ∧
      nodes = responses.foldl (receive act settle) (world.snapshot (log.take k))

/-- The server has a new sequence number for every change, which is one of the nodes. It answers a
request for packets with those that follow, in a form that `procsc` reads, and a request for the nodes
with the nodes at some time. Nodes are fetched if they are not being fetched, and from a table that
has the nodes for its sequence number. -/
def Proper (s : State ν) : Event ν → Prop
  | .happen p => (∀ k ≤ s.log.length, world.name k ≠ world.name (s.log.length + 1)) ∧
      Acts world act p
  | .arrive (some (.members ms)) => ∀ q ∈ s.pendingsc, q.status = .inflight → q.notify = false →
      Answers world.name s.log q.sn ms
  | .exec _ _ => ∀ q ∈ s.pendingsc, q.notify = false → q.status = .success → ∀ ms,
      q.reply = .members ms → RegularResponse world.client s.memory ms
  | .fetched (some k) _ _ => k ≤ s.log.length
  | .fetchnodes => s.fetchingnodes = false ∧ (s.loaded = false → ∀ sn, s.cachedscsn = some sn →
      ∃ nodes, s.file = some (sn, nodes) ∧ Shows world act settle s.log sn nodes)
  | _ => True

/-- The nodes in memory have exactly the packets up to the sequence number. -/
def UpToDate (s : State ν) : Prop :=
  ∀ sn, s.memory.scsn = some sn → Shows world act settle s.log sn s.memory.nodes

structure Inv (s : State ν) : Prop where
  memory : UpToDate world act settle s
  named : Named world.name s.log
  acts : ∀ p ∈ s.log, Acts world act p
  pending : ∀ q, s.pendingsc = some q → s.loaded = true ∧ s.memory.scsn = some q.sn ∧
    q.notify = decide (s.memory.scnotifyurl ≠ [])
  replied : ∀ q, s.pendingsc = some q → q.notify = false → q.status = .success →
    ∀ ms, q.reply = .members ms → Answers world.name s.log q.sn ms
  unloaded : s.loaded = false → s.memory.scsn = none
  fetching : s.fetchingnodes = true → s.loaded = false

end Proper

section Steps
variable {ν : Type} {world : World ν} {act : ν → Packet → ν} {settle : ν → ν}
variable {s : State ν}

theorem foldlM_effect {ps : List Packet} (acts : ∀ p ∈ ps, Acts world act p) {t t' : Memory ν}
    (folds : ps.foldlM (effect world.client) t = .ok t') :
    t' = { t with nodes := ps.foldl act t.nodes } := by
  induction ps generalizing t with
  | nil =>
    cases folds
    rfl
  | cons p ps ih =>
    rw [List.foldlM_cons] at folds
    cases first : effect world.client t p with
    | error fault =>
      rw [first] at folds
      cases folds
    | ok t₁ =>
      rw [first] at folds
      obtain rfl := acts p List.mem_cons_self t t₁ first
      exact ih (fun q mem => acts q (List.mem_cons_of_mem p mem)) folds

/-- A member has its packets act on the nodes, or sets the sequence number or the URL. -/
theorem Faithful.member (faithful : Faithful world settle) {m : ScMember}
    (acts : ∀ p ∈ packetsOf m, Acts world act p) {t t' : Memory ν}
    (takes : m.effect world.client t = .ok t') :
    t'.nodes = (packetsOf m).foldl act t.nodes ∧
      ∀ sn, t.scsn = some sn → t'.scsn = some (scsnAfter sn m) := by
  cases m with
  | packets ps =>
    obtain rfl := foldlM_effect acts takes
    exact ⟨rfl, fun sn here => here⟩
  | other m =>
    rw [ScMember.effect] at takes
    split at takes
    · rename_i wait
      cases takes
      rw [faithful.scnotifyurl]
      refine ⟨rfl, fun sn here => ?_⟩
      rw [scsnAfter, if_pos wait]
      exact here
    rename_i other
    split at takes
    · rename_i sequence
      cases takes
      rw [faithful.setscsn]
      refine ⟨rfl, fun sn _ => ?_⟩
      rw [scsnAfter, if_neg other, if_pos sequence]
    · rename_i unread
      cases takes
      refine ⟨rfl, fun sn here => ?_⟩
      rw [scsnAfter, if_neg other, if_neg unread]
      exact here

theorem Faithful.members (faithful : Faithful world settle) {ms : List ScMember}
    (acts : ∀ p ∈ ms.flatMap packetsOf, Acts world act p) {t t' : Memory ν}
    (folds : ms.foldlM (ScMember.effect world.client) t = .ok t') :
    t'.nodes = (ms.flatMap packetsOf).foldl act t.nodes ∧
      ∀ sn, t.scsn = some sn → t'.scsn = some (ms.foldl scsnAfter sn) := by
  induction ms generalizing t with
  | nil =>
    cases folds
    exact ⟨rfl, fun sn here => here⟩
  | cons m ms ih =>
    rw [List.foldlM_cons] at folds
    rw [List.flatMap_cons, List.forall_mem_append] at acts
    cases first : ScMember.effect world.client t m with
    | error fault =>
      rw [first] at folds
      cases folds
    | ok t₁ =>
      rw [first] at folds
      obtain ⟨nodes, sn⟩ := faithful.member acts.1 first
      obtain ⟨nodes', sn'⟩ := ih acts.2 folds
      refine ⟨nodes'.trans ?_, fun n here => sn' _ (sn n here)⟩
      rw [nodes, List.flatMap_cons, List.foldl_append]

/-- `procsc` on the text of a response that it can read: its packets act on the nodes in order, and
the client gets to its sequence number. -/
theorem Faithful.procsc (faithful : Faithful world settle) {ms : List ScMember} {t : Memory ν}
    (regular : RegularResponse world.client t ms)
    (acts : ∀ p ∈ ms.flatMap packetsOf, Acts world act p) : ∃ t',
    procsc world.client t (object (ms.map ScMember.member)) = .ok (t', [closeObject]) ∧
      t'.nodes = receive act settle t.nodes (ms.flatMap packetsOf) ∧
      ∀ sn, t.scsn = some sn → t'.scsn = some (ms.foldl scsnAfter sn) := by
  obtain ⟨t', folds, run⟩ := response_run world.client regular
  obtain ⟨nodes, sn⟩ := faithful.members acts folds
  have entered := @enterobject_object [] (ms.map ScMember.member)
  rw [List.append_nil] at entered
  have read := @members_run _ _ _ _ _ _ _ _ run [] trivial
  rw [List.nil_append] at read
  refine ⟨{ t' with nodes := settle t'.nodes }, ?_, congrArg settle nodes, sn⟩
  rw [← faithful.settled]
  unfold Server.procsc
  rw [entered, read]

theorem Shows.append {log : List Packet} {sn : Scsn} {nodes : ν}
    (shows : Shows world act settle log sn nodes) (more : List Packet) :
    Shows world act settle (log ++ more) sn nodes := by
  obtain ⟨k, inside, responses, segment, same⟩ := shows
  refine ⟨k, ?_, responses, segment.append more, ?_⟩
  · rw [List.length_append]
    exact Nat.le_add_right_of_le inside
  · rw [List.take_append_of_le_length inside]
    exact same

theorem shows_snapshot {log : List Packet} {k : Nat} (inside : k ≤ log.length) :
    Shows world act settle log (world.name k) (world.snapshot (log.take k)) :=
  ⟨k, inside, [], .refl inside, rfl⟩

/-- The packets of a response follow those that are there. -/
theorem Shows.receive {log : List Packet} {sn next : Scsn} {nodes : ν}
    (shows : Shows world act settle log sn nodes) (named : Named world.name log)
    {packets : List Packet} (segment : Segment world.name log sn next packets) :
    Shows world act settle log next (Polling.receive act settle nodes packets) := by
  obtain ⟨k, inside, responses, earlier, same⟩ := shows
  refine ⟨k, inside, responses ++ [packets], ?_, ?_⟩
  · rw [List.flatten_append, List.flatten_singleton]
    exact earlier.trans named segment
  · rw [List.foldl_append, ← same]
    rfl

namespace Inv

variable {t : State ν}

/-- The cache, the timer and `syncsup` do not matter. -/
theorem congr (inv : Inv world act settle s) (log : t.log = s.log) (memory : t.memory = s.memory)
    (loaded : t.loaded = s.loaded) (pendingsc : t.pendingsc = s.pendingsc)
    (fetchingnodes : t.fetchingnodes = s.fetchingnodes) : Inv world act settle t where
  memory := by
    rw [UpToDate, memory, log]
    exact inv.memory
  named := log ▸ inv.named
  acts := log ▸ inv.acts
  pending := by
    rw [pendingsc, loaded, memory]
    exact inv.pending
  replied := by
    rw [pendingsc, log]
    exact inv.replied
  unloaded := by
    rw [loaded, memory]
    exact inv.unloaded
  fetching := by
    rw [fetchingnodes, loaded]
    exact inv.fetching

/-- With nothing pending, only the nodes are left to show. -/
theorem idle (inv : Inv world act settle s) (log : t.log = s.log) (pendingsc : t.pendingsc = none)
    (memory : UpToDate world act settle t) (unloaded : t.loaded = false → t.memory.scsn = none)
    (fetching : t.fetchingnodes = true → t.loaded = false) : Inv world act settle t where
  memory := memory
  named := log ▸ inv.named
  acts := log ▸ inv.acts
  pending q there := by
    rw [pendingsc] at there
    cases there
  replied q there := by
    rw [pendingsc] at there
    cases there
  unloaded := unloaded
  fetching := fetching

/-- Nothing is pending while there are no nodes. -/
theorem quiet (inv : Inv world act settle s) (empty : s.loaded = false) : s.pendingsc = none := by
  cases pending : s.pendingsc with
  | none => rfl
  | some q =>
    have loaded := (inv.pending q pending).1
    rw [empty] at loaded
    cases loaded

/-- Nothing is pending any more. -/
theorem settled (inv : Inv world act settle s) (btsc : BackoffTimer) :
    Inv world act settle { s with pendingsc := none, btsc := btsc } :=
  inv.idle rfl rfl inv.memory inv.unloaded inv.fetching

section Cache

theorem finalizesc (inv : Inv world act settle s) (sn : Scsn) (written : Bool) (stored : ν) :
    Inv world act settle (s.finalizesc sn written stored) := by
  rw [State.finalizesc]
  split
  · exact inv.congr rfl rfl rfl rfl rfl
  · exact inv.congr rfl rfl rfl rfl rfl

theorem initsc (inv : Inv world act settle s) (written : Bool) (stored : ν) :
    Inv world act settle (s.initsc written stored) := by
  rw [State.initsc]
  split
  · exact inv.finalizesc _ written stored
  · exact inv

theorem notifypurge (inv : Inv world act settle s) (notified written : Bool) (garbage : Scsn)
    (stored : ν) : Inv world act settle (s.notifypurge notified written garbage stored) := by
  rw [State.notifypurge, State.updatesc]
  split
  · split
    · exact inv.finalizesc _ written stored
    · exact inv
  · exact inv

end Cache

variable [Inhabited ν]

theorem purge (inv : Inv world act settle s) : Inv world act settle s.purge :=
  inv.idle rfl rfl (fun _ none => by cases none) (fun _ => rfl) fun none => by cases none

omit [Inhabited ν] in
theorem opensctable (inv : Inv world act settle s) : Inv world act settle s.opensctable :=
  inv.congr rfl rfl rfl rfl rfl

/-- The nodes are requested from the server. -/
theorem refetch (inv : Inv world act settle s) : Inv world act settle
    (if s.fetchingnodes then s else { s.purge with fetchingnodes := true }) := by
  split
  · exact inv
  · exact inv.idle rfl rfl (fun _ none => by cases none) (fun _ => rfl) fun _ => rfl

theorem fetchnodes (inv : Inv world act settle s)
    (usable : s.fetchingnodes = false ∧ (s.loaded = false → ∀ sn, s.cachedscsn = some sn →
      ∃ nodes, s.file = some (sn, nodes) ∧ Shows world act settle s.log sn nodes) ∨
        s.loaded = true) : Inv world act settle s.fetchnodes := by
  rw [State.fetchnodes]
  dsimp only
  split
  · rename_i sn empty _ cached
    have empty : s.loaded = false := empty
    have cached : s.cachedscsn = some sn := cached
    rcases usable with ⟨idle, usable⟩ | loaded
    · obtain ⟨nodes, here, shows⟩ := usable empty sn cached
      have kept : s.opensctable.file = some (sn, nodes) := by
        rw [State.opensctable, cached]
        simpa using here
      rw [kept]
      refine inv.idle rfl (inv.quiet empty) ?_ (fun none => by cases none) fun fetching => ?_
      · intro sn' there
        obtain rfl : sn = sn' := Option.some.inj there
        exact shows
      · have both := idle.symm.trans fetching
        cases both
    · rw [empty] at loaded
      cases loaded
  · exact inv.opensctable.refetch

/-- After an error the request is repeated, from where the client is then. -/
theorem failed (inv : Inv world act settle s) (loaded : s.loaded = true) (e : Int) (ds : DsTime) :
    Inv world act settle ((s.failed e).retry ds) := by
  rw [State.failed]
  split
  · exact inv.idle rfl rfl (fun _ none => by cases none) (fun _ => rfl) inv.fetching
  split
  · exact (inv.fetchnodes (.inr loaded)).settled _
  · exact inv.settled _

omit [Inhabited ν] in
/-- The packets of a reply follow those that are there. -/
theorem procsc (inv : Inv world act settle s) (faithful : Faithful world settle) {sn : Scsn}
    (loaded : s.loaded = true) (number : s.memory.scsn = some sn) {ms : List ScMember}
    (answers : Answers world.name s.log sn ms)
    (regular : RegularResponse world.client s.memory ms) (btsc : BackoffTimer) :
    ∃ memory, Server.procsc world.client s.memory (object (ms.map ScMember.member)) =
        .ok (memory, [closeObject]) ∧
      Inv world act settle { s with memory := memory, pendingsc := none, btsc := btsc } := by
  obtain ⟨memory, read, nodes, next⟩ :=
    faithful.procsc regular fun p mem => inv.acts p (Segment.mem answers mem)
  refine ⟨memory, read, inv.idle rfl rfl ?_ (fun unloaded => ?_) inv.fetching⟩
  · intro sn' there
    have there : memory.scsn = some sn' := there
    rw [next sn number] at there
    obtain rfl := Option.some.inj there
    show Shows world act settle s.log _ memory.nodes
    rw [nodes]
    exact (inv.memory sn number).receive inv.named answers
  · have both := loaded.symm.trans unloaded
    cases both

theorem handle (inv : Inv world act settle s) (faithful : Faithful world settle) (ds : DsTime)
    (regular : ∀ q ∈ s.pendingsc, q.notify = false → q.status = .success → ∀ ms,
      q.reply = .members ms → RegularResponse world.client s.memory ms) :
    Inv world act settle (s.handle world.client ds) := by
  rw [State.handle]
  split
  · exact inv
  rename_i q pending
  obtain ⟨loaded, number, kind⟩ := inv.pending q pending
  split
  · split
    · exact inv.idle rfl rfl inv.memory inv.unloaded inv.fetching
    · exact inv
  rename_i url
  have polled : q.notify = false := kind.trans (decide_eq_false url)
  split
  · exact inv
  split
  · rename_i ms success members
    obtain ⟨memory, read, next⟩ := inv.procsc faithful loaded number
      (inv.replied q pending polled success ms members)
      (regular q pending polled success ms members) .reset
    rw [read]
    exact next
  · exact inv.failed loaded _ ds
  · exact inv.settled _
  · exact inv

omit [Inhabited ν] in
theorem post (inv : Inv world act settle s) (ds : DsTime) (postOk : Bool) :
    Inv world act settle (s.post ds postOk) := by
  rw [State.post]
  split
  · rename_i sn idle number
    split
    · exact
        { memory := inv.memory
          named := inv.named
          acts := inv.acts
          pending := fun q posted => by
            obtain rfl := Option.some.inj posted
            refine ⟨?_, number, rfl⟩
            cases loaded : s.loaded with
            | true => rfl
            | false =>
              have none := number.symm.trans (inv.unloaded loaded)
              cases none
          replied := fun q posted _ success => by
            obtain rfl := Option.some.inj posted
            cases postOk <;> cases success
          unloaded := inv.unloaded
          fetching := inv.fetching }
    · exact inv
  · exact inv

omit [Inhabited ν] in
theorem arrive (inv : Inv world act settle s) {reply : Option Reply}
    (honest : ∀ ms, reply = some (.members ms) → ∀ q ∈ s.pendingsc, q.status = .inflight →
      q.notify = false → Answers world.name s.log q.sn ms) :
    Inv world act settle (s.arrive reply) := by
  rw [State.arrive]
  split
  · exact inv
  rename_i q pending
  split
  · rename_i inflight
    exact
      { memory := inv.memory
        named := inv.named
        acts := inv.acts
        pending := fun q' ended => by
          obtain rfl := Option.some.inj ended
          exact inv.pending q pending
        replied := fun q' ended polled success ms members => by
          obtain rfl := Option.some.inj ended
          cases reply with
          | none => cases success
          | some reply =>
            obtain rfl : reply = .members ms := members
            exact honest ms rfl q pending inflight polled
        unloaded := inv.unloaded
        fetching := inv.fetching }
  · exact inv

omit [Inhabited ν] in
theorem fetched (inv : Inv world act settle s) {result : Option Nat}
    (known : ∀ k ∈ result, k ≤ s.log.length) (written : Bool) (stored : ν) :
    Inv world act settle (s.fetched world result written stored) := by
  unfold State.fetched
  split
  · rename_i fetching
    have empty := inv.fetching fetching
    split
    · exact inv.idle rfl (inv.quiet empty) inv.memory inv.unloaded fun none => by cases none
    · rename_i k
      refine Inv.initsc ?_ written stored
      refine inv.idle rfl (inv.quiet empty) ?_ (fun none => by cases none) fun none => by cases none
      intro sn here
      obtain rfl := Option.some.inj here
      exact shows_snapshot (known k rfl)
  · exact inv

theorem login (inv : Inv world act settle s) (continued : Bool) :
    Inv world act settle (s.login continued) :=
  inv.purge.congr rfl rfl rfl rfl rfl

omit [Inhabited ν] in
/-- The log grows under the client. -/
theorem happen (inv : Inv world act settle s) {p : Packet}
    (fresh : ∀ k ≤ s.log.length, world.name k ≠ world.name (s.log.length + 1))
    (acts : Acts world act p) : Inv world act settle { s with log := s.log ++ [p] } where
  memory sn here := (inv.memory sn here).append [p]
  named := inv.named.append fresh
  acts := List.forall_mem_append.mpr ⟨inv.acts, by rwa [List.forall_mem_singleton]⟩
  pending := inv.pending
  replied q pending polled success ms members :=
    Segment.append (inv.replied q pending polled success ms members) [p]
  unloaded := inv.unloaded
  fetching := inv.fetching

theorem step (faithful : Faithful world settle) (inv : Inv world act settle s) (e : Event ν)
    (proper : Proper world act settle s e) : Inv world act settle (s.step world e) := by
  cases e with
  | happen p => exact inv.happen proper.1 proper.2
  | arrive reply =>
    refine inv.arrive fun ms members => ?_
    subst members
    exact proper
  | exec ds postOk => exact (inv.handle faithful ds proper).post ds postOk
  | syncsup => exact inv.congr rfl rfl rfl rfl rfl
  | notifypurge notified written garbage stored =>
    exact inv.notifypurge notified written garbage stored
  | fetchnodes => exact inv.fetchnodes (.inl proper)
  | fetched result written stored =>
    refine inv.fetched (fun k known => ?_) written stored
    cases known
    exact proper
  | login continued => exact inv.login continued

theorem start (dbaccess : Bool) {log : List Packet} (named : Named world.name log)
    (acts : ∀ p ∈ log, Acts world act p) :
    Inv world act settle (Polling.start dbaccess log) where
  memory _ none := by cases none
  named := named
  acts := acts
  pending _ none := by cases none
  replied _ none := by cases none
  unloaded _ := rfl
  fetching none := by cases none

end Inv

end Steps

/-- In every run, through lost replies, waiting, reloads, failures of the cache and new processes,
the nodes in memory are those that the server had at some time with exactly the packets from there
up to the sequence number, each once and in order. -/
theorem always_upToDate {ν : Type} [Inhabited ν] {world : World ν} {act : ν → Packet → ν}
    {settle : ν → ν} (faithful : Faithful world settle) (dbaccess : Bool) {log : List Packet}
    (named : Named world.name log) (acts : ∀ p ∈ log, Acts world act p) (events : List (Event ν))
    (proper : Meets (State.step world) (Proper world act settle) (start dbaccess log) events) :
    Always (State.step world) (UpToDate world act settle) (start dbaccess log) events := by
  have always : Always (State.step world) (Inv world act settle) (start dbaccess log) events :=
    always_of_meets (fun s e inv proper => inv.step faithful e proper) (.start dbaccess named acts)
      proper
  exact always.mono fun s inv => inv.memory

/-- A client whose nodes are what it was told to do, without the last pass over all of them. -/
def pollingWorld : World (List Call) where
  client :=
    { perform := fun call t =>
        if call = .applykeys ∨ call = .mergenewshares true then t
        else
          match call with
          | .setscsn sn => { t with scsn := some sn }
          | .scnotifyurl url => { t with scnotifyurl := url }
          | call => { t with nodes := t.nodes ++ [call] }
      nodebyhandle := fun _ _ => true
      finduser := fun _ _ => true
      fafc := fun _ _ => true
      sharekey := fun _ _ => true
      merges := fun _ _ => false
      sessionid := ascii "abcdefghij"
      letters := sampleSession_letters
      requests := by
        intros
        rfl }
  name := ByteOrder.leBytes 8
  snapshot _ := []

def deletionCall : Call := .deltree [(nameid (ascii "n"), .handle (some [0, 0, 0, 0, 0, 4]))]

/-- A deletion, the response that has it, and a login from the cache afterwards. -/
def sampleEvents : List (Event (List Call)) :=
  [.login true, .fetchnodes, .fetched (some 0) true [], .happen deletion, .exec 0 true,
    .arrive none, .exec 1 true, .exec 9 true,
    .arrive (some (.members [.packets [deletion],
      .other (ascii "sn", str (ascii "AQAAAAAAAAA"))])),
    .syncsup, .exec 10 true, .notifypurge true true [] [deletionCall], .login true, .fetchnodes]

theorem faithful_pollingWorld : Faithful pollingWorld id where
  setscsn _ _ := rfl
  scnotifyurl _ _ := rfl
  settled _ := rfl

theorem acts_deletion : Acts pollingWorld (fun nodes _ => nodes ++ [deletionCall]) deletion := by
  intro t t' takes
  have actual : effect pollingWorld.client t deletion =
      .ok { t with nodes := t.nodes ++ [deletionCall] } := rfl
  rw [actual] at takes
  cases takes
  rfl

/-- The response of the sample. -/
theorem response_regular (t : Memory (List Call)) : RegularResponse pollingWorld.client t
    [.packets [deletion], .other (ascii "sn", str (ascii "AQAAAAAAAAA"))] := by
  refine ⟨⟨deletion_regular _ t, fun _ _ => trivial⟩, fun _ _ => ⟨?_, fun _ _ => trivial⟩⟩
  exact ⟨List.cons_ne_nil _ _, by unfold Plain; decide, .str (by decide), by decide, fun _ => rfl⟩

theorem always_upToDate_sample :
    Always (State.step pollingWorld)
      (UpToDate pollingWorld (fun nodes _ => nodes ++ [deletionCall]) id) (start true [])
      sampleEvents ∧
      (run (State.step pollingWorld) (start true []) sampleEvents).memory.nodes =
        [deletionCall] := by
  refine ⟨always_upToDate faithful_pollingWorld true (fun k here m there _ => ?_)
    (fun p mem => absurd mem List.not_mem_nil) sampleEvents ?_, rfl⟩
  · exact (Nat.le_zero.mp here).trans (Nat.le_zero.mp there).symm
  · refine ⟨trivial, ⟨rfl, fun _ sn none => ?_⟩, Nat.le_refl 0, ⟨fun k here => ?_, acts_deletion⟩,
      fun q pending => ?_, trivial, fun q pending _ success => ?_, fun q pending => ?_,
      fun q pending _ _ => ?_, trivial, fun q pending _ _ ms reply => ?_, trivial, trivial,
      ⟨rfl, fun _ sn cached => ?_⟩, trivial⟩
    · cases none
    · obtain rfl := Nat.le_zero.mp here
      decide
    · cases pending
    · cases pending
      cases success
    · cases pending
    · cases pending
      exact ⟨0, 1, Nat.zero_le 1, Nat.le_refl 1, rfl, by decide, rfl⟩
    · cases pending
      cases reply
      exact response_regular _
    · cases cached
      exact ⟨_, rfl, 0, Nat.zero_le 1, [[deletion]],
        ⟨0, 1, Nat.zero_le 1, Nat.le_refl 1, rfl, by decide, rfl⟩, rfl⟩

end Polling

end MegaSdk.Server
