import MegaSdk.Api.BackoffTimer
import MegaSdk.Lib.Runs

/-!
# The double-buffered client-server request queue

The client-server part of `MegaClient::exec` with `Request`, `abortbackoff`,
`wait` and `fetchnodes`. New commands are queued in `reqs[r]` while the batch in
flight, or waiting for its retry, stays in `reqs[r ^ 1]`; the parity of `r` is
tied to the backoff timer. Each iteration of the request loop is one event, and
the environment chooses clock values, network outcomes and what result handlers
do.
-/

namespace MegaSdk.Api

open Runs

/-- A queued command: its serialized arguments, and the count of submissions made
before it as its identity. A persistent command queued again is a new submission. -/
structure Command where
  id : Nat
  json : Bytes
  fetchNodes : Bool
  deriving DecidableEq, Repr

/-- An API request: the body and id it was posted with and the reply received.
`cmds` and `firstFree` are bookkeeping: the commands serialized into `out`, and the
submissions that had been made when that body was first posted. -/
structure HttpReq where
  status : ReqStatus
  out : Bytes
  input : Bytes
  reqid : Bytes
  cmds : List Command
  firstFree : Nat
  deriving DecidableEq, Repr

namespace Request

def objects : Bool → List Command → Bytes
  | _, [] => []
  | first, c :: rest =>
    ascii (if first then "\x7b" else ",\x7b") ++ c.json ++ ascii "\x7d" ++ objects false rest

/-- `Request::get`: concatenate all command objects into an API request. -/
def get (cmds : List Command) : Bytes := ascii "[" ++ objects true cmds ++ ascii "]"

end Request

/-- What happened so far. `failed` is the request whose retry is due, `retries` pairs a
failed request with the next one posted, `processed` pairs a command list with the
request whose reply it was run on. -/
structure History where
  created : Nat
  posted : List HttpReq
  processed : List (List Command × HttpReq)
  failed : Option HttpReq
  retries : List (HttpReq × HttpReq)

structure Client where
  reqs : Bool → List Command
  r : Bool
  pendingcs : Option HttpReq
  btcs : BackoffTimer
  reqid : Bytes
  fetchingNodes : Bool
  log : History

/-- What the handler of a result may do to the queue. -/
inductive Callback where
  | add (json : Bytes)
  | fetchNodes (cached : Bool)

inductive Event where
  | add (json : Bytes)
  | fetchNodes (cached : Bool)
  | arrive (ok : Bool) (input : Bytes)
  | pass (ds : DsTime) (postOk : Bool) (callbacks : List (List Callback))
  | wait (ds : DsTime)
  | abortBackoff (ds : DsTime)

/-- Increment, least significant character first. -/
def bump : Bytes → Bytes
  | [] => []
  | c :: rest => if c.toInt8 < 122 then (c + 1) :: rest else 97 :: bump rest

def nextReqid (id : Bytes) : Bytes := (bump id.reverse).reverse

namespace Client

def start (reqid : Bytes) : Client where
  reqs _ := []
  r := false
  pendingcs := none
  btcs := .reset
  reqid := reqid
  fetchingNodes := false
  log := ⟨0, [], [], none, []⟩

def add (json : Bytes) (fetch : Bool) (s : Client) : Client :=
  { s with
    reqs := Function.update s.reqs s.r (s.reqs s.r ++ [⟨s.log.created, json, fetch⟩])
    log := { s.log with created := s.log.created + 1 } }

/-- `init` on the queue: the outstanding request and its timer are forgotten. -/
def init (s : Client) : Client :=
  { s with
    pendingcs := none
    btcs := .reset
    fetchingNodes := false
    log := { s.log with failed := none } }

/-- `fetchnodes`: unless the local cache serves it or a reload is already under way,
everything is purged and a full fetch queued. -/
def fetchNodes (cached : Bool) (s : Client) : Client :=
  if cached then s
  else if s.fetchingNodes then s
  else
    { s.init with fetchingNodes := true }.add (ascii "\"a\":\"f\",\"c\":1,\"r\":1") true

def callback (s : Client) : Callback → Client
  | .add json => s.add json false
  | .fetchNodes cached => s.fetchNodes cached

/-- The loop of `Request::procresult` over the commands. -/
def procCommands : List Command → List (List Callback) → Client → Client
  | [], _, s => s
  | c :: rest, calls, s =>
    let s := if c.fetchNodes then { s with fetchingNodes := false } else s
    procCommands rest calls.tail ((calls.headD []).foldl callback s)

/-- Record that the results of `q` go to `reqs[r ^ 1]`. -/
def logResult (q : HttpReq) (s : Client) : Client :=
  { s with log := { s.log with processed := (s.reqs (!s.r), q) :: s.log.processed } }

/-- `reqs[r ^ 1].procresult` on the reply to `q`. -/
def procResult (q : HttpReq) (calls : List (List Callback)) (s : Client) : Client :=
  let s := procCommands (s.reqs (!s.r)) calls (s.logResult q)
  { s with reqs := Function.update s.reqs (!s.r) [] }

/-- A result array arrived: process it and move on to the next request id. -/
def succeed (q : HttpReq) (calls : List (List Callback)) (s : Client) : Client :=
  let s := s.procResult q calls
  { s with pendingcs := none, reqid := nextReqid s.reqid, btcs := .reset }

/-- Failure: repeat with capped exponential backoff. -/
def fail (ds : DsTime) (q : HttpReq) (s : Client) : Client :=
  { s with
    pendingcs := none
    btcs := s.btcs.backoff ds
    log := { s.log with failed := some q } }

/-- The request has to be repeated: network failure, or a -3 or -4 reply. -/
def Rejected (q : HttpReq) : Prop :=
  q.status = .failure ∨ (q.status = .success ∧ (q.input = ascii "-3" ∨ q.input = ascii "-4"))

def Answered (q : HttpReq) : Prop :=
  q.status = .success ∧ q.input ≠ ascii "-3" ∧ q.input ≠ ascii "-4" ∧ q.input.head? = some 91

instance (q : HttpReq) : Decidable (Rejected q) := inferInstanceAs (Decidable (_ ∨ _))

instance (q : HttpReq) : Decidable (Answered q) := inferInstanceAs (Decidable (_ ∧ _))

/-- The status switch on the outstanding request. -/
def handlePending (ds : DsTime) (calls : List (List Callback)) (s : Client) : Client :=
  match s.pendingcs with
  | none => s
  | some q =>
    match q.status with
    | .success =>
      if q.input ≠ ascii "-3" ∧ q.input ≠ ascii "-4" then
        if q.input.head? = some 91 then s.succeed q calls
        -- request_error is reported and the request stays
        else s
      else s.fail ds q
    | .failure => s.fail ds q
    | _ => s

/-- The commands of `reqs[r]`, serialized under the current id. -/
def request (postOk : Bool) (s : Client) : HttpReq where
  status := if postOk then .inflight else .failure
  out := Request.get (s.reqs s.r)
  input := []
  reqid := s.reqid
  cmds := s.reqs s.r
  firstFree := (s.log.failed.map HttpReq.firstFree).getD s.log.created

def post (postOk : Bool) (s : Client) : Client :=
  { s with
    pendingcs := some (s.request postOk)
    r := !s.r
    log := { s.log with
      posted := s.request postOk :: s.log.posted
      failed := none
      retries := (s.log.failed.map fun f => (f, s.request postOk)).toList ++ s.log.retries } }

/-- The second half of an iteration: send the next batch if the timer allows. -/
def submit (ds : DsTime) (postOk : Bool) (s : Client) : Client :=
  if s.btcs.armed ds then
    let s := if s.btcs.nextSet ≠ 0 then { s with r := !s.r } else s
    if s.reqs s.r ≠ [] then s.post postOk else { s with btcs := .reset }
  else s

/-- One iteration of the client-server loop in `exec`. -/
def pass (ds : DsTime) (postOk : Bool) (calls : List (List Callback)) (s : Client) : Client :=
  let s := s.handlePending ds calls
  if s.pendingcs.isSome then s else s.submit ds postOk

def arrive (ok : Bool) (input : Bytes) (s : Client) : Client :=
  match s.pendingcs with
  | some q =>
    if q.status = .inflight then
      let reply := { q with status := if ok then .success else .failure, input := input }
      { s with pendingcs := some reply }
    else s
  | none => s

def step (s : Client) : Event → Client
  | .add json => s.add json false
  | .fetchNodes cached => s.fetchNodes cached
  | .arrive ok input => s.arrive ok input
  | .pass ds postOk calls => s.pass ds postOk calls
  | .wait ds =>
    if s.pendingcs.isNone then { s with btcs := (s.btcs.update ds 0xFFFFFFFF).2 } else s
  | .abortBackoff ds => { s with btcs := (s.btcs.arm ds).2 }

end Client

def ClockOk : Event → Prop
  | .pass ds _ _ => 1 ≤ ds
  | .wait ds => 1 ≤ ds
  | .abortBackoff ds => 1 ≤ ds
  | _ => True

/-- The retry of a request that fails now is not scheduled for the clock value that
wraps around to zero. -/
def NoWrap (s : Client) : Event → Prop
  | .pass ds _ _ => ∀ q ∈ s.pendingcs, Client.Rejected q → ds + s.btcs.delta ≠ 0
  | _ => True

/-- A reload outside a result handler finds no request in flight or waiting. -/
def ReloadIdle (s : Client) : Event → Prop
  | .fetchNodes false => s.fetchingNodes = false → s.pendingcs = none ∧ s.btcs.next = 0
  | _ => True

/-- What has been observed so far: results went to the commands their request was made
of, all of them submitted before its body was first posted, and every retry repeated
the failed request. -/
structure Paired (s : Client) : Prop where
  results : ∀ e ∈ s.log.processed, e.1 = e.2.cmds ∧ e.2.out = Request.get e.2.cmds ∧
    ∀ c ∈ e.1, c.id < e.2.firstFree
  retried : ∀ e ∈ s.log.retries, e.2.cmds = e.1.cmds ∧ e.2.out = e.1.out ∧ e.2.reqid = e.1.reqid

/-- `q` is the request of the batch in `reqs[r ^ 1]`. -/
structure Holds (s : Client) (q : HttpReq) : Prop where
  batch : s.reqs (!s.r) = q.cmds
  nonempty : q.cmds ≠ []
  body : q.out = Request.get q.cmds
  current : q.reqid = s.reqid
  older : ∀ c ∈ q.cmds, c.id < q.firstFree
  known : q.firstFree ≤ s.log.created

/-- The parity of `r` against the timer: a request in flight, or one whose retry is
due, is the batch in `reqs[r ^ 1]`, and outside these the timer is not set. -/
structure PairInv (s : Client) : Prop where
  paired : Paired s
  settled : s.btcs.Settled
  fresh : ∀ b, ∀ c ∈ s.reqs b, c.id < s.log.created
  inflight : ∀ q, s.pendingcs = some q → s.log.failed = none ∧ Holds s q
  waiting : ∀ f, s.log.failed = some f → s.btcs.next ≠ 0 ∧ Holds s f
  due : s.pendingcs = none → s.btcs.next ≠ 0 → ∃ f, s.log.failed = some f

namespace PairInv
variable {s : Client}

theorem start (reqid : Bytes) : PairInv (Client.start reqid) where
  paired := ⟨fun e he => absurd he List.not_mem_nil, fun e he => absurd he List.not_mem_nil⟩
  settled := BackoffTimer.settled_reset
  fresh _ c hc := absurd hc List.not_mem_nil
  inflight q hq := by cases hq
  waiting f hf := by cases hf
  due _ set := absurd rfl set

theorem holds_add {json : Bytes} {fetch : Bool} {q : HttpReq} (holds : Holds s q) :
    Holds (s.add json fetch) q where
  batch := by
    have apart : (!s.r) ≠ s.r := by cases s.r <;> decide
    simpa [Client.add, Function.update_of_ne apart] using holds.batch
  nonempty := holds.nonempty
  body := holds.body
  current := holds.current
  older := holds.older
  known := Nat.le_succ_of_le holds.known

theorem mem_add {json : Bytes} {fetch : Bool} {b : Bool} {c : Command}
    (hc : c ∈ (s.add json fetch).reqs b) :
    c ∈ s.reqs b ∨ (b = s.r ∧ c = ⟨s.log.created, json, fetch⟩) := by
  by_cases hb : b = s.r
  · subst hb
    simpa [Client.add] using hc
  · simp only [Client.add, Function.update_of_ne hb] at hc
    exact Or.inl hc

theorem add (inv : PairInv s) (json : Bytes) (fetch : Bool) : PairInv (s.add json fetch) where
  paired := { inv.paired with }
  settled := inv.settled
  fresh b c hc := by
    rcases mem_add hc with old | ⟨_, rfl⟩
    · exact Nat.lt_succ_of_lt (inv.fresh b c old)
    · exact Nat.lt_succ_self _
  inflight q hq := ⟨(inv.inflight q hq).1, holds_add (inv.inflight q hq).2⟩
  waiting f hf := ⟨(inv.waiting f hf).1, holds_add (inv.waiting f hf).2⟩
  due := inv.due

/-- Forgetting the outstanding request leaves nothing to pair. -/
theorem init (inv : PairInv s) : PairInv s.init where
  paired := { inv.paired with }
  settled := BackoffTimer.settled_reset
  fresh := inv.fresh
  inflight q hq := by cases hq
  waiting f hf := by cases hf
  due _ set := absurd rfl set

theorem setFetching (inv : PairInv s) (b : Bool) : PairInv { s with fetchingNodes := b } where
  paired := { inv.paired with }
  settled := inv.settled
  fresh := inv.fresh
  inflight q hq := ⟨(inv.inflight q hq).1, { inv.inflight q hq |>.2 with }⟩
  waiting f hf := ⟨(inv.waiting f hf).1, { inv.waiting f hf |>.2 with }⟩
  due := inv.due

theorem fetchNodes (inv : PairInv s) (cached : Bool) : PairInv (s.fetchNodes cached) := by
  rw [Client.fetchNodes]
  split
  · exact inv
  · split
    · exact inv
    · exact (inv.init.setFetching true).add _ _

theorem callback (inv : PairInv s) (call : Callback) : PairInv (s.callback call) := by
  cases call with
  | add json => exact inv.add json false
  | fetchNodes cached => exact inv.fetchNodes cached

theorem callbacks (inv : PairInv s) (calls : List Callback) :
    PairInv (calls.foldl Client.callback s) := by
  induction calls generalizing s with
  | nil => exact inv
  | cons call rest ih => exact ih (inv.callback call)

theorem procCommands (inv : PairInv s) (cmds : List Command) (calls : List (List Callback)) :
    PairInv (Client.procCommands cmds calls s) := by
  induction cmds generalizing s calls with
  | nil => exact inv
  | cons c rest ih =>
    rw [Client.procCommands]
    split
    · exact ih ((inv.setFetching false).callbacks _) _
    · exact ih (inv.callbacks _) _

end PairInv

namespace Client
variable {s : Client}

theorem fetchNodes_failed (idle : s.log.failed = none) (cached : Bool) :
    (s.fetchNodes cached).log.failed = none := by
  rw [fetchNodes]
  split
  · exact idle
  · split
    · exact idle
    · rfl

theorem callbacks_failed (idle : s.log.failed = none) (calls : List Callback) :
    (calls.foldl callback s).log.failed = none := by
  induction calls generalizing s with
  | nil => exact idle
  | cons call rest ih =>
    refine ih ?_
    cases call with
    | add json => exact idle
    | fetchNodes cached => exact fetchNodes_failed idle cached

/-- Handlers queue commands or reload; none of them makes a retry due. -/
theorem procCommands_failed (idle : s.log.failed = none) (cmds : List Command)
    (calls : List (List Callback)) : (procCommands cmds calls s).log.failed = none := by
  induction cmds generalizing s calls with
  | nil => exact idle
  | cons c rest ih =>
    rw [procCommands]
    refine ih (callbacks_failed ?_ _) _
    split
    · exact idle
    · exact idle

/-- What an iteration can do about the outstanding request. -/
theorem handlePending_cases (s : Client) (ds : DsTime) (calls : List (List Callback)) :
    s.handlePending ds calls = s ∨
      (∃ q, s.pendingcs = some q ∧ Answered q ∧ s.handlePending ds calls = s.succeed q calls) ∨
      ∃ q, s.pendingcs = some q ∧ Rejected q ∧ s.handlePending ds calls = s.fail ds q := by
  rw [handlePending]
  cases pending : s.pendingcs with
  | none => exact Or.inl rfl
  | some q =>
    simp only [Option.some.injEq, exists_eq_left']
    cases status : q.status with
    | success =>
      by_cases three : q.input = ascii "-3"
      · exact Or.inr (Or.inr ⟨Or.inr ⟨status, Or.inl three⟩, by simp [three]⟩)
      · by_cases four : q.input = ascii "-4"
        · exact Or.inr (Or.inr ⟨Or.inr ⟨status, Or.inr four⟩, by simp [four]⟩)
        · by_cases array : q.input.head? = some 91
          · exact Or.inr (Or.inl ⟨⟨status, three, four, array⟩, by simp [three, four, array]⟩)
          · exact Or.inl (by simp [three, four, array])
    | failure => exact Or.inr (Or.inr ⟨Or.inl status, rfl⟩)
    | ready => exact Or.inl rfl
    | prepared => exact Or.inl rfl
    | inflight => exact Or.inl rfl
    | done => exact Or.inl rfl

end Client

namespace PairInv
variable {s : Client} {q : HttpReq}

theorem logResult (inv : PairInv s) (pending : s.pendingcs = some q) :
    PairInv (s.logResult q) where
  paired :=
    { results := by
        obtain ⟨_, holds⟩ := inv.inflight q pending
        intro e he
        rcases List.mem_cons.mp he with rfl | he
        · exact ⟨holds.batch, holds.body, fun c hc => holds.older c (holds.batch ▸ hc)⟩
        · exact inv.paired.results e he
      retried := inv.paired.retried }
  settled := inv.settled
  fresh := inv.fresh
  inflight p hp := ⟨(inv.inflight p hp).1, { (inv.inflight p hp).2 with }⟩
  waiting f hf := ⟨(inv.waiting f hf).1, { (inv.waiting f hf).2 with }⟩
  due := inv.due

theorem succeed (inv : PairInv s) (pending : s.pendingcs = some q)
    (calls : List (List Callback)) : PairInv (s.succeed q calls) := by
  have after := (inv.logResult pending).procCommands (s.reqs (!s.r)) calls
  have quiet := Client.procCommands_failed (s := s.logResult q) (inv.inflight q pending).1
    (s.reqs (!s.r)) calls
  exact
    { paired := { after.paired with }
      settled := BackoffTimer.settled_reset
      fresh := by
        intro b c hc
        by_cases hb : b = !(Client.procCommands (s.reqs (!s.r)) calls (s.logResult q)).r
        · subst hb
          simp [Client.succeed, Client.procResult] at hc
        · refine after.fresh b c ?_
          simpa [Client.succeed, Client.procResult, Function.update_of_ne hb] using hc
      inflight := fun p hp => by cases hp
      waiting := fun f hf => by
        have none_some := quiet.symm.trans hf
        cases none_some
      due := fun _ set => absurd rfl set }

theorem fail (inv : PairInv s) (pending : s.pendingcs = some q) {ds : DsTime}
    (noWrap : ds + s.btcs.delta ≠ 0) : PairInv (s.fail ds q) where
  paired := { inv.paired with }
  settled zero := absurd zero noWrap
  fresh := inv.fresh
  inflight p hp := by cases hp
  waiting f hf := by
    have same : q = f := Option.some.inj hf
    subst same
    exact ⟨noWrap, { (inv.inflight q pending).2 with }⟩
  due _ _ := ⟨q, rfl⟩

theorem handlePending (inv : PairInv s) {ds : DsTime} (calls : List (List Callback))
    (noWrap : ∀ q ∈ s.pendingcs, Client.Rejected q → ds + s.btcs.delta ≠ 0) :
    PairInv (s.handlePending ds calls) := by
  rcases s.handlePending_cases ds calls with same | ⟨q, pending, _, same⟩ | ⟨q, pending, rej, same⟩
  · rw [same]
    exact inv
  · rw [same]
    exact inv.succeed pending calls
  · rw [same]
    exact inv.fail pending (noWrap q pending rej)

/-- Posting `reqs[r]` pairs it with the new request, provided that a retry which is due
is the retry of exactly this batch. -/
theorem post (postOk : Bool) (paired : Paired s) (settled : s.btcs.Settled)
    (fresh : ∀ b, ∀ c ∈ s.reqs b, c.id < s.log.created) (nonempty : s.reqs s.r ≠ [])
    (resend : ∀ f, s.log.failed = some f → f.cmds = s.reqs s.r ∧ f.out = Request.get f.cmds ∧
      f.reqid = s.reqid ∧ (∀ c ∈ f.cmds, c.id < f.firstFree) ∧ f.firstFree ≤ s.log.created) :
    PairInv (s.post postOk) where
  paired :=
    { results := paired.results
      retried := by
        intro e he
        rcases List.mem_append.mp he with now | old
        · cases failed : s.log.failed with
          | none => simp [failed] at now
          | some f =>
            obtain ⟨same, body, id, _⟩ := resend f failed
            have heq : e = (f, s.request postOk) := by simpa [failed] using now
            subst heq
            exact ⟨same.symm, (body.trans (congrArg Request.get same)).symm, id.symm⟩
        · exact paired.retried e old }
  settled := settled
  fresh := fresh
  inflight q hq := by
    have heq : s.request postOk = q := Option.some.inj hq
    subst heq
    have ids : (∀ c ∈ s.reqs s.r, c.id < (s.request postOk).firstFree) ∧
        (s.request postOk).firstFree ≤ s.log.created := by
      cases failed : s.log.failed with
      | none => simpa [Client.request, failed] using fresh s.r
      | some f =>
        obtain ⟨same, _, _, older, known⟩ := resend f failed
        simpa [Client.request, failed, ← same] using ⟨older, known⟩
    exact ⟨rfl,
      { batch := by simp [Client.post, Client.request]
        nonempty := nonempty
        body := rfl
        current := rfl
        older := ids.1
        known := ids.2 }⟩
  waiting f hf := by cases hf
  due none := by cases none

theorem submit (inv : PairInv s) (idle : s.pendingcs = none) (ds : DsTime) (postOk : Bool) :
    PairInv (s.submit ds postOk) := by
  rw [Client.submit]
  split
  · by_cases set : s.btcs.next = 0
    · have quiet : s.log.failed = none := by
        cases failed : s.log.failed with
        | none => rfl
        | some f => exact absurd set (inv.waiting f failed).1
      simp only [BackoffTimer.nextSet, set, ne_eq, not_true_eq_false, if_false]
      split
      · rename_i nonempty
        refine post postOk inv.paired inv.settled inv.fresh nonempty fun f hf => ?_
        rw [quiet] at hf
        cases hf
      · rw [← inv.settled.eq_reset set]
        exact inv
    · obtain ⟨f, failed⟩ := inv.due idle set
      obtain ⟨_, holds⟩ := inv.waiting f failed
      have nonempty : s.reqs (!s.r) ≠ [] := holds.batch ▸ holds.nonempty
      simp only [BackoffTimer.nextSet, ne_eq, set, not_false_eq_true, if_true, nonempty]
      refine post (s := { s with r := !s.r }) postOk { inv.paired with } inv.settled inv.fresh
        nonempty fun g hg => ?_
      have same : f = g := Option.some.inj (failed.symm.trans hg)
      subst same
      exact ⟨holds.batch.symm, holds.body, holds.current, holds.older, holds.known⟩
  · exact inv

theorem arrive (inv : PairInv s) (ok : Bool) (input : Bytes) : PairInv (s.arrive ok input) := by
  rw [Client.arrive]
  cases pending : s.pendingcs with
  | none => exact inv
  | some q =>
    obtain ⟨quiet, holds⟩ := inv.inflight q pending
    dsimp only
    split
    · exact
        { paired := { inv.paired with }
          settled := inv.settled
          fresh := inv.fresh
          inflight := by
            intro p hp
            have heq := Option.some.inj hp
            subst heq
            exact ⟨quiet, { holds with }⟩
          waiting := fun f hf => ⟨(inv.waiting f hf).1, { (inv.waiting f hf).2 with }⟩
          due := fun none => by cases none }
    · exact inv

/-- Changing the timer keeps the pairing as long as it stays set or stays unset. -/
theorem setTimer (inv : PairInv s) {t : BackoffTimer} (settled : t.Settled)
    (same : t.next = 0 ↔ s.btcs.next = 0) : PairInv { s with btcs := t } where
  paired := { inv.paired with }
  settled := settled
  fresh := inv.fresh
  inflight q hq := ⟨(inv.inflight q hq).1, { (inv.inflight q hq).2 with }⟩
  waiting f hf := ⟨fun zero => (inv.waiting f hf).1 (same.mp zero), { (inv.waiting f hf).2 with }⟩
  due none set := inv.due none fun zero => set (same.mpr zero)

theorem step (inv : PairInv s) (e : Event) (clock : ClockOk e) (noWrap : NoWrap s e) :
    PairInv (s.step e) := by
  cases e with
  | add json => exact inv.add json false
  | fetchNodes cached => exact inv.fetchNodes cached
  | arrive ok input => exact inv.arrive ok input
  | pass ds postOk calls =>
    have handled := inv.handlePending calls noWrap
    rw [Client.step, Client.pass]
    split
    · exact handled
    · rename_i none
      exact handled.submit (by simpa using none) ds postOk
  | wait ds =>
    rw [Client.step]
    split
    · exact inv.setTimer (BackoffTimer.update_settled inv.settled)
        (BackoffTimer.update_next_eq_zero_iff _ _ _)
    · exact inv
  | abortBackoff ds =>
    exact inv.setTimer (BackoffTimer.arm_settled inv.settled)
      (BackoffTimer.arm_next_eq_zero_iff clock inv.settled)

end PairInv

instance : (e : Event) → Decidable (ClockOk e)
  | .pass ds _ _ => inferInstanceAs (Decidable (1 ≤ ds))
  | .wait ds => inferInstanceAs (Decidable (1 ≤ ds))
  | .abortBackoff ds => inferInstanceAs (Decidable (1 ≤ ds))
  | .add _ | .fetchNodes _ | .arrive _ _ => isTrue trivial

instance (s : Client) : (e : Event) → Decidable (NoWrap s e)
  | .pass ds _ _ =>
    inferInstanceAs (Decidable (∀ q ∈ s.pendingcs, Client.Rejected q → ds + s.btcs.delta ≠ 0))
  | .add _ | .fetchNodes _ | .arrive _ _ | .wait _ | .abortBackoff _ => isTrue trivial

instance (s : Client) : (e : Event) → Decidable (ReloadIdle s e)
  | .fetchNodes false => inferInstanceAs
      (Decidable (s.fetchingNodes = false → s.pendingcs = none ∧ s.btcs.next = 0))
  | .fetchNodes true | .add _ | .pass _ _ _ | .arrive _ _ | .wait _ | .abortBackoff _ =>
    isTrue trivial

/-- In every run at positive clock values in which no retry is scheduled for the wrapped
clock value zero, results reach the commands of their request and retries repeat it. -/
theorem paired_run (reqid : Bytes) (events : List Event)
    (meets : Meets Client.step (fun s e => ClockOk e ∧ NoWrap s e) (Client.start reqid) events) :
    Paired (run Client.step (Client.start reqid) events) :=
  (run_invariant PairInv (fun _ e inv cond => inv.step e cond.1 cond.2)
    (PairInv.start reqid) meets).paired

/-- A request fails, a command is queued meanwhile, the retry succeeds, and then the
queued command is sent. -/
def retryRun : List Event :=
  [.add (ascii "\"a\":\"ug\""), .pass 1 true [], .add (ascii "\"a\":\"uq\""),
    .arrive false [], .pass 5 true [], .wait 6, .abortBackoff 7, .pass 7 true [],
    .arrive true (ascii "[0]"), .pass 8 true [], .arrive true (ascii "[0]"), .pass 9 true []]

theorem paired_retryRun :
    (run Client.step (Client.start (ascii "aaaaaaaaaz")) retryRun).log.retries.length = 1 ∧
      (run Client.step (Client.start (ascii "aaaaaaaaaz")) retryRun).log.processed.length = 2 ∧
      Paired (run Client.step (Client.start (ascii "aaaaaaaaaz")) retryRun) :=
  ⟨by decide, by decide, paired_run _ _ (by decide)⟩

/-- The first request fails one decisecond before the clock wraps. -/
def wrapRun : List Event :=
  [.add (ascii "\"a\":\"ug\""), .pass 1 true [], .add (ascii "\"a\":\"uq\""),
    .arrive false [], .pass 0xFFFFFFFF true []]

/-- The new batch is then sent in place of the failed one, under its id. -/
theorem wrapRun_unpaired :
    ¬ ∀ reqid events, Meets Client.step (fun _ e => ClockOk e) (Client.start reqid) events →
      Paired (run Client.step (Client.start reqid) events) := by
  intro always
  have paired := always (ascii "aaaaaaaaaa") wrapRun (by decide)
  let ug : List Command := [⟨0, ascii "\"a\":\"ug\"", false⟩]
  let uq : List Command := [⟨1, ascii "\"a\":\"uq\"", false⟩]
  have resent := paired.retried
    (⟨.failure, Request.get ug, [], ascii "aaaaaaaaaa", ug, 1⟩,
      ⟨.inflight, Request.get uq, [], ascii "aaaaaaaaaa", uq, 1⟩) (by decide)
  exact absurd resent.1 (by decide)

end MegaSdk.Api
