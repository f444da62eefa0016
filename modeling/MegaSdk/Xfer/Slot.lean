import MegaSdk.Api.BackoffTimer
import MegaSdk.Base64
import MegaSdk.Xfer.ChunkCrypt
import MegaSdk.Lib.Runs

/-!
# The file transfer state machine

`TransferSlot` of transferslot.cpp with `Transfer::failed`, `Transfer::complete`
and the parts of `MegaClient::dispatch` and `MegaClient::exec` that act on one
transfer. A doio step that ends by failing or completing the transfer leaves that
call pending, and carrying it out is a step of its own. The environment chooses
clock values, network events, file system outcomes and the files' wishes.
-/

namespace MegaSdk.Xfer

open Crypto Api

/-- `direction_t`. -/
inductive Direction where
  | get | put
  deriving DecidableEq

/-- What stays fixed once the keys of a transfer are set up. -/
structure Job where
  type : Direction
  ecb : Block → Block
  key : Block
  ctriv : UInt64
  metamac : UInt64

/-- `HttpReqDL` or `HttpReqUL`: one chunk on one connection. `buf` holds the bytes
received, so its length is `bufpos`; `sent` is the progress of an upload. -/
structure HttpReqXfer where
  status : ReqStatus
  pos : Nat
  size : Nat
  buf : Bytes
  sent : Nat
  httpstatus : Nat
  input : Bytes
  deriving DecidableEq

/-- `TransferSlot`. `reqs` lists the connections in the order in which doio serves them,
highest index first. `fa` says whether the slot still owns its file. -/
structure Slot where
  fa : Bool
  tempurl : Bytes
  reqs : List (Option HttpReqXfer)
  progressCompleted : Nat
  progressReported : Nat
  lastData : DsTime
  errorCount : Nat
  failure : Bool
  retrying : Bool
  retrybt : BackoffTimer
  ultoken : Bytes

inductive Verdict where
  | complete
  | failed (e : Int)
  deriving DecidableEq

/-- `Transfer` with the file at its `localfilename`. `plain` is bookkeeping: the decrypted
bytes of the chunks recorded in `chunkmacs`. `call` is the pending call of `failed` or
`complete`, and a deleted transfer is no longer `live`. -/
structure Transfer where
  size : Nat
  pos : Nat
  chunkmacs : ChunkMacs
  plain : Std.ExtTreeMap Nat Bytes
  slot : Option Slot
  file : Option Bytes
  filekey : Bytes
  bt : BackoffTimer
  failcount : Nat
  call : Option Verdict
  live : Bool

/-- The environment of one connection in one doio pass: whether the source can be read and
whether a failed read is to be repeated, what fills the receive buffer's last block, how
many bytes a write gets done (all, unless given) and whether a post goes out. -/
structure ConnEnv where
  readable : Bool := true
  retry : Bool := false
  padding : Nat → UInt8 := fun _ => 0
  written : Option Nat := none
  postOk : Bool := true

/-- Loop variables of doio together with what it changes. -/
structure Io where
  t : Transfer
  s : Slot
  backoff : DsTime
  p : Nat

/-- `XFERTIMEOUT`, in deciseconds. -/
def xferTimeout : DsTime := 600

def uploadTokenLen : Nat := 27

/-- A positioned write that may get only part of its data done. -/
def fwrite (written : Option Nat) (file data : Bytes) (pos : Nat) : Bytes :=
  ByteFile.write 0 file (data.take (written.getD data.length)) pos

def decrypted (job : Job) (env : ConnEnv) (r : HttpReqXfer) : Bytes :=
  (ctrCrypt job.ecb (buffer r.buf env.padding) r.buf.length r.pos job.ctriv false).1.take
    r.buf.length

/-- Decrypt a received chunk into the file and record it. -/
def finalize (job : Job) (env : ConnEnv) (r : HttpReqXfer) (t : Transfer) : Transfer :=
  let done := finalizeDL job.ecb (fwrite env.written) (t.file.getD []) t.chunkmacs job.ctriv 0 none
    (buffer r.buf env.padding) r.buf.length r.pos
  { t with
    file := t.file.map fun _ => done.1
    chunkmacs := done.2
    plain := t.plain.insert r.pos (decrypted job env r) }

/-- An upload request succeeded; the last one returns the upload token or an error. -/
def succeedPut (job : Job) (io : Io) (r : HttpReqXfer) : Io × HttpReqXfer × Option Verdict :=
  let io := { io with s := { io.s with errorCount := 0 } }
  if r.input = [] then (io, { r with status := .ready }, none)
  else
    let token := Base64.atob r.input (uploadTokenLen + 1)
    if r.input.length = uploadTokenLen * 4 / 3 ∧ token.length = uploadTokenLen then
      let mac := macsMac job.ecb io.t.chunkmacs
      let t := { io.t with
        filekey := fileKey job.key job.ctriv mac.1, chunkmacs := mac.2, plain := ∅ }
      ({ io with t := t, s := { io.s with ultoken := token } }, r, some .complete)
    else (io, r, some (.failed (atoi r.input)))

/-- A download request succeeded: record the chunk, or fetch it again if it is short. -/
def succeedGet (job : Job) (env : ConnEnv) (io : Io) (r : HttpReqXfer) :
    Io × HttpReqXfer × Option Verdict :=
  if r.size = r.buf.length then
    let io := { io with s := { io.s with errorCount := 0 }, t := finalize job env r io.t }
    if io.s.progressCompleted = io.t.size then
      -- verify meta MAC
      if io.s.progressCompleted = 0 then (io, r, some .complete)
      else
        let mac := macsMac job.ecb io.t.chunkmacs
        let io := { io with t := { io.t with chunkmacs := mac.2, plain := ∅ } }
        if mac.1 = job.metamac then (io, r, some .complete)
        else (io, r, some (.failed ApiError.key.code))
    else (io, { r with status := .ready }, none)
  else
    ({ io with s := { io.s with errorCount := io.s.errorCount + 1 } },
      { r with status := .prepared }, none)

def handle (job : Job) (ds : DsTime) (env : ConnEnv) (io : Io) (r : HttpReqXfer) :
    Io × HttpReqXfer × Option Verdict :=
  match r.status with
  | .inflight =>
    let transferred := match job.type with
      | .get => r.buf.length
      | .put => r.sent
    ({ io with p := io.p + transferred }, r, none)
  | .success =>
    let s := { io.s with lastData := ds, progressCompleted := io.s.progressCompleted + r.size }
    match job.type with
    | .put => succeedPut job { io with s := s } r
    | .get => succeedGet job env { io with s := s } r
  | .failure =>
    if r.httpstatus = 509 then ({ io with backoff := 6000 }, r, none)
    else ({ io with s := { io.s with failure := true } }, { r with status := .prepared }, none)
  | .ready | .prepared | .done => (io, r, none)

/-- A request object for the chunk `[pos, npos)`. -/
def newReq (pos npos : Nat) (status : ReqStatus) : HttpReqXfer :=
  ⟨status, pos, (npos - pos) % 2 ^ 32, [], 0, 0, []⟩

/-- `HttpReqXfer::prepare`: the chunk MACs afterwards, or `none` if the source could not be
read. -/
def prepare (job : Job) (env : ConnEnv) (t : Transfer) (npos : Nat) : Option ChunkMacs :=
  match job.type with
  | .get => some t.chunkmacs
  | .put =>
    if env.readable then
      (prepareUL job.ecb (t.file.getD []) job.ctriv t.pos npos t.chunkmacs).map Prod.snd
    else none

def assign (job : Job) (env : ConnEnv) (io : Io) (r : Option HttpReqXfer) :
    Io × Option HttpReqXfer × Option Verdict :=
  let npos := chunkEnd io.t.size io.t.pos
  if npos > io.t.pos ∨ io.t.size = 0 then
    match prepare job env io.t npos with
    | some macs =>
      ({ io with t := { io.t with chunkmacs := macs, pos := npos } },
        some (newReq io.t.pos npos .prepared), none)
    | none =>
      if env.retry then ({ io with backoff := 2 }, some (newReq io.t.pos npos .ready), none)
      else (io, some (newReq io.t.pos npos .ready), some (.failed ApiError.read.code))
  else (io, r.map fun r => { r with status := .done }, none)

/-- `HttpReq::post` of a prepared request. -/
def post (env : ConnEnv) (r : HttpReqXfer) : HttpReqXfer :=
  if r.status = .prepared then
    ⟨if env.postOk then .inflight else .failure, r.pos, r.size, [], 0, 0, []⟩
  else r

/-- An idle connection: no request yet, or one that is done with its chunk. -/
def idle : Option HttpReqXfer → Bool
  | none => true
  | some r => r.status = .ready

def advance (job : Job) (env : ConnEnv) (io : Io) (r : Option HttpReqXfer) :
    Io × Option HttpReqXfer × Option Verdict :=
  if io.s.failure then (io, r, none)
  else
    let step := if idle r then assign job env io r else (io, r, none)
    match step with
    | (io, r, some v) => (io, r, some v)
    | (io, r, none) => (io, r.map (post env), none)

def serve (job : Job) (ds : DsTime) (env : ConnEnv) (io : Io) :
    Option HttpReqXfer → Io × Option HttpReqXfer × Option Verdict
  | none => advance job env io none
  | some r =>
    match handle job ds env io r with
    | (io, r, some v) => (io, some r, some v)
    | (io, r, none) => advance job env io (some r)

def serveAll (job : Job) (ds : DsTime) :
    List ConnEnv → Io → List (Option HttpReqXfer) → Io × List (Option HttpReqXfer) × Option Verdict
  | _, io, [] => (io, [], none)
  | envs, io, r :: rest =>
    match serve job ds (envs.headD {}) io r with
    | (io, r, some v) => (io, r :: rest, some v)
    | (io, r, none) =>
      let tail := serveAll job ds envs.tail io rest
      (tail.1, r :: tail.2.1, tail.2.2)

def wrapUp (ds : DsTime) (io : Io) : Transfer :=
  let p := io.p + io.s.progressCompleted
  let s := if p ≠ io.s.progressReported then { io.s with progressReported := p, lastData := ds }
    else io.s
  let s := if ds - s.lastData ≥ xferTimeout ∧ s.failure = false then { s with failure := true }
    else s
  if s.errorCount > 10 then
    { io.t with slot := some s, call := some (.failed ApiError.failed.code) }
  else
    let backoff := if io.backoff = 0 then xferTimeout - (ds - s.lastData) else io.backoff
    { io.t with slot := some s, bt := .backoffBy ds backoff }

def doio (job : Job) (ds : DsTime) (envs : List ConnEnv) (s : Slot) (t : Transfer) : Transfer :=
  if s.fa = false then
    -- a pending completion
    { t with
      slot := some { s with retrybt := .backoffBy ds 2, retrying := true }, call := some .complete }
  else if s.tempurl = [] then { t with slot := some { s with retrying := false } }
  else
    let result := serveAll job ds envs ⟨t, { s with retrying := false }, 0, 0⟩ s.reqs
    let io := { result.1 with s := { result.1.s with reqs := result.2.1 } }
    match result.2.2 with
    | some v => { io.t with slot := some io.s, call := some v }
    | none => wrapUp ds io

/-- `~TransferSlot`: the temporary file of a download is unlinked while the slot owns it. -/
def deleteSlot (job : Job) (t : Transfer) : Transfer :=
  match t.slot with
  | none => t
  | some s => { t with slot := none, file := if s.fa ∧ job.type = .get then none else t.file }

/-- `~Transfer`. -/
def delete (job : Job) (t : Transfer) : Transfer := { deleteSlot job t with live := false }

/-- `Transfer::failed`: if any file asks for it, the transfer is kept for a retry and only
its slot is deleted. -/
def failed (job : Job) (ds : DsTime) (defer : Bool) (t : Transfer) : Transfer :=
  let t := { t with bt := t.bt.backoff ds }
  if defer then { deleteSlot job t with failcount := t.failcount + 1 } else delete job t

/-- What becomes of a completed download: its fingerprint is wrong, all files are in place,
or some wait for another try (and the temporary file may already be moved away). -/
inductive Placement where
  | mismatch
  | placed
  | pending (moved : Bool)
  deriving DecidableEq

/-- `Transfer::complete`. An upload whose source changed counts as a mismatch. -/
def complete (job : Job) (ds : DsTime) (placement : Placement) (s : Slot) (t : Transfer) :
    Transfer :=
  match job.type with
  | .get =>
    let closed := { s with fa := false }
    match placement with
    | .mismatch =>
      { t with slot := some closed, file := none, call := some (.failed ApiError.write.code) }
    | .placed => delete job { t with slot := some closed, file := none }
    | .pending moved =>
      { t with
        slot := some { closed with retrying := true, retrybt := .backoffBy ds 11 }
        file := if moved then none else t.file }
  | .put =>
    match placement with
    | .mismatch => { t with call := some (.failed ApiError.read.code) }
    | .placed | .pending _ => delete job t

def settle (job : Job) (ds : DsTime) (defer : Bool) (placement : Placement) (t : Transfer) :
    Transfer :=
  match t.call with
  | none => t
  | some v =>
    let t := { t with call := none }
    match v with
    | .failed _ => failed job ds defer t
    | .complete =>
      match t.slot with
      | none => t
      | some s => complete job ds placement s t

/-- Downloads resume at the end of the last contiguous completed block. -/
def resumePos (size : Nat) : List Nat → Nat → Nat
  | [], pos => pos
  | p :: rest, pos =>
    if pos ≠ p then pos
    else resumePos size rest (if size ≠ 0 then chunkCeil pos else pos)

/-- Opening the local file: done, opened (and truncated, for writing) but without its
attributes, or refused. -/
inductive Opened where
  | ok | statFailed | refused
  deriving DecidableEq

/-- `TransferSlot::TransferSlot`. -/
def newSlot (ds : DsTime) (connections size : Nat) : Slot where
  fa := true
  tempurl := []
  reqs := List.replicate (if size > 131072 then connections else 1) none
  progressCompleted := 0
  progressReported := 0
  lastData := ds
  errorCount := 0
  failure := false
  retrying := false
  retrybt := .reset
  ultoken := []

/-- The part of `MegaClient::dispatch` that starts or resumes this transfer. -/
def dispatch (job : Job) (ds : DsTime) (opened : Opened) (connections : Nat) (t : Transfer) :
    Transfer :=
  let t := { t with slot := some (newSlot ds connections t.size) }
  -- opening for writing truncates
  let t := if job.type = .get ∧ opened ≠ .refused then { t with file := some [] } else t
  if opened = .ok then
    match job.type with
    | .put => { t with pos := 0, size := (t.file.getD []).length, chunkmacs := ∅, plain := ∅ }
    | .get => { t with pos := resumePos t.size t.chunkmacs.keys 0 }
  else { t with call := some (.failed ApiError.read.code) }

/-- What the network does to a request in flight. -/
inductive NetEvent where
  | data (bytes : Bytes)
  | sent (bytes : Nat)
  | success (input : Bytes)
  | failure (httpstatus : Nat)

def receive (e : NetEvent) (r : HttpReqXfer) : HttpReqXfer :=
  if r.status = .inflight then
    match e with
    | .data bytes => { r with buf := (r.buf ++ bytes).take r.size }
    | .sent n => { r with sent := n }
    | .success input => { r with status := .success, input := input }
    | .failure code => { r with status := .failure, httpstatus := code }
  else r

inductive Event where
  /-- `dispatch` picks this transfer. -/
  | dispatch (ds : DsTime) (opened : Opened) (connections : Nat)
  /-- The result of the command that asks for a temporary URL. -/
  | source (ds : DsTime) (url : Bytes)
  /-- That command, or the application, fails the transfer. -/
  | fail (e : Int)
  | network (conn : Nat) (e : NetEvent)
  | doio (ds : DsTime) (envs : List ConnEnv)
  | settle (ds : DsTime) (defer : Bool) (placement : Placement)
  /-- `exec` lets a slot with a failed chunk go on. -/
  | chunkRetry

/-- One step of a live transfer; while a call is pending, nothing else happens. -/
def act (job : Job) (t : Transfer) : Event → Transfer
  | .dispatch ds opened connections =>
    if t.slot.isNone ∧ t.bt.armed ds then dispatch job ds opened connections t else t
  | .source ds url =>
    match t.slot with
    | none => t
    | some s =>
      if url = [] then { t with call := some (.failed ApiError.internal.code) }
      else { t with slot := some { s with tempurl := url, lastData := ds } }
  | .fail e => if t.slot.isSome then { t with call := some (.failed e) } else t
  | .network conn e =>
    { t with slot := t.slot.map fun s =>
        { s with reqs := s.reqs.modify conn (Option.map (receive e)) } }
  | .doio ds envs =>
    match t.slot with
    | none => t
    | some s => if s.retrying ∧ s.retrybt.armed ds = false then t else doio job ds envs s t
  | .settle _ _ _ => t
  | .chunkRetry =>
    { t with slot := t.slot.map fun s =>
        if s.failure then { s with errorCount := s.errorCount + 1, failure := false } else s }

def step (job : Job) (t : Transfer) (e : Event) : Transfer :=
  if t.live = false then t
  else if t.call.isSome then
    match e with
    | .settle ds defer placement => settle job ds defer placement t
    | _ => t
  else act job t e

/-- A transfer whose keys have been set up and that was never dispatched. -/
def queued (size : Nat) (file : Option Bytes) : Transfer where
  size := size
  pos := 0
  chunkmacs := ∅
  plain := ∅
  slot := none
  file := file
  filekey := []
  bt := .reset
  failcount := 0
  call := none
  live := true

/-- A download under a toy cipher and an all-zero key. -/
def sampleJob : Job := ⟨.get, id, load [], 0, 0⟩

/-- One connection delivers `data` for a file of three bytes and reports success. -/
def threeByteRun (data : Bytes) : List Event :=
  [.dispatch 1 .ok 4, .source 2 (ascii "http://gfs/dl"), .doio 3 [], .network 0 (.data data),
    .network 0 (.success []), .doio 4 []]

end MegaSdk.Xfer
