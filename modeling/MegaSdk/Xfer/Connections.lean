import MegaSdk.Xfer.Slot

/-!
# What becomes of the connections of a transfer

A pass of doio that neither completes nor fails the transfer should leave every
connection in a state that leads on: in flight, prepared, done, or waiting for a
read that is to be repeated. A connection that the server refused for the transfer
limit is handled by no branch that changes its state, so its chunk is not requested
again; the other connections all go on if their requests go out.
-/

namespace MegaSdk.Xfer

open Crypto Api Runs

/-- A connection whose chunk is done or will be requested. -/
def GoesOn (env : ConnEnv) (r : HttpReqXfer) : Prop :=
  r.status = .inflight ∨ r.status = .prepared ∨ r.status = .done ∨
    r.status = .ready ∧ env.retry = true

instance (env : ConnEnv) (r : HttpReqXfer) : Decidable (GoesOn env r) :=
  inferInstanceAs (Decidable (_ ∨ _))

/-- All connections go on. The environments are listed as doio serves the connections. -/
def AllGoOn : List ConnEnv → List (Option HttpReqXfer) → Prop
  | _, [] => True
  | envs, r :: rest => (∀ q ∈ r, GoesOn (envs.headD {}) q) ∧ AllGoOn envs.tail rest

def Limited (r : HttpReqXfer) : Prop := r.status = .failure ∧ r.httpstatus = 509

/-- A connection that asks for the next chunk in its turn. -/
def takes (job : Job) : Option HttpReqXfer → Prop
  | none => True
  | some r => r.status = .ready ∨
      r.status = .success ∧ (job.type = .put ∨ r.size = r.buf.length)

/-- A connection that requests its chunk again in its turn. -/
def repeats (job : Job) : Option HttpReqXfer → Prop
  | none => False
  | some r => r.status = .prepared ∨
      r.status = .success ∧ job.type = .get ∧ r.size ≠ r.buf.length

def handsOut (job : Job) (env : ConnEnv) (t : Transfer) : Prop :=
  (chunkEnd t.size t.pos > t.pos ∨ t.size = 0) ∧
    (prepare job env t (chunkEnd t.size t.pos)).isSome = true

def takesChunk (job : Job) (env : ConnEnv) (t : Transfer) (r : Option HttpReqXfer) : Prop :=
  takes job r ∧ handsOut job env t

instance (job : Job) (r : Option HttpReqXfer) : Decidable (takes job r) := by
  cases r <;> unfold takes <;> infer_instance

instance (job : Job) (r : Option HttpReqXfer) : Decidable (repeats job r) := by
  cases r <;> unfold repeats <;> infer_instance

instance (job : Job) (env : ConnEnv) (t : Transfer) : Decidable (handsOut job env t) :=
  inferInstanceAs (Decidable (_ ∧ _))

instance (job : Job) (env : ConnEnv) (t : Transfer) (r : Option HttpReqXfer) :
    Decidable (takesChunk job env t r) :=
  inferInstanceAs (Decidable (_ ∧ _))

/-- The transfer after the next chunk has been handed out, if it can be. -/
def handOut (job : Job) (env : ConnEnv) (t : Transfer) : Transfer :=
  if handsOut job env t then { t with pos := chunkEnd t.size t.pos } else t

/-- The transfer after the turn of a connection, as far as the later connections depend
on it. -/
def afterTurn (job : Job) (env : ConnEnv) (t : Transfer) (r : Option HttpReqXfer) : Transfer :=
  if takes job r then handOut job env t else t

/-- No connection is refused for the transfer limit, and every request that is to be posted
goes out. -/
def Unhindered (job : Job) : List ConnEnv → Transfer → List (Option HttpReqXfer) → Prop
  | _, _, [] => True
  | envs, t, r :: rest =>
    ((∀ q ∈ r, ¬ Limited q) ∧
      (takesChunk job (envs.headD {}) t r ∨ repeats job r → (envs.headD {}).postOk = true)) ∧
    Unhindered job envs.tail (afterTurn job (envs.headD {}) t r) rest

/-- Two states of a transfer that hand out the same chunks. -/
structure SameSource (job : Job) (t t' : Transfer) : Prop where
  size : t'.size = t.size
  pos : t'.pos = t.pos
  file : job.type = .put → t'.file = t.file

namespace SameSource

theorem refl (job : Job) (t : Transfer) : SameSource job t t := ⟨rfl, rfl, fun _ => rfl⟩

/-- Whether a chunk can be prepared does not depend on the chunk MACs. -/
theorem prepare_isSome {job : Job} {t t' : Transfer} (same : SameSource job t t') (env : ConnEnv)
    (npos : Nat) : (prepare job env t' npos).isSome = (prepare job env t npos).isSome := by
  unfold prepare
  cases type : job.type with
  | get => rfl
  | put =>
    dsimp only
    rw [same.file type, same.pos]
    split
    · rw [Option.isSome_map, Option.isSome_map, prepareUL, prepareUL]
      dsimp only
      split <;> rfl
    · rfl

theorem trans {job : Job} {t t' t'' : Transfer} (same : SameSource job t t')
    (same' : SameSource job t' t'') : SameSource job t t'' :=
  ⟨same'.size.trans same.size, same'.pos.trans same.pos,
    fun put => (same'.file put).trans (same.file put)⟩

theorem handsOut_iff {job : Job} {t t' : Transfer} (same : SameSource job t t') (env : ConnEnv) :
    handsOut job env t' ↔ handsOut job env t := by
  rw [handsOut, handsOut, same.prepare_isSome, same.size, same.pos]

theorem handOut {job : Job} {t t' : Transfer} (same : SameSource job t t') (env : ConnEnv) :
    SameSource job (Xfer.handOut job env t) (Xfer.handOut job env t') := by
  unfold Xfer.handOut
  simp only [same.handsOut_iff]
  split
  · exact ⟨same.size, by rw [same.size, same.pos], same.file⟩
  · exact same

theorem afterTurn {job : Job} {t t' : Transfer} (same : SameSource job t t') (env : ConnEnv)
    (r : Option HttpReqXfer) :
    SameSource job (Xfer.afterTurn job env t r) (Xfer.afterTurn job env t' r) := by
  unfold Xfer.afterTurn
  split
  · exact same.handOut env
  · exact same

theorem unhindered_iff {job : Job} {t t' : Transfer} (same : SameSource job t t')
    (envs : List ConnEnv) (reqs : List (Option HttpReqXfer)) :
    Unhindered job envs t' reqs ↔ Unhindered job envs t reqs := by
  induction reqs generalizing envs t t' with
  | nil => exact Iff.rfl
  | cons r rest ih =>
    rw [Unhindered, Unhindered, takesChunk, takesChunk, same.handsOut_iff,
      ih (same.afterTurn (envs.headD {}) r)]

end SameSource

section Pass
variable {job : Job} {ds : DsTime} {env : ConnEnv}

/-- An upload request that succeeds without ending the transfer makes its connection idle. -/
theorem succeedPut_turn {io io' : Io} {r r' : HttpReqXfer}
    (succeeded : succeedPut job io r = (io', r', none)) :
    io'.s.failure = io.s.failure ∧ io'.t = io.t ∧ r'.status = .ready := by
  unfold succeedPut at succeeded
  split at succeeded
  · cases succeeded
    exact ⟨rfl, rfl, rfl⟩
  · dsimp only at succeeded
    split at succeeded <;> cases succeeded

/-- A download request that succeeds without ending the transfer makes its connection idle,
or asks for its chunk again. -/
theorem succeedGet_turn {io io' : Io} {r r' : HttpReqXfer}
    (succeeded : succeedGet job env io r = (io', r', none)) :
    io'.s.failure = io.s.failure ∧ io'.t.size = io.t.size ∧ io'.t.pos = io.t.pos ∧
      r'.status = if r.size = r.buf.length then .ready else .prepared := by
  unfold succeedGet at succeeded
  split at succeeded
  · rename_i whole
    rw [if_pos whole]
    dsimp only at succeeded
    split at succeeded
    · split at succeeded
      · cases succeeded
      · split at succeeded <;> cases succeeded
    · cases succeeded
      exact ⟨rfl, rfl, rfl, rfl⟩
  · rename_i short
    rw [if_neg short]
    cases succeeded
    exact ⟨rfl, rfl, rfl, rfl⟩

/-- The status switch, when it neither ends the transfer nor reports a failed chunk. -/
theorem handle_turn {io io' : Io} {r r' : HttpReqXfer}
    (handled : handle job ds env io r = (io', r', none)) (fine : io'.s.failure = false) :
    io.s.failure = false ∧ SameSource job io.t io'.t ∧
      ((takes job (some r) ∧ r'.status = .ready) ∨
        (repeats job (some r) ∧ r'.status = .prepared) ∨
        (r.status = .inflight ∨ r.status = .done ∨ Limited r) ∧ r' = r) := by
  unfold handle at handled
  cases status : r.status with
  | inflight =>
    simp only [status] at handled
    cases handled
    exact ⟨fine, .refl job _, Or.inr (Or.inr ⟨Or.inl rfl, rfl⟩)⟩
  | success =>
    simp only [status] at handled
    cases type : job.type with
    | put =>
      simp only [type] at handled
      obtain ⟨failure, same, idle⟩ := succeedPut_turn handled
      refine ⟨failure ▸ fine, ?_, Or.inl ⟨Or.inr ⟨status, Or.inl type⟩, idle⟩⟩
      rw [same]
      exact .refl job _
    | get =>
      simp only [type] at handled
      obtain ⟨failure, size, pos, after⟩ := succeedGet_turn handled
      have put : job.type = .put → io'.t.file = io.t.file := by simp [type]
      refine ⟨failure ▸ fine, ⟨size, pos, put⟩, ?_⟩
      by_cases whole : r.size = r.buf.length
      · rw [if_pos whole] at after
        exact Or.inl ⟨Or.inr ⟨status, Or.inr whole⟩, after⟩
      · rw [if_neg whole] at after
        exact Or.inr (Or.inl ⟨Or.inr ⟨status, type, whole⟩, after⟩)
  | failure =>
    simp only [status] at handled
    split at handled
    · rename_i limit
      cases handled
      exact ⟨fine, .refl job _, Or.inr (Or.inr ⟨Or.inr (Or.inr ⟨status, limit⟩), rfl⟩)⟩
    · cases handled
      exact absurd fine (by simp)
  | ready =>
    simp only [status] at handled
    cases handled
    exact ⟨fine, .refl job _, Or.inl ⟨Or.inl status, status⟩⟩
  | prepared =>
    simp only [status] at handled
    cases handled
    exact ⟨fine, .refl job _, Or.inr (Or.inl ⟨Or.inl status, status⟩)⟩
  | done =>
    simp only [status] at handled
    cases handled
    exact ⟨fine, .refl job _, Or.inr (Or.inr ⟨Or.inr (Or.inl rfl), rfl⟩)⟩

/-- A prepared request is in flight afterwards if it goes out. -/
theorem goesOn_post_iff {r : HttpReqXfer} (prepared : r.status = .prepared) :
    GoesOn env (post env r) ↔ env.postOk = true := by
  unfold post GoesOn
  rw [if_pos prepared]
  cases env.postOk <;> simp

theorem post_of_status {r : HttpReqXfer} (other : r.status ≠ .prepared) : post env r = r := by
  rw [post, if_neg other]

/-- A turn of an idle connection: it posts the chunk that it is given, waits for a repeated
read, or is done. -/
theorem assign_turn {io io' : Io} {r r' : Option HttpReqXfer} (idler : idle r = true)
    (assigned : assign job env io r = (io', r', none)) :
    io'.s = io.s ∧ SameSource job (handOut job env io.t) io'.t ∧
      ((∀ q ∈ r'.map (post env), GoesOn env q) ↔
        (handsOut job env io.t → env.postOk = true)) := by
  unfold assign at assigned
  dsimp only at assigned
  split at assigned
  · rename_i left
    cases made : prepare job env io.t (chunkEnd io.t.size io.t.pos) with
    | some macs =>
      have out : handsOut job env io.t := ⟨left, by rw [made]; rfl⟩
      rw [made] at assigned
      cases assigned
      refine ⟨rfl, ?_, ?_⟩
      · rw [handOut, if_pos out]
        exact ⟨rfl, rfl, fun _ => rfl⟩
      · simpa [out] using goesOn_post_iff rfl
    | none =>
      have out : ¬ handsOut job env io.t := by simp [handsOut, made]
      rw [made] at assigned
      dsimp only at assigned
      split at assigned
      · rename_i again
        cases assigned
        refine ⟨rfl, ?_, ?_⟩
        · rw [handOut, if_neg out]
          exact .refl job _
        · simp [out, post, GoesOn, newReq, again]
      · cases assigned
  · rename_i left
    have out : ¬ handsOut job env io.t := fun out => left out.1
    cases assigned
    refine ⟨rfl, ?_, ?_⟩
    · rw [handOut, if_neg out]
      exact .refl job _
    · cases r <;> simp [out, post, GoesOn]

theorem advance_idle {io io' : Io} {r r' : Option HttpReqXfer} (idler : idle r = true)
    (fine : io.s.failure = false) (advanced : advance job env io r = (io', r', none)) :
    io'.s = io.s ∧ SameSource job (handOut job env io.t) io'.t ∧
      ((∀ q ∈ r', GoesOn env q) ↔ (handsOut job env io.t → env.postOk = true)) := by
  unfold advance at advanced
  simp only [fine, idler, Bool.false_eq_true, if_false, if_true] at advanced
  split at advanced
  · cases advanced
  · rename_i assigned
    cases advanced
    exact assign_turn idler assigned

/-- A turn of any other connection: a prepared request goes out. -/
theorem advance_busy {io : Io} {r : HttpReqXfer} (busy : r.status ≠ .ready)
    (fine : io.s.failure = false) :
    advance job env io (some r) = (io, some (post env r), none) := by
  have other : idle (some r) = false := by simpa [idle] using busy
  unfold advance
  simp [fine, other]

/-- Once a chunk has failed, the connections wait. -/
theorem advance_failed {io : Io} (r : Option HttpReqXfer) (failed : io.s.failure = true) :
    advance job env io r = (io, r, none) := by
  rw [advance, if_pos failed]

/-- No chunk had failed before a turn after which none has. -/
theorem advance_fine {io io' : Io} {r r' : Option HttpReqXfer}
    (advanced : advance job env io r = (io', r', none)) (fine : io'.s.failure = false) :
    io.s.failure = false := by
  by_contra failed
  rw [advance_failed r (by simpa using failed)] at advanced
  cases advanced
  exact failed fine

omit env in
/-- A connection that asks for the next chunk neither asks for its own again nor is limited. -/
theorem takes_apart {r : HttpReqXfer} (taker : takes job (some r)) :
    ¬ Limited r ∧ ¬ repeats job (some r) := by
  simp only [takes, Limited, repeats] at taker ⊢
  rcases taker with status | ⟨status, put | whole⟩
  · simp [status]
  · simp [status, put]
  · simp [status, whole]

omit env in
theorem repeats_apart {r : HttpReqXfer} (repeater : repeats job (some r)) :
    ¬ Limited r ∧ ¬ takes job (some r) := by
  simp only [takes, Limited, repeats] at repeater ⊢
  rcases repeater with status | ⟨status, get, short⟩
  · simp [status]
  · simp [status, get, short]

/-- The turn of one connection. -/
theorem serve_turn {io io' : Io} {r r' : Option HttpReqXfer}
    (served : serve job ds env io r = (io', r', none)) (fine : io'.s.failure = false) :
    io.s.failure = false ∧ SameSource job (afterTurn job env io.t r) io'.t ∧
      ((∀ q ∈ r', GoesOn env q) ↔ (∀ q ∈ r, ¬ Limited q) ∧
        (takesChunk job env io.t r ∨ repeats job r → env.postOk = true)) := by
  cases r with
  | none =>
    have before := advance_fine served fine
    obtain ⟨_, same, goes⟩ := advance_idle rfl before served
    refine ⟨before, ?_, ?_⟩
    · rwa [afterTurn, if_pos (show takes job none from trivial)]
    · rw [goes]
      simp [takesChunk, takes, repeats]
  | some r =>
    rw [serve] at served
    split at served
    · cases served
    · rename_i io₁ r₁ handled
      have before := advance_fine served fine
      obtain ⟨failure, same, outcome⟩ := handle_turn handled before
      refine ⟨failure, ?_⟩
      rcases outcome with ⟨taker, ready⟩ | ⟨repeater, prepared⟩ | ⟨other, rfl⟩
      · obtain ⟨_, same', goes⟩ := advance_idle (by simpa [idle] using ready) before served
        rw [afterTurn, if_pos taker, goes, same.handsOut_iff]
        exact ⟨(same.handOut env).trans same', by simp [takesChunk, taker, takes_apart taker]⟩
      · rw [advance_busy (by simp [prepared]) before] at served
        cases served
        rw [afterTurn, if_neg (repeats_apart repeater).2]
        refine ⟨same, ?_⟩
        simpa [takesChunk, repeater, repeats_apart repeater] using @goesOn_post_iff env _ prepared
      · have apart : ¬ takes job (some r₁) ∧ ¬ repeats job (some r₁) ∧ r₁.status ≠ .ready ∧
            r₁.status ≠ .prepared := by
          rcases other with status | status | ⟨status, _⟩ <;> simp [takes, repeats, status]
        rw [advance_busy apart.2.2.1 before, post_of_status apart.2.2.2] at served
        cases served
        rw [afterTurn, if_neg apart.1]
        refine ⟨same, ?_⟩
        rcases other with status | status | limited
        · simp [GoesOn, Limited, takesChunk, apart, status]
        · simp [GoesOn, Limited, takesChunk, apart, status]
        · simp [GoesOn, takesChunk, apart, limited, limited.1]

end Pass

/-- The loop over the connections. -/
theorem serveAll_turns (job : Job) (ds : DsTime) (envs : List ConnEnv) {io io' : Io}
    {reqs reqs' : List (Option HttpReqXfer)}
    (served : serveAll job ds envs io reqs = (io', reqs', none)) (fine : io'.s.failure = false) :
    io.s.failure = false ∧ (AllGoOn envs reqs' ↔ Unhindered job envs io.t reqs) := by
  induction reqs generalizing envs io reqs' with
  | nil =>
    cases served
    exact ⟨fine, Iff.rfl⟩
  | cons r rest ih =>
    rw [serveAll] at served
    split at served
    · cases served
    · rename_i io₁ r₁ turn
      generalize tail : serveAll job ds envs.tail io₁ rest = result at served
      obtain ⟨io₂, rest', v⟩ := result
      cases served
      obtain ⟨failure₁, others⟩ := ih envs.tail tail
      obtain ⟨failure, same, goes⟩ := serve_turn turn failure₁
      refine ⟨failure, ?_⟩
      rw [AllGoOn, Unhindered, goes, others, same.unhindered_iff]

/-- A connection that was refused for the transfer limit ends its turn as it began it. -/
theorem serve_limited (job : Job) (ds : DsTime) (env : ConnEnv) (io : Io) {r : HttpReqXfer}
    (limited : Limited r) :
    serve job ds env io (some r) = ({ io with backoff := 6000 }, some r, none) := by
  have handled : handle job ds env io r = ({ io with backoff := 6000 }, r, none) := by
    simp [handle, limited.1, limited.2]
  rw [serve, handled]
  dsimp only
  by_cases failed : io.s.failure = true
  · exact advance_failed (some r) failed
  · rw [advance_busy (by simp [limited.1]) (by simpa using failed)]
    rw [post_of_status (by simp [limited.1])]

theorem serveAll_limited (job : Job) (ds : DsTime) (envs : List ConnEnv) (io : Io)
    {reqs : List (Option HttpReqXfer)} {i : Nat} {r : HttpReqXfer}
    (conn : reqs[i]? = some (some r)) (limited : Limited r) :
    (serveAll job ds envs io reqs).2.1[i]? = some (some r) := by
  induction reqs generalizing envs io i with
  | nil => cases conn
  | cons q rest ih =>
    rw [serveAll]
    cases i with
    | zero =>
      cases conn
      rw [serve_limited job ds _ io limited]
      rfl
    | succ i =>
      split
      · exact conn
      · exact ih envs.tail _ conn

/-- The end of a pass leaves the connections alone, and clears no failure. -/
theorem wrapUp_slot (ds : DsTime) (io : Io) : ∃ s', (wrapUp ds io).slot = some s' ∧
    s'.reqs = io.s.reqs ∧ (s'.failure = false → io.s.failure = false) := by
  unfold wrapUp
  extract_lets p s₀ s₁ s₂ t backoff
  have reqs₁ : s₁.reqs = io.s.reqs := by
    simp only [s₁]
    split <;> rfl
  have failure₁ : s₁.failure = io.s.failure := by
    simp only [s₁]
    split <;> rfl
  have reqs₂ : s₂.reqs = s₁.reqs := by
    simp only [s₂]
    split <;> rfl
  have failure₂ : s₂.failure = false → s₁.failure = false := by
    simp only [s₂]
    split
    · simp
    · exact id
  refine ⟨s₂, ?_, reqs₂.trans reqs₁, fun fine => failure₁ ▸ failure₂ fine⟩
  split <;> rfl

/-- Such a connection is never posted again, however often doio runs. -/
theorem doio_limited (job : Job) (ds : DsTime) (envs : List ConnEnv) (s : Slot) (t : Transfer)
    {i : Nat} {r : HttpReqXfer} (conn : s.reqs[i]? = some (some r)) (limited : Limited r) :
    ∃ s', (doio job ds envs s t).slot = some s' ∧ s'.reqs[i]? = some (some r) := by
  unfold doio
  split
  · exact ⟨_, rfl, conn⟩
  · split
    · exact ⟨_, rfl, conn⟩
    · have kept := serveAll_limited job ds envs ⟨t, { s with retrying := false }, 0, 0⟩ conn limited
      dsimp only
      split
      · exact ⟨_, rfl, kept⟩
      · obtain ⟨s', slot, same, _⟩ := wrapUp_slot ds _
        exact ⟨s', slot, same ▸ kept⟩

/-- A pass that neither completes nor fails the transfer, and after which no chunk counts as
failed, lets every connection go on if and only if it was not hindered. Without a URL, no
connection has its turn. -/
theorem doio_allGoOn_iff (job : Job) (ds : DsTime) (envs : List ConnEnv) (s s' : Slot)
    (t : Transfer) (call : (doio job ds envs s t).call = none)
    (slot : (doio job ds envs s t).slot = some s') (fine : s'.failure = false) :
    AllGoOn envs s'.reqs ↔
      if s.tempurl = [] then AllGoOn envs s.reqs else Unhindered job envs t s.reqs := by
  unfold doio at call slot
  split at slot
  · rename_i closed
    rw [if_pos closed] at call
    cases call
  · rename_i closed
    rw [if_neg closed] at call
    split at slot
    · rename_i url
      rw [if_pos url]
      cases slot
      exact Iff.rfl
    · rename_i url
      rw [if_neg url] at call ⊢
      dsimp only at call slot
      generalize served : serveAll job ds envs ⟨t, { s with retrying := false }, 0, 0⟩ s.reqs =
        result at call slot
      obtain ⟨io, reqs, v⟩ := result
      cases v with
      | some v => cases call
      | none =>
        obtain ⟨s₁, after, same, failure⟩ :=
          wrapUp_slot ds { io with s := { io.s with reqs := reqs } }
        cases after.symm.trans slot
        rw [same]
        exact (serveAll_turns job ds envs served (failure fine)).2

def oneConnection (r : HttpReqXfer) : Slot :=
  { newSlot 1 1 3 with tempurl := ascii "http://gfs/dl", reqs := [some r] }

/-- A chunk of three bytes came short and is requested again. -/
theorem allGoOn_short :
    let r := { newReq 0 3 .success with buf := [7] }
    let t := queued 3 (some [])
    ∃ s', (doio sampleJob 2 [] (oneConnection r) t).slot = some s' ∧
      (AllGoOn [] s'.reqs ↔ if (oneConnection r).tempurl = [] then AllGoOn [] [some r]
        else Unhindered sampleJob [] t [some r]) :=
  ⟨_, rfl, doio_allGoOn_iff sampleJob 2 [] _ _ _ rfl rfl rfl⟩

/-- A transfer whose only connection is refused for the transfer limit. -/
def limitedRun : List Event :=
  [.dispatch 1 .ok 4, .source 2 (ascii "http://gfs/dl"), .doio 3 [], .network 0 (.failure 509)]

/-- The next pass of doio leaves that connection failed. -/
theorem limited_stuck :
    ¬ ∀ (job : Job) (size : Nat) (file : Option Bytes) (events : List Event) (ds : DsTime)
      (envs : List ConnEnv) (s s' : Slot),
      (run (step job) (queued size file) events).slot = some s →
      (doio job ds envs s (run (step job) (queued size file) events)).call = none →
      (doio job ds envs s (run (step job) (queued size file) events)).slot = some s' →
      s'.failure = false → AllGoOn envs s'.reqs := by
  intro always
  have goes := always sampleJob 3 none limitedRun 4 [] _ _ rfl rfl rfl rfl
  have stuck := goes.1 _ rfl
  revert stuck
  decide

end MegaSdk.Xfer
