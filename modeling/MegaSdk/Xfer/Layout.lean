import MegaSdk.Xfer.Slot
import Mathlib.Data.List.Nodup

/-!
# What a pass over the connections of a download can do

Each connection first handles the outcome of its request and then may take the
next chunk. The two relations below say all that can happen to the transfer, to
its byte count and to the connection's chunk; what is kept by both is kept by a
whole pass. The layout invariant is the first instance: chunks are handed out in
file order, each one to at most one connection.
-/

namespace MegaSdk.Xfer

open Crypto Api

def busy : Option HttpReqXfer → List (Nat × Nat)
  | none => []
  | some r => if r.status = .ready ∨ r.status = .done then [] else [(r.pos, r.pos + r.size)]

def busyAll (reqs : List (Option HttpReqXfer)) : List (Nat × Nat) := reqs.flatMap busy

@[simp] theorem busyAll_cons (r : Option HttpReqXfer) (rest : List (Option HttpReqXfer)) :
    busyAll (r :: rest) = busy r ++ busyAll rest := rfl

def inTransit (t : Transfer) : List (Nat × Nat) :=
  match t.slot with
  | none => []
  | some s => busyAll s.reqs

theorem inTransit_of_slot {t : Transfer} {s : Slot} (slot : t.slot = some s) :
    inTransit t = busyAll s.reqs := by
  rw [inTransit, slot]

theorem inTransit_of_none {t : Transfer} (slot : t.slot = none) : inTransit t = [] := by
  rw [inTransit, slot]

theorem busy_of_status {r q : HttpReqXfer} (pos : q.pos = r.pos) (size : q.size = r.size)
    (idle : q.status = .ready ∨ q.status = .done ↔ r.status = .ready ∨ r.status = .done) :
    busy (some q) = busy (some r) := by
  simp only [busy, pos, size, idle]

/-- The outcome of the request `r` of a download, on the transfer, the bytes counted as
completed and the connection's chunk. -/
inductive Handled (job : Job) (env : ConnEnv) (r : HttpReqXfer) :
    Transfer → Nat → List (Nat × Nat) → Transfer → Nat → List (Nat × Nat) → Prop
  | same (t : Transfer) (n : Nat) : Handled job env r t n (busy (some r)) t n (busy (some r))
  | short (t : Transfer) (n : Nat) (success : r.status = .success)
      (missing : r.buf.length ≠ r.size) :
      Handled job env r t n (busy (some r)) t (n + r.size) (busy (some r))
  | recorded (t : Transfer) (n : Nat) (success : r.status = .success)
      (whole : r.buf.length = r.size) (more : n + r.size ≠ t.size) :
      Handled job env r t n (busy (some r)) (finalize job env r t) (n + r.size) []

/-- A connection goes on with its chunk, or an idle one takes the next chunk. -/
inductive Advanced : Transfer → List (Nat × Nat) → Transfer → List (Nat × Nat) → Prop
  | same (t : Transfer) (c : List (Nat × Nat)) : Advanced t c t c
  | assigned (t : Transfer) (more : t.pos < chunkEnd t.size t.pos ∨ t.size = 0) :
      Advanced t [] { t with pos := chunkEnd t.size t.pos }
        [(t.pos, t.pos + (chunkEnd t.size t.pos - t.pos) % 2 ^ 32)]

/-- The last chunk is recorded; unless the file is empty, the chunk MACs are used up. -/
def ended (job : Job) (env : ConnEnv) (r : HttpReqXfer) (t : Transfer) : Transfer :=
  if t.size = 0 then finalize job env r t
  else { finalize job env r t with chunkmacs := ∅, plain := ∅ }

theorem ended_size (job : Job) (env : ConnEnv) (r : HttpReqXfer) (t : Transfer) :
    (ended job env r t).size = t.size := by
  rw [ended]
  split <;> rfl

/-- The pass ends at the request `r`, whose chunk completes the byte count `n`. -/
structure Ending (job : Job) (env : ConnEnv) (r : HttpReqXfer) (t : Transfer) (n : Nat) : Prop where
  success : r.status = .success
  whole : r.buf.length = r.size
  all : n + r.size = t.size

section Download
variable {job : Job} (get : job.type = .get) {ds : DsTime} {env : ConnEnv}
include get

variable (job ds env) in
omit get in
/-- Handling a request never closes the file. -/
theorem handle_fa (io : Io) (r : HttpReqXfer) : (handle job ds env io r).1.s.fa = io.s.fa := by
  rw [handle]
  split
  · rfl
  · split
    · rw [succeedPut]
      split
      · rfl
      · dsimp only
        split <;> rfl
    · rw [succeedGet]
      split
      · dsimp only
        split
        · split
          · rfl
          · split <;> rfl
        · rfl
      · rfl
  · split <;> rfl
  all_goals rfl

theorem handle_spec {io io' : Io} {r r' : HttpReqXfer}
    (h : handle job ds env io r = (io', r', none)) :
    Handled job env r io.t io.s.progressCompleted (busy (some r)) io'.t io'.s.progressCompleted
      (busy (some r')) := by
  rw [handle] at h
  split at h
  · simp only [Prod.mk.injEq] at h
    obtain ⟨rfl, rfl, _⟩ := h
    exact .same _ _
  · rename_i success
    simp only [get, succeedGet] at h
    split at h
    · rename_i whole
      split at h
      · split at h
        · simp at h
        · split at h <;> simp at h
      · rename_i more
        simp only [Prod.mk.injEq] at h
        obtain ⟨rfl, rfl, _⟩ := h
        exact .recorded _ _ success whole.symm more
    · rename_i missing
      simp only [Prod.mk.injEq] at h
      obtain ⟨rfl, rfl, _⟩ := h
      have same : busy (some { r with status := .prepared }) = busy (some r) :=
        busy_of_status rfl rfl (by simp [success])
      rw [same]
      exact .short _ _ success (Ne.symm missing)
  · rename_i failure
    split at h
    · simp only [Prod.mk.injEq] at h
      obtain ⟨rfl, rfl, _⟩ := h
      exact .same _ _
    · simp only [Prod.mk.injEq] at h
      obtain ⟨rfl, rfl, _⟩ := h
      have same : busy (some { r with status := .prepared }) = busy (some r) :=
        busy_of_status rfl rfl (by simp [failure])
      rw [same]
      exact .same _ _
  all_goals
    simp only [Prod.mk.injEq] at h
    obtain ⟨rfl, rfl, _⟩ := h
    exact .same _ _

/-- A pass ends in the middle only with the last chunk. -/
theorem handle_ended {io io' : Io} {r r' : HttpReqXfer} {v : Verdict}
    (h : handle job ds env io r = (io', r', some v)) :
    Ending job env r io.t io.s.progressCompleted ∧ r' = r ∧ io'.t = ended job env r io.t ∧
      io'.s.progressCompleted = io.s.progressCompleted + r.size := by
  rw [handle] at h
  split at h
  · simp at h
  · rename_i success
    simp only [get, succeedGet] at h
    split at h
    · rename_i whole
      split at h
      · rename_i all
        have all : io.s.progressCompleted + r.size = io.t.size := all
        rw [ended]
        split at h
        · rename_i empty
          simp only [Prod.mk.injEq] at h
          obtain ⟨rfl, rfl, _⟩ := h
          rw [if_pos (all.symm.trans empty)]
          exact ⟨⟨success, whole.symm, all⟩, rfl, rfl, rfl⟩
        · rename_i nonempty
          rw [if_neg fun empty => nonempty (all.trans empty)]
          split at h <;>
            (simp only [Prod.mk.injEq] at h
             obtain ⟨rfl, rfl, _⟩ := h
             exact ⟨⟨success, whole.symm, all⟩, rfl, rfl, rfl⟩)
      · simp at h
    · simp at h
  · split at h <;> simp at h
  all_goals simp at h

variable (env) in
theorem assign_spec (io : Io) {r : Option HttpReqXfer} (free : busy r = []) :
    ∃ io' r', assign job env io r = (io', r', none) ∧ io'.s = io.s ∧
      Advanced io.t (busy r) io'.t (busy r') := by
  rw [free]
  simp only [assign, prepare, get]
  split
  · rename_i more
    exact ⟨_, _, rfl, rfl, .assigned _ more⟩
  · have done : busy (r.map fun q => { q with status := .done }) = [] := by
      cases r with
      | none => rfl
      | some q => simp [busy]
    refine ⟨_, _, rfl, rfl, ?_⟩
    rw [done]
    exact .same _ _

omit get in
theorem busy_post (q : Option HttpReqXfer) : busy (q.map (post env)) = busy q := by
  cases q with
  | none => rfl
  | some q =>
    rw [Option.map_some, post]
    split
    · rename_i prepared
      refine busy_of_status rfl rfl ?_
      cases env.postOk <;> simp [prepared]
    · rfl

variable (env) in
theorem advance_spec (io : Io) (r : Option HttpReqXfer) :
    ∃ io' r', advance job env io r = (io', r', none) ∧ io'.s = io.s ∧
      Advanced io.t (busy r) io'.t (busy r') := by
  rw [advance]
  split
  · exact ⟨_, _, rfl, rfl, .same _ _⟩
  · split
    · rename_i free
      have none_busy : busy r = [] := by
        cases r with
        | none => rfl
        | some q =>
          have ready : q.status = .ready := by simpa [idle] using free
          simp [busy, ready]
      obtain ⟨io', r', taken, slot, advanced⟩ := assign_spec get env io none_busy
      rw [taken]
      exact ⟨_, _, rfl, slot, (busy_post r').symm ▸ advanced⟩
    · refine ⟨_, _, rfl, rfl, ?_⟩
      rw [busy_post]
      exact .same _ _

/-- A property of the transfer, its byte count and the busy chunks that no handled request
(with `ok` outcomes) and no advance breaks. -/
structure Kept (job : Job) (ok : ConnEnv → HttpReqXfer → Prop)
    (P : Transfer → Nat → List (Nat × Nat) → Prop) : Prop where
  handled : ∀ {env r t n c t' n' c'} (before after : List (Nat × Nat)), ok env r →
    Handled job env r t n c t' n' c' → P t n (before ++ c ++ after) → P t' n' (before ++ c' ++ after)
  advanced : ∀ {t c t' c'} (n : Nat) (before after : List (Nat × Nat)), Advanced t c t' c' →
    P t n (before ++ c ++ after) → P t' n (before ++ c' ++ after)

variable (ds) in
theorem serveAll_fa (envs : List ConnEnv) (io : Io) (reqs : List (Option HttpReqXfer)) :
    (serveAll job ds envs io reqs).1.s.fa = io.s.fa := by
  induction reqs generalizing envs io with
  | nil => rfl
  | cons r rest ih =>
    have served : (serve job ds (envs.headD {}) io r).1.s.fa = io.s.fa := by
      cases r with
      | none =>
        obtain ⟨io', r', advanced, slot, _⟩ := advance_spec get (envs.headD {}) io none
        rw [serve, advanced, slot]
      | some q =>
        have handled := handle_fa job ds (envs.headD {}) io q
        rw [serve]
        split
        · rename_i same
          rwa [same] at handled
        · rename_i io₁ q₁ same
          obtain ⟨io', r', advanced, slot, _⟩ :=
            advance_spec get (envs.headD {}) io₁ (some q₁)
          rw [advanced, slot]
          rwa [same] at handled
    rw [serveAll]
    split
    · rename_i same
      rwa [same] at served
    · rename_i io₁ r₁ same
      rw [same] at served
      exact (ih envs.tail io₁).trans served

/-- The pass is over early: `P` still held when the last chunk was handled. -/
def EndedIn (job : Job) (P : Transfer → Nat → List (Nat × Nat) → Prop) (before : List (Nat × Nat))
    (result : Io × List (Option HttpReqXfer) × Option Verdict) (env : ConnEnv) (r : HttpReqXfer) :
    Prop :=
  ∃ t n, Ending job env r t n ∧ result.1.t = ended job env r t ∧
    result.1.s.progressCompleted = n + r.size ∧
    (r.pos, r.pos + r.size) ∈ busyAll result.2.1 ∧ P t n (before ++ busyAll result.2.1)

/-- How a pass ends: `P` holds afterwards, or the last chunk has ended it. -/
def PassKeeps (job : Job) (P : Transfer → Nat → List (Nat × Nat) → Prop) (before : List (Nat × Nat))
    (envs : List ConnEnv) (reqs : List (Option HttpReqXfer))
    (result : Io × List (Option HttpReqXfer) × Option Verdict) : Prop :=
  (result.2.2 = none ∧
      P result.1.t result.1.s.progressCompleted (before ++ busyAll result.2.1)) ∨
    (result.2.2 ≠ none ∧
      ∃ env ∈ {} :: envs, ∃ r, some r ∈ reqs ∧ EndedIn job P before result env r)

omit get in
theorem mem_of_tail {envs : List ConnEnv} {env : ConnEnv}
    (mem : env ∈ ({} : ConnEnv) :: envs.tail) : env ∈ ({} : ConnEnv) :: envs := by
  rcases List.mem_cons.mp mem with rfl | mem
  · exact List.mem_cons_self
  · exact List.mem_cons_of_mem _ (List.mem_of_mem_tail mem)

omit get in
/-- The rest of a pass, once its first connection has been served without ending it. -/
theorem PassKeeps.next {P : Transfer → Nat → List (Nat × Nat) → Prop} {before : List (Nat × Nat)}
    {envs : List ConnEnv} {r r' : Option HttpReqXfer} {rest : List (Option HttpReqXfer)}
    {io io' : Io} (served : serve job ds (envs.headD {}) io r = (io', r', none))
    (tail : PassKeeps job P (before ++ busy r') envs.tail rest
      (serveAll job ds envs.tail io' rest)) :
    PassKeeps job P before envs (r :: rest) (serveAll job ds envs io (r :: rest)) := by
  rw [serveAll, served]
  rcases tail with ⟨none, after⟩ | ⟨some, env, henv, q, hq, t, n, ending, ht, hn, mem, hP⟩
  · refine Or.inl ⟨none, ?_⟩
    simpa only [busyAll_cons, List.append_assoc] using after
  · refine Or.inr ⟨some, env, mem_of_tail henv, q, List.mem_cons_of_mem _ hq, t, n, ending, ht, hn,
      ?_, ?_⟩
    · exact List.mem_append_right _ mem
    · simpa only [busyAll_cons, List.append_assoc] using hP

variable (ds) in
/-- What is kept by every connection is kept by the pass, up to the point where the last
chunk ends it. -/
theorem serveAll_keeps {ok : ConnEnv → HttpReqXfer → Prop}
    {P : Transfer → Nat → List (Nat × Nat) → Prop} (kept : Kept job ok P)
    {reqs : List (Option HttpReqXfer)} {envs : List ConnEnv}
    (oks : ∀ env ∈ {} :: envs, ∀ r, some r ∈ reqs → ok env r) (io : Io)
    (before : List (Nat × Nat)) (holds : P io.t io.s.progressCompleted (before ++ busyAll reqs)) :
    PassKeeps job P before envs reqs (serveAll job ds envs io reqs) := by
  induction reqs generalizing envs io before with
  | nil => exact Or.inl ⟨rfl, holds⟩
  | cons r rest ih =>
    have first : envs.headD {} ∈ {} :: envs := by
      cases envs with
      | nil => exact List.mem_cons_self
      | cons env envs => exact List.mem_cons_of_mem _ List.mem_cons_self
    have goOn : ∀ io' r', serve job ds (envs.headD {}) io r = (io', r', none) →
        P io'.t io'.s.progressCompleted (before ++ busy r' ++ busyAll rest) →
        PassKeeps job P before envs (r :: rest) (serveAll job ds envs io (r :: rest)) := by
      intro io' r' served kept'
      refine PassKeeps.next served (@ih envs.tail ?_ io' (before ++ busy r') kept')
      intro env henv q hq
      exact oks env (mem_of_tail henv) q (List.mem_cons_of_mem _ hq)
    cases r with
    | none =>
      obtain ⟨io', r', advanced, slot, adv⟩ := advance_spec get (envs.headD {}) io none
      refine goOn io' r' advanced ?_
      rw [slot]
      exact kept.advanced _ before _ adv (by simpa using holds)
    | some q =>
      rcases handled : handle job ds (envs.headD {}) io q with ⟨io₁, q₁, v⟩
      cases v with
      | none =>
        obtain ⟨io', r', advanced, slot, adv⟩ := advance_spec get (envs.headD {}) io₁ (some q₁)
        refine goOn io' r' (by rw [serve, handled]; exact advanced) ?_
        rw [slot]
        refine kept.advanced _ before _ adv ?_
        refine kept.handled before _ (oks _ first q List.mem_cons_self) (handle_spec get handled) ?_
        simpa using holds
      | some v =>
        obtain ⟨ending, rfl, ht, hn⟩ := handle_ended get handled
        refine Or.inr ?_
        rw [serveAll, serve, handled]
        refine ⟨by simp, _, first, q₁, List.mem_cons_self, io.t, io.s.progressCompleted, ending, ht,
          hn, ?_, holds⟩
        refine List.mem_append_left _ ?_
        simp [busy, ending.success]

end Download

/-- Two transfers agree on what the chunk bookkeeping is about. -/
structure Agrees (t u : Transfer) : Prop where
  size : u.size = t.size
  pos : u.pos = t.pos
  chunkmacs : u.chunkmacs = t.chunkmacs
  plain : u.plain = t.plain
  file : u.file = t.file

theorem Agrees.refl (t : Transfer) : Agrees t t := ⟨rfl, rfl, rfl, rfl, rfl⟩

def Local (P : Transfer → Nat → List (Nat × Nat) → Prop) : Prop :=
  ∀ t u n active, Agrees t u → P t n active → P u n active

theorem Kept.and {job : Job} {ok : ConnEnv → HttpReqXfer → Prop}
    {P Q : Transfer → Nat → List (Nat × Nat) → Prop} (keptP : Kept job ok P)
    (keptQ : Kept job ok Q) : Kept job ok fun t n active => P t n active ∧ Q t n active where
  handled before after isOk handled holds :=
    ⟨keptP.handled before after isOk handled holds.1,
      keptQ.handled before after isOk handled holds.2⟩
  advanced n before after advanced holds :=
    ⟨keptP.advanced n before after advanced holds.1,
      keptQ.advanced n before after advanced holds.2⟩

theorem kept_call (job : Job) (ok : ConnEnv → HttpReqXfer → Prop) (call : Option Verdict)
    (live : Bool) : Kept job ok fun t _ _ => t.call = call ∧ t.live = live where
  handled _ _ _ handled holds := by
    cases handled with
    | same => exact holds
    | short => exact holds
    | recorded => exact holds
  advanced _ _ _ advanced holds := by
    cases advanced with
    | same => exact holds
    | assigned => exact holds

/-- The state after a doio step in which nothing ended: `P` holds, and the only pending
call can be a failure, or the retry of a completion. -/
def Continues (P : Transfer → Nat → List (Nat × Nat) → Prop) (s s' : Slot) (t' : Transfer) : Prop :=
  P t' s'.progressCompleted (busyAll s'.reqs) ∧ (t'.call = some .complete → s.fa = false)

/-- The state after a doio step that recorded the last chunk. -/
def Finishes (job : Job) (P : Transfer → Nat → List (Nat × Nat) → Prop) (s' : Slot)
    (t' : Transfer) (env : ConnEnv) (r : HttpReqXfer) : Prop :=
  t'.call ≠ none ∧ ∃ t n, Ending job env r t n ∧ Agrees (ended job env r t) t' ∧
    s'.progressCompleted = n + r.size ∧ (r.pos, r.pos + r.size) ∈ busyAll s'.reqs ∧
    P t n (busyAll s'.reqs)

theorem wrapUp_spec (ds : DsTime) (io : Io) :
    ∃ s', (wrapUp ds io).slot = some s' ∧ s'.fa = io.s.fa ∧ s'.reqs = io.s.reqs ∧
      s'.progressCompleted = io.s.progressCompleted ∧ Agrees io.t (wrapUp ds io) ∧
      (wrapUp ds io).live = io.t.live ∧ ((wrapUp ds io).call = io.t.call ∨
        (wrapUp ds io).call = some (.failed ApiError.failed.code)) := by
  rw [wrapUp]
  dsimp only
  split <;> split <;> split <;>
    exact ⟨_, rfl, rfl, rfl, rfl, ⟨rfl, rfl, rfl, rfl, rfl⟩, rfl, by simp⟩

/-- What is kept by every connection is kept by doio. -/
theorem doio_keeps {job : Job} (get : job.type = .get) (ds : DsTime) (envs : List ConnEnv)
    {ok : ConnEnv → HttpReqXfer → Prop} {P : Transfer → Nat → List (Nat × Nat) → Prop}
    (kept : Kept job ok P) (isLocal : Local P) {s : Slot} {t : Transfer}
    (idle : t.call = none) (live : t.live = true)
    (oks : ∀ env ∈ {} :: envs, ∀ r, some r ∈ s.reqs → ok env r)
    (holds : P t s.progressCompleted (busyAll s.reqs)) :
    (doio job ds envs s t).live = true ∧
      ∃ s', (doio job ds envs s t).slot = some s' ∧ s'.fa = s.fa ∧
        (Continues P s s' (doio job ds envs s t) ∨
          ∃ env ∈ {} :: envs, ∃ r, some r ∈ s.reqs ∧
            Finishes job P s' (doio job ds envs s t) env r) := by
  rw [doio]
  split
  · rename_i closed
    refine ⟨live, _, rfl, rfl, Or.inl ⟨isLocal t _ _ _ ⟨rfl, rfl, rfl, rfl, rfl⟩ holds, fun _ => closed⟩⟩
  · split
    · refine ⟨live, _, rfl, rfl, Or.inl ⟨isLocal t _ _ _ ⟨rfl, rfl, rfl, rfl, rfl⟩ holds, ?_⟩⟩
      intro complete
      have none_some := idle.symm.trans complete
      cases none_some
    · have fa := serveAll_fa get ds envs ⟨t, { s with retrying := false }, 0, 0⟩ s.reqs
      have pass := serveAll_keeps get ds (kept.and (kept_call job ok none true)) oks
        ⟨t, { s with retrying := false }, 0, 0⟩ [] ⟨holds, idle, live⟩
      generalize serveAll job ds envs ⟨t, { s with retrying := false }, 0, 0⟩ s.reqs = result at fa pass
      obtain ⟨io, reqs, v⟩ := result
      rcases pass with ⟨rfl, after, call, alive⟩ |
        ⟨some, env, henv, r, hr, t₀, n, ending, ht, hn, mem, hP, _, alive⟩
      · obtain ⟨s', slot, fa', sameReqs, progress, agrees, alive', failed⟩ :=
          wrapUp_spec ds { io with s := { io.s with reqs := reqs } }
        refine ⟨alive'.trans alive, s', slot, fa'.trans fa, Or.inl ⟨?_, ?_⟩⟩
        · rw [progress, sameReqs]
          exact isLocal io.t _ _ _ agrees after
        · intro complete
          rcases failed with same | failed
          · have none_some := (same.trans call).symm.trans complete
            cases none_some
          · have differ := failed.symm.trans complete
            simp at differ
      · cases v with
        | none => exact absurd rfl some
        | some v =>
          have live' : io.t.live = true := by
            rw [ht, ended]
            split <;> exact alive
          refine ⟨live', _, rfl, fa, Or.inr ⟨env, henv, r, hr, by simp, t₀, n, ending, ?_, hn, mem, hP⟩⟩
          rw [← ht]
          exact ⟨rfl, rfl, rfl, rfl, rfl⟩

/-- Chunks are handed out in file order: recorded and busy chunks lie before the position
of the next chunk, and no chunk is recorded or busy twice. -/
structure Layout (t : Transfer) (active : List (Nat × Nat)) : Prop where
  start : IsStart t.size t.pos
  known : ∀ p ∈ t.chunkmacs, (p, chunkEnd t.size p) ∈ chunks t.size ∧ (p < t.pos ∨ t.size = 0)
  mem : ∀ c ∈ active, c ∈ chunks t.size
  out : ∀ c ∈ active, (c.1 < t.pos ∧ c.1 ∉ t.chunkmacs) ∨ t.size = 0
  once : t.size ≠ 0 → active.Nodup

namespace Layout
variable {t : Transfer} {active before after : List (Nat × Nat)}

/-- Recording a busy chunk. -/
theorem retire {c : Nat × Nat} {m : ChunkMacs} (layout : Layout t (before ++ [c] ++ after))
    (macs : ∀ p, p ∈ m ↔ p = c.1 ∨ p ∈ t.chunkmacs) {t' : Transfer} (size : t'.size = t.size)
    (pos : t'.pos = t.pos) (recorded : t'.chunkmacs = m) : Layout t' (before ++ [] ++ after) := by
  have hc : c ∈ before ++ [c] ++ after := by simp
  have others : ∀ d ∈ before ++ [] ++ after, d ∈ before ++ [c] ++ after := by
    intro d hd
    simp only [List.append_nil, List.mem_append] at hd
    simp only [List.mem_append, List.mem_singleton]
    tauto
  constructor
  · rw [size, pos]
    exact layout.start
  · intro p hp
    rw [recorded, macs] at hp
    rw [size, pos]
    rcases hp with rfl | hp
    · refine ⟨?_, (layout.out c hc).imp_left And.left⟩
      have stop := (mem_chunks (layout.mem c hc)).2
      rw [← stop]
      exact layout.mem c hc
    · exact layout.known p hp
  · intro d hd
    rw [size]
    exact layout.mem d (others d hd)
  · intro d hd
    rw [size, pos, recorded, macs]
    by_cases empty : t.size = 0
    · exact Or.inr empty
    · rcases layout.out d (others d hd) with ⟨low, fresh⟩ | empty
      · refine Or.inl ⟨low, ?_⟩
        rintro (same | old)
        · have heq := chunk_eq_of_pos (layout.mem d (others d hd)) (layout.mem c hc) same
          subst heq
          have once : (before ++ d :: after).Nodup := by simpa using layout.once empty
          exact (List.nodup_cons.mp (List.nodup_middle.mp once)).1 (by simpa using hd)
        · exact fresh old
      · exact Or.inr empty
  · intro nonempty
    rw [size] at nonempty
    refine (layout.once nonempty).sublist ?_
    simp

/-- Handing out the next chunk. -/
theorem assign (layout : Layout t (before ++ [] ++ after))
    (more : t.pos < chunkEnd t.size t.pos ∨ t.size = 0) :
    Layout { t with pos := chunkEnd t.size t.pos } (before ++
      [(t.pos, t.pos + (chunkEnd t.size t.pos - t.pos) % 2 ^ 32)] ++ after) := by
  have inFile : t.pos < t.size ∨ t.size = 0 := more.imp_left (lt_chunkEnd_iff _ _).mp
  have next := isStart_mem layout.start inFile
  have range : t.pos + (chunkEnd t.size t.pos - t.pos) % 2 ^ 32 = chunkEnd t.size t.pos := by
    rw [chunk_size_lt next]
    exact Nat.add_sub_cancel' (mem_chunks next).1
  rw [range]
  have others : ∀ d ∈ before ++ [(t.pos, chunkEnd t.size t.pos)] ++ after,
      d = (t.pos, chunkEnd t.size t.pos) ∨ d ∈ before ++ [] ++ after := by
    intro d hd
    simp only [List.mem_append, List.mem_singleton, List.append_nil] at hd ⊢
    tauto
  constructor
  · exact isStart_next layout.start
  · intro p hp
    obtain ⟨chunk, low⟩ := layout.known p hp
    refine ⟨chunk, ?_⟩
    dsimp only
    omega
  · intro d hd
    rcases others d hd with rfl | old
    · exact next
    · exact layout.mem d old
  · intro d hd
    by_cases empty : t.size = 0
    · exact Or.inr empty
    · refine Or.inl ?_
      dsimp only
      rcases others d hd with rfl | old
      · refine ⟨by omega, fun recorded => ?_⟩
        have := (layout.known _ recorded).2
        omega
      · rcases layout.out d old with ⟨low, fresh⟩ | bad
        · exact ⟨by omega, fresh⟩
        · exact absurd bad empty
  · intro nonempty
    have fresh : (t.pos, chunkEnd t.size t.pos) ∉ before ++ after := by
      intro old
      have low := layout.out _ (by simpa using old)
      simp only at low
      have nonempty : t.size ≠ 0 := nonempty
      omega
    have once : (before ++ after).Nodup := by simpa using layout.once nonempty
    simpa using List.nodup_middle.mpr (List.nodup_cons.mpr ⟨fresh, once⟩)

theorem mem_finalize (job : Job) (env : ConnEnv) (r : HttpReqXfer) (t : Transfer) (p : Nat) :
    p ∈ (finalize job env r t).chunkmacs ↔ p = r.pos ∨ p ∈ t.chunkmacs := by
  simp only [finalize, finalizeDL, Std.ExtTreeMap.mem_insert, compare_eq_iff_eq]
  rw [eq_comm]

theorem kept (job : Job) : Kept job (fun _ _ => True) fun t _ active => Layout t active where
  handled {env r t n c t' n' c'} before after _ handled layout := by
    cases handled with
    | same => exact layout
    | short => exact layout
    | recorded success whole more =>
      have chunk : busy (some r) = [(r.pos, r.pos + r.size)] := by simp [busy, success]
      rw [chunk] at layout
      exact layout.retire (mem_finalize job env r t) rfl rfl rfl
  advanced _ before after advanced layout := by
    cases advanced with
    | same => exact layout
    | assigned more => exact layout.assign more

theorem isLocal : Local fun t _ active => Layout t active := by
  intro t u _ active agrees layout
  exact
    { start := by rw [agrees.size, agrees.pos]; exact layout.start
      known := by rw [agrees.size, agrees.pos, agrees.chunkmacs]; exact layout.known
      mem := by rw [agrees.size]; exact layout.mem
      out := by rw [agrees.size, agrees.pos, agrees.chunkmacs]; exact layout.out
      once := by rw [agrees.size]; exact layout.once }

theorem queued (size : Nat) (file : Option Bytes) :
    Layout (Xfer.queued size file) (inTransit (Xfer.queued size file)) where
  start := isStart_zero size
  known _ hp := absurd hp Std.ExtTreeMap.not_mem_empty
  mem _ hc := absurd hc List.not_mem_nil
  out _ hc := absurd hc List.not_mem_nil
  once _ := List.nodup_nil

theorem toNil (layout : Layout t active) : Layout t [] where
  start := layout.start
  known := layout.known
  mem _ hc := absurd hc List.not_mem_nil
  out _ hc := absurd hc List.not_mem_nil
  once _ := List.nodup_nil

/-- The last chunk: its connection stays as it is, and unless the file is empty no chunk
remains recorded. -/
theorem ended (layout : Layout t active) {job : Job} {env : ConnEnv} {r : HttpReqXfer}
    (here : (r.pos, r.pos + r.size) ∈ active) : Layout (Xfer.ended job env r t) active := by
  rw [Xfer.ended]
  split
  · rename_i empty
    refine ⟨layout.start, fun p hp => ?_, layout.mem, fun _ _ => Or.inr empty, layout.once⟩
    rcases (mem_finalize job env r t p).mp hp with rfl | old
    · have stop := (mem_chunks (layout.mem _ here)).2
      refine ⟨?_, Or.inr empty⟩
      simp only at stop
      exact stop ▸ layout.mem _ here
    · exact layout.known p old
  · refine ⟨layout.start, fun p hp => ?_, layout.mem, fun c hc => ?_, layout.once⟩
    · exact absurd hp Std.ExtTreeMap.not_mem_empty
    · exact (layout.out c hc).imp_left fun low => ⟨low.1, Std.ExtTreeMap.not_mem_empty⟩

/-- Only the chunk of an empty file lies behind the end of the file. -/
theorem size_eq_zero (layout : Layout t active) {p : Nat} (hp : p ∈ t.chunkmacs)
    (past : t.size ≤ p) : t.size = 0 := by
  by_contra nonempty
  have chunk := (layout.known p hp).1
  rw [chunks, if_neg nonempty] at chunk
  obtain ⟨_, some, _⟩ := mem_chunksFrom chunk
  have bound := chunkEnd_le t.size p
  simp only at some
  omega

end Layout

/-- A step that leaves the chunk bookkeeping alone. -/
structure Quiet (t t' : Transfer) : Prop where
  agrees : Agrees t t'
  live : t'.live = t.live
  noSlot : t.slot = none → t'.slot = none
  slot : ∀ s, t.slot = some s → ∃ s', t'.slot = some s' ∧ s'.fa = s.fa ∧
    s'.progressCompleted = s.progressCompleted ∧ busyAll s'.reqs = busyAll s.reqs
  call : t'.call = t.call ∨ ∃ e, t'.call = some (.failed e)

/-- The slot after a quiet step is the one before it, as far as its chunks go. -/
theorem Quiet.slot_back {t t' : Transfer} (quiet : Quiet t t') {s' : Slot}
    (hs' : t'.slot = some s') : ∃ s, t.slot = some s ∧ s'.fa = s.fa ∧
      s'.progressCompleted = s.progressCompleted ∧ busyAll s'.reqs = busyAll s.reqs := by
  cases slot : t.slot with
  | none =>
    rw [quiet.noSlot slot] at hs'
    cases hs'
  | some s =>
    obtain ⟨s₁, hs₁, facts⟩ := quiet.slot s slot
    have same : s₁ = s' := Option.some.inj (hs₁.symm.trans hs')
    subst same
    exact ⟨s, rfl, facts⟩

theorem Quiet.inTransit_eq {t t' : Transfer} (quiet : Quiet t t') : inTransit t' = inTransit t := by
  cases slot : t.slot with
  | none => rw [inTransit_of_none slot, inTransit_of_none (quiet.noSlot slot)]
  | some s =>
    obtain ⟨s', hs', _, _, reqs⟩ := quiet.slot s slot
    rw [inTransit_of_slot slot, inTransit_of_slot hs', reqs]

theorem Quiet.idle_back {t t' : Transfer} (quiet : Quiet t t') (idle : t'.call = none) :
    t.call = none := by
  rcases quiet.call with same | ⟨e, failed⟩
  · exact same.symm.trans idle
  · rw [failed] at idle
    cases idle

theorem Quiet.layout {t t' : Transfer} (quiet : Quiet t t') (layout : Layout t (inTransit t)) :
    Layout t' (inTransit t') := by
  rw [quiet.inTransit_eq]
  exact Layout.isLocal t t' 0 _ quiet.agrees layout

theorem Quiet.refl (t : Transfer) : Quiet t t :=
  ⟨.refl t, rfl, id, fun s hs => ⟨s, hs, rfl, rfl, rfl⟩, Or.inl rfl⟩

theorem busyAll_modify (f : Option HttpReqXfer → Option HttpReqXfer)
    (same : ∀ r, busy (f r) = busy r) (reqs : List (Option HttpReqXfer)) (i : Nat) :
    busyAll (reqs.modify i f) = busyAll reqs := by
  induction reqs generalizing i with
  | nil => cases i <;> rfl
  | cons r rest ih =>
    cases i with
    | zero => simp [same]
    | succ i => simp [ih]

theorem busy_receive (e : NetEvent) (r : Option HttpReqXfer) :
    busy (r.map (receive e)) = busy r := by
  cases r with
  | none => rfl
  | some q =>
    simp only [Option.map_some, receive]
    split
    · rename_i inflight
      cases e <;> exact busy_of_status rfl rfl (by simp [inflight])
    · rfl

/-- What a step of a live transfer can do while no call is pending. -/
theorem act_cases (job : Job) (t : Transfer) (e : Event) :
    Quiet t (act job t e) ∨
      (∃ ds opened connections, e = .dispatch ds opened connections ∧ t.slot = none ∧
        act job t e = dispatch job ds opened connections t) ∨
      ∃ ds envs s, e = .doio ds envs ∧ t.slot = some s ∧ act job t e = doio job ds envs s t := by
  cases e with
  | dispatch ds opened connections =>
    rw [act]
    split
    · rename_i free
      exact Or.inr (Or.inl ⟨ds, opened, connections, rfl, by simpa using free.1, rfl⟩)
    · exact Or.inl (.refl t)
  | source ds url =>
    refine Or.inl ?_
    rw [act]
    cases slot : t.slot with
    | none => exact .refl t
    | some s =>
      have present : ∀ u : Option Slot, t.slot = none → u = none := by
        intro u none
        rw [slot] at none
        cases none
      dsimp only
      split
      · exact ⟨⟨rfl, rfl, rfl, rfl, rfl⟩, rfl, present _,
          fun s₀ hs => ⟨s₀, slot.symm.trans hs, rfl, rfl, rfl⟩, Or.inr ⟨_, rfl⟩⟩
      · refine ⟨⟨rfl, rfl, rfl, rfl, rfl⟩, rfl, present _, fun s₀ hs => ?_, Or.inl rfl⟩
        have same : s = s₀ := Option.some.inj (slot.symm.trans hs)
        subst same
        exact ⟨_, rfl, rfl, rfl, rfl⟩
  | fail e =>
    refine Or.inl ?_
    rw [act]
    split
    · exact ⟨⟨rfl, rfl, rfl, rfl, rfl⟩, rfl, fun none => none,
        fun s hs => ⟨s, hs, rfl, rfl, rfl⟩, Or.inr ⟨_, rfl⟩⟩
    · exact .refl t
  | network conn e =>
    refine Or.inl ⟨⟨rfl, rfl, rfl, rfl, rfl⟩, rfl, fun none => ?_, fun s hs => ?_, Or.inl rfl⟩
    · rw [act, none]
      rfl
    · rw [act, hs]
      exact ⟨_, rfl, rfl, rfl, busyAll_modify _ (busy_receive e) _ _⟩
  | doio ds envs =>
    rw [act]
    cases slot : t.slot with
    | none => exact Or.inl (.refl t)
    | some s =>
      dsimp only
      split
      · exact Or.inl (.refl t)
      · exact Or.inr (Or.inr ⟨ds, envs, s, rfl, rfl, rfl⟩)
  | settle ds defer placement => exact Or.inl (.refl t)
  | chunkRetry =>
    refine Or.inl ⟨⟨rfl, rfl, rfl, rfl, rfl⟩, rfl, fun none => ?_, fun s hs => ?_, Or.inl rfl⟩
    · rw [act, none]
      rfl
    · rw [act, hs, Option.map_some]
      refine ⟨_, rfl, ?_⟩
      split <;> exact ⟨rfl, rfl, rfl⟩

/-- The chunk bookkeeping except for the file itself. -/
structure SameChunks (t u : Transfer) : Prop where
  size : u.size = t.size
  pos : u.pos = t.pos
  chunkmacs : u.chunkmacs = t.chunkmacs
  plain : u.plain = t.plain
  live : u.live = t.live

theorem Layout.transfer {t u : Transfer} {active : List (Nat × Nat)} (layout : Layout t active)
    (same : SameChunks t u) : Layout u active where
  start := by rw [same.size, same.pos]; exact layout.start
  known := by rw [same.size, same.pos, same.chunkmacs]; exact layout.known
  mem := by rw [same.size]; exact layout.mem
  out := by rw [same.size, same.pos, same.chunkmacs]; exact layout.out
  once := by rw [same.size]; exact layout.once

/-- What carrying out the pending call of a download can do: the transfer is gone, its slot
is gone, or its slot is closed with a further call or a retry pending. -/
theorem settle_cases {job : Job} (get : job.type = .get) {t : Transfer} {v : Verdict}
    (pending : t.call = some v) (ds : DsTime) (defer : Bool) (placement : Placement) :
    (settle job ds defer placement t).live = false ∨
      (SameChunks t (settle job ds defer placement t) ∧
        ((v ≠ .complete ∧ defer = true ∧ (settle job ds defer placement t).slot = none) ∨
          (t.slot = none ∧ (settle job ds defer placement t).slot = none ∧
            (settle job ds defer placement t).file = t.file) ∨
          (v = .complete ∧ ∃ s s', t.slot = some s ∧
            (settle job ds defer placement t).slot = some s' ∧ s'.fa = false ∧
            s'.progressCompleted = s.progressCompleted ∧ s'.reqs = s.reqs ∧
            ((settle job ds defer placement t).call = some (.failed ApiError.write.code) ∨
              ((settle job ds defer placement t).call = none ∧
                ∃ moved, placement = .pending moved))))) := by
  rw [settle, pending]
  cases v with
  | failed e =>
    dsimp only
    rw [failed]
    split
    · rename_i deferred
      refine Or.inr ⟨?_, Or.inl ⟨by simp, deferred, ?_⟩⟩
      · rw [deleteSlot]
        split <;> exact ⟨rfl, rfl, rfl, rfl, rfl⟩
      · rw [deleteSlot]
        split
        · assumption
        · rfl
    · exact Or.inl rfl
  | complete =>
    cases slot : t.slot with
    | none => exact Or.inr ⟨⟨rfl, rfl, rfl, rfl, rfl⟩, Or.inr (Or.inl ⟨rfl, rfl, rfl⟩)⟩
    | some s =>
      simp only [complete, get]
      cases placement with
      | mismatch =>
        exact Or.inr ⟨⟨rfl, rfl, rfl, rfl, rfl⟩,
          Or.inr (Or.inr ⟨trivial, s, _, rfl, rfl, rfl, rfl, rfl, Or.inl rfl⟩)⟩
      | placed => exact Or.inl rfl
      | pending moved =>
        exact Or.inr ⟨⟨rfl, rfl, rfl, rfl, rfl⟩,
          Or.inr (Or.inr ⟨trivial, s, _, rfl, rfl, rfl, rfl, rfl, Or.inr ⟨rfl, moved, rfl⟩⟩)⟩

theorem resumePos_empty (keys : List Nat) (pos : Nat) : resumePos 0 keys pos = pos := by
  induction keys with
  | nil => rfl
  | cons p rest ih =>
    rw [resumePos]
    split
    · rfl
    · exact ih

@[simp] theorem busyAll_newSlot (ds : DsTime) (connections size : Nat) :
    busyAll (newSlot ds connections size).reqs = [] := by
  rw [newSlot]
  dsimp only
  generalize (if size > 131072 then connections else 1) = n
  induction n with
  | zero => rfl
  | succ n ih => simpa [List.replicate_succ, busy] using ih

/-- A slot has been started: its connections are idle and nothing is counted. -/
structure Started (t t' : Transfer) (s' : Slot) : Prop where
  slot : t'.slot = some s'
  free : busyAll s'.reqs = []
  zero : s'.progressCompleted = 0
  fa : s'.fa = true
  size : t'.size = t.size
  chunkmacs : t'.chunkmacs = t.chunkmacs
  plain : t'.plain = t.plain
  live : t'.live = t.live
  call : t'.call = t.call ∨ ∃ e, t'.call = some (.failed e)
  layout : Layout t' (inTransit t')

/-- Starting the slot of a download over no recorded data. -/
theorem dispatch_spec {job : Job} (get : job.type = .get) {t : Transfer} (layout : Layout t [])
    (fresh : ∀ p ∈ t.chunkmacs, t.size ≤ p) (ds : DsTime) (opened : Opened) (connections : Nat) :
    Started t (dispatch job ds opened connections t) (newSlot ds connections t.size) := by
  have restart : resumePos t.size t.chunkmacs.keys 0 = 0 := by
    by_cases empty : t.size = 0
    · rw [empty, resumePos_empty]
    · have none : t.chunkmacs.keys = [] := by
        refine List.eq_nil_iff_forall_not_mem.mpr fun p hp => empty ?_
        have recorded := Std.ExtTreeMap.mem_keys.mp hp
        exact layout.size_eq_zero recorded (fresh p recorded)
      rw [none, resumePos]
  have atStart : ∀ u : Transfer, u.size = t.size → u.chunkmacs = t.chunkmacs → u.pos = 0 →
      Layout u [] := by
    intro u size macs pos
    refine ⟨?_, fun p hp => ?_, fun _ hc => absurd hc List.not_mem_nil,
      fun _ hc => absurd hc List.not_mem_nil, fun _ => List.nodup_nil⟩
    · rw [size, pos]
      exact isStart_zero _
    · rw [macs] at hp
      rw [size]
      exact ⟨(layout.known p hp).1, Or.inr (layout.size_eq_zero hp (fresh p hp))⟩
  have slot : (dispatch job ds opened connections t).slot = some (newSlot ds connections t.size) := by
    cases opened <;> simp [Xfer.dispatch, get]
  have transit : inTransit (dispatch job ds opened connections t) = [] := by
    rw [inTransit_of_slot slot, busyAll_newSlot]
  refine ⟨slot, busyAll_newSlot _ _ _, rfl, rfl, ?_, ?_, ?_, ?_, ?_, transit ▸ ?_⟩
  all_goals cases opened
  all_goals try simp [Xfer.dispatch, get]
  · exact atStart _ rfl rfl restart
  · exact layout.transfer ⟨rfl, rfl, rfl, rfl, rfl⟩
  · exact layout.transfer ⟨rfl, rfl, rfl, rfl, rfl⟩

end MegaSdk.Xfer
