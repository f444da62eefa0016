import MegaSdk.Api.RequestQueue

/-!
# At most one request id per command

The server executes a request id once, so a command is executed at most once as
long as all bodies it appears in carry the same id. A reload forgets the request
that is in flight or waiting but not its batch, which is then sent again under
another id.
-/

namespace MegaSdk.Api

open Runs

/-- No command is in two requests posted under different ids. -/
def AtMostOnce (s : Client) : Prop :=
  ∀ p ∈ s.log.posted, ∀ q ∈ s.log.posted, ∀ c ∈ p.cmds, c ∈ q.cmds → p.reqid = q.reqid

/-- The batch being filled was never posted, and the other one only under the current
request id. -/
structure Unsent (s : Client) : Prop where
  once : AtMostOnce s
  unposted : ∀ c ∈ s.reqs s.r, ∀ p ∈ s.log.posted, c ∉ p.cmds
  current : ∀ c ∈ s.reqs (!s.r), ∀ p ∈ s.log.posted, c ∈ p.cmds → p.reqid = s.reqid
  apart : ∀ c ∈ s.reqs s.r, c ∉ s.reqs (!s.r)
  known : ∀ p ∈ s.log.posted, ∀ c ∈ p.cmds, c.id < s.log.created

/-- With no request in flight or waiting, the other batch is empty. -/
def Drained (s : Client) : Prop :=
  s.pendingcs = none → s.btcs.next = 0 → s.reqs (!s.r) = []

/-- The invariant of the queue between iterations. -/
structure SubmitInv (s : Client) : Prop where
  pair : PairInv s
  unsent : Unsent s
  drained : Drained s

namespace Unsent
variable {s : Client}

/-- Only the buffers, the id and the record of posts matter. -/
theorem transfer {t : Client} (unsent : Unsent s) (reqs : t.reqs = s.reqs) (r : t.r = s.r)
    (id : t.reqid = s.reqid) (posted : t.log.posted = s.log.posted)
    (created : t.log.created = s.log.created) : Unsent t := by
  obtain ⟨once, unposted, current, apart, known⟩ := unsent
  constructor
  · rwa [AtMostOnce, posted]
  · rwa [reqs, r, posted]
  · rwa [reqs, r, posted, id]
  · rwa [reqs, r]
  · rwa [posted, created]

theorem add (unsent : Unsent s) (fresh : ∀ b, ∀ c ∈ s.reqs b, c.id < s.log.created)
    (json : Bytes) (fetch : Bool) : Unsent (s.add json fetch) where
  once := unsent.once
  unposted c hc p hp mem := by
    rcases PairInv.mem_add hc with old | ⟨_, rfl⟩
    · exact unsent.unposted c old p hp mem
    · exact Nat.lt_irrefl _ (unsent.known p hp _ mem)
  current c hc p hp mem := by
    rcases PairInv.mem_add hc with old | ⟨same, _⟩
    · exact unsent.current c old p hp mem
    · exact absurd same (by simp [Client.add])
  apart c hc mem := by
    have other : c ∈ s.reqs (!s.r) := by
      rcases PairInv.mem_add mem with old | ⟨same, _⟩
      · exact old
      · exact absurd same (by simp [Client.add])
    rcases PairInv.mem_add hc with old | ⟨_, rfl⟩
    · exact unsent.apart c old other
    · exact Nat.lt_irrefl _ (fresh _ _ other)
  known p hp c hc := Nat.lt_succ_of_lt (unsent.known p hp c hc)

theorem fetchNodes (unsent : Unsent s) (fresh : ∀ b, ∀ c ∈ s.reqs b, c.id < s.log.created)
    (cached : Bool) : Unsent (s.fetchNodes cached) := by
  rw [Client.fetchNodes]
  split
  · exact unsent
  · split
    · exact unsent
    · have forgotten : Unsent { s.init with fetchingNodes := true } :=
        unsent.transfer rfl rfl rfl rfl rfl
      exact forgotten.add fresh _ _

theorem callbacks (unsent : Unsent s) (pair : PairInv s) (calls : List Callback) :
    Unsent (calls.foldl Client.callback s) := by
  induction calls generalizing s with
  | nil => exact unsent
  | cons call rest ih =>
    refine ih ?_ (pair.callback call)
    cases call with
    | add json => exact unsent.add pair.fresh json false
    | fetchNodes cached => exact unsent.fetchNodes pair.fresh cached

theorem procCommands (unsent : Unsent s) (pair : PairInv s) (cmds : List Command)
    (calls : List (List Callback)) : Unsent (Client.procCommands cmds calls s) := by
  induction cmds generalizing s calls with
  | nil => exact unsent
  | cons c rest ih =>
    rw [Client.procCommands]
    split
    · have fetched : Unsent { s with fetchingNodes := false } :=
        unsent.transfer rfl rfl rfl rfl rfl
      have quiet := pair.setFetching false
      exact ih (fetched.callbacks quiet _) (quiet.callbacks _) _
    · exact ih (unsent.callbacks pair _) (pair.callbacks _) _

/-- Posting keeps the batches apart: what is sent was not sent under another id before,
and what is filled next was never sent. -/
theorem post (postOk : Bool) (once : AtMostOnce s)
    (known : ∀ p ∈ s.log.posted, ∀ c ∈ p.cmds, c.id < s.log.created)
    (fresh : ∀ b, ∀ c ∈ s.reqs b, c.id < s.log.created)
    (resend : ∀ c ∈ s.reqs s.r, ∀ p ∈ s.log.posted, c ∈ p.cmds → p.reqid = s.reqid)
    (unposted : ∀ c ∈ s.reqs (!s.r), ∀ p ∈ s.log.posted, c ∉ p.cmds)
    (apart : ∀ c ∈ s.reqs (!s.r), c ∉ s.reqs s.r) : Unsent (s.post postOk) where
  once p hp q hq c hcp hcq := by
    rcases List.mem_cons.mp hp with rfl | hp <;> rcases List.mem_cons.mp hq with rfl | hq
    · rfl
    · exact (resend c hcp q hq hcq).symm
    · exact resend c hcq p hp hcp
    · exact once p hp q hq c hcp hcq
  unposted c hc p hp mem := by
    rcases List.mem_cons.mp hp with rfl | hp
    · exact apart c hc mem
    · exact unposted c hc p hp mem
  current c hc p hp mem := by
    rcases List.mem_cons.mp hp with rfl | hp
    · rfl
    · exact resend c (by simpa [Client.post] using hc) p hp mem
  apart c hc mem := apart c hc (by simpa [Client.post] using mem)
  known p hp c hc := by
    rcases List.mem_cons.mp hp with rfl | hp
    · exact fresh _ c hc
    · exact known p hp c hc

end Unsent

namespace SubmitInv
variable {s : Client} {q : HttpReq}

theorem start (reqid : Bytes) : SubmitInv (Client.start reqid) where
  pair := PairInv.start reqid
  unsent :=
    { once := fun _ hp => absurd hp List.not_mem_nil
      unposted := fun _ hc => absurd hc List.not_mem_nil
      current := fun _ hc => absurd hc List.not_mem_nil
      apart := fun _ hc => absurd hc List.not_mem_nil
      known := fun _ hp => absurd hp List.not_mem_nil }
  drained _ _ := rfl

theorem succeed (inv : SubmitInv s) (pending : s.pendingcs = some q)
    (calls : List (List Callback)) : SubmitInv (s.succeed q calls) := by
  have logged := inv.pair.logResult pending
  have unsent : Unsent (s.logResult q) := inv.unsent.transfer rfl rfl rfl rfl rfl
  have after := unsent.procCommands logged (s.reqs (!s.r)) calls
  have cleared : (s.succeed q calls).reqs (!(s.succeed q calls).r) = [] := by
    simp [Client.succeed, Client.procResult]
  have filling : (s.succeed q calls).reqs (s.succeed q calls).r =
      (Client.procCommands (s.reqs (!s.r)) calls (s.logResult q)).reqs
        (Client.procCommands (s.reqs (!s.r)) calls (s.logResult q)).r := by
    simp [Client.succeed, Client.procResult]
  refine ⟨inv.pair.succeed pending calls, ?_, fun _ _ => cleared⟩
  constructor
  · exact after.once
  · rw [filling]
    exact after.unposted
  · rw [cleared]
    exact fun c hc => absurd hc List.not_mem_nil
  · rw [cleared]
    exact fun c _ => List.not_mem_nil
  · exact after.known

theorem handlePending (inv : SubmitInv s) {ds : DsTime} (calls : List (List Callback))
    (noWrap : ∀ q ∈ s.pendingcs, Client.Rejected q → ds + s.btcs.delta ≠ 0) :
    SubmitInv (s.handlePending ds calls) := by
  rcases s.handlePending_cases ds calls with same | ⟨q, pending, _, same⟩ | ⟨q, pending, rej, same⟩
  · rw [same]
    exact inv
  · rw [same]
    exact inv.succeed pending calls
  · rw [same]
    refine ⟨inv.pair.fail pending (noWrap q pending rej), ?_, ?_⟩
    · exact inv.unsent.transfer rfl rfl rfl rfl rfl
    · exact fun _ zero => absurd zero (noWrap q pending rej)

theorem submit (inv : SubmitInv s) (idle : s.pendingcs = none) (ds : DsTime) (postOk : Bool) :
    SubmitInv (s.submit ds postOk) := by
  have pair := inv.pair.submit idle ds postOk
  revert pair
  rw [Client.submit]
  split
  · by_cases set : s.btcs.next = 0
    · simp only [BackoffTimer.nextSet, set, ne_eq, not_true_eq_false, if_false]
      have drained := inv.drained idle set
      split
      · refine fun pair => ⟨pair, ?_, fun none => by cases none⟩
        refine Unsent.post postOk inv.unsent.once inv.unsent.known inv.pair.fresh ?_ ?_ ?_
        · exact fun c hc p hp mem => absurd mem (inv.unsent.unposted c hc p hp)
        · rw [drained]
          exact fun c hc => absurd hc List.not_mem_nil
        · rw [drained]
          exact fun c hc => absurd hc List.not_mem_nil
      · exact fun pair => ⟨pair, inv.unsent.transfer rfl rfl rfl rfl rfl, fun _ _ => drained⟩
    · obtain ⟨f, failed⟩ := inv.pair.due idle set
      obtain ⟨_, holds⟩ := inv.pair.waiting f failed
      have nonempty : s.reqs (!s.r) ≠ [] := holds.batch ▸ holds.nonempty
      simp only [BackoffTimer.nextSet, ne_eq, set, not_false_eq_true, if_true, nonempty]
      refine fun pair => ⟨pair, ?_, fun none => by cases none⟩
      refine Unsent.post (s := { s with r := !s.r }) postOk inv.unsent.once inv.unsent.known
        inv.pair.fresh inv.unsent.current ?_ ?_
      · simpa using inv.unsent.unposted
      · simpa using inv.unsent.apart
  · exact fun pair => ⟨pair, inv.unsent, inv.drained⟩

theorem arrive (inv : SubmitInv s) (ok : Bool) (input : Bytes) :
    SubmitInv (s.arrive ok input) := by
  have pair := inv.pair.arrive ok input
  revert pair
  rw [Client.arrive]
  cases pending : s.pendingcs with
  | none => exact fun pair => ⟨pair, inv.unsent, inv.drained⟩
  | some q =>
    dsimp only
    split
    · exact fun pair => ⟨pair, inv.unsent.transfer rfl rfl rfl rfl rfl, fun none => by cases none⟩
    · exact fun pair => ⟨pair, inv.unsent, inv.drained⟩

/-- A reload with nothing outstanding only queues the fetch. -/
theorem fetchNodes (inv : SubmitInv s) (cached : Bool)
    (reload : ReloadIdle s (.fetchNodes cached)) : SubmitInv (s.fetchNodes cached) := by
  refine ⟨inv.pair.fetchNodes cached, inv.unsent.fetchNodes inv.pair.fresh cached, ?_⟩
  rw [Client.fetchNodes]
  split
  · exact inv.drained
  · rename_i notCached
    split
    · exact inv.drained
    · rename_i notFetching
      have notCached : cached = false := by simpa using notCached
      subst notCached
      obtain ⟨idle, zero⟩ := reload (by simpa using notFetching)
      intro _ _
      simpa [Client.add, Client.init] using inv.drained idle zero

theorem step (inv : SubmitInv s) (e : Event) (clock : ClockOk e) (noWrap : NoWrap s e)
    (reload : ReloadIdle s e) : SubmitInv (s.step e) := by
  cases e with
  | add json =>
    refine ⟨inv.pair.add json false, inv.unsent.add inv.pair.fresh json false, ?_⟩
    intro idle zero
    simpa [Client.step, Client.add] using inv.drained idle zero
  | fetchNodes cached => exact inv.fetchNodes cached reload
  | arrive ok input => exact inv.arrive ok input
  | pass ds postOk calls =>
    have handled := inv.handlePending calls noWrap
    rw [Client.step, Client.pass]
    split
    · exact handled
    · rename_i none
      exact handled.submit (by simpa using none) ds postOk
  | wait ds =>
    have pair := inv.pair.step (.wait ds) clock noWrap
    revert pair
    rw [Client.step]
    split
    · refine fun pair => ⟨pair, inv.unsent.transfer rfl rfl rfl rfl rfl, fun idle zero => ?_⟩
      exact inv.drained idle ((BackoffTimer.update_next_eq_zero_iff _ _ _).mp zero)
    · exact fun pair => ⟨pair, inv.unsent, inv.drained⟩
  | abortBackoff ds =>
    refine ⟨inv.pair.step (.abortBackoff ds) clock noWrap,
      inv.unsent.transfer rfl rfl rfl rfl rfl, fun idle zero => ?_⟩
    exact inv.drained idle ((BackoffTimer.arm_next_eq_zero_iff clock inv.pair.settled).mp zero)

end SubmitInv

/-- In every run at positive clock values, without a retry scheduled for the wrapped
clock value zero and without a reload over an outstanding request, no command is sent
under two request ids. -/
theorem atMostOnce_run (reqid : Bytes) (events : List Event)
    (meets : Meets Client.step (fun s e => ClockOk e ∧ NoWrap s e ∧ ReloadIdle s e)
      (Client.start reqid) events) :
    AtMostOnce (run Client.step (Client.start reqid) events) :=
  (run_invariant SubmitInv (fun _ e inv cond => inv.step e cond.1 cond.2.1 cond.2.2)
    (SubmitInv.start reqid) meets).unsent.once

/-- A command fails once and is retried, then the tree is reloaded. -/
def idleReloadRun : List Event :=
  [.add (ascii "\"a\":\"ug\""), .pass 1 true [], .arrive false [], .pass 5 true [],
    .pass 6 true [], .arrive true (ascii "[0]"), .pass 8 true [], .fetchNodes false,
    .pass 9 true []]

theorem atMostOnce_idleReloadRun :
    (run Client.step (Client.start (ascii "aaaaaaaaaa")) idleReloadRun).log.posted.length = 3 ∧
      AtMostOnce (run Client.step (Client.start (ascii "aaaaaaaaaa")) idleReloadRun) :=
  ⟨by decide, atMostOnce_run _ _ (by decide)⟩

/-- The tree is reloaded while a command is in flight. -/
def reloadRun : List Event :=
  [.add (ascii "\"a\":\"ug\""), .pass 1 true [], .fetchNodes false, .pass 2 true [],
    .arrive true (ascii "[0]"), .pass 3 true []]

/-- The command is then sent again under the next request id. -/
theorem reloadRun_twice :
    ¬ ∀ reqid events, Meets Client.step (fun _ e => ClockOk e) (Client.start reqid) events →
      AtMostOnce (run Client.step (Client.start reqid) events) := by
  intro always
  have once := always (ascii "aaaaaaaaaa") reloadRun (by decide)
  let ug : Command := ⟨0, ascii "\"a\":\"ug\"", false⟩
  have same := once
    ⟨.inflight, Request.get [ug], [], ascii "aaaaaaaaaa", [ug], 1⟩ (by decide)
    ⟨.inflight, Request.get [ug], [], ascii "aaaaaaaaab", [ug], 2⟩ (by decide)
    ug (by decide) (by decide)
  exact absurd same (by decide)

end MegaSdk.Api
