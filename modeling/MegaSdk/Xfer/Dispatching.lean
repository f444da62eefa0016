import MegaSdk.Lib.Loops
import MegaSdk.Xfer.Pipelining
import MegaSdk.Xfer.Queue

/-!
# The loop of `dispatch`

`MegaClient::dispatch` starts the transfer that is due first. One whose file does not open fails
and the loop looks for another, among all of them again: the failed one may still be due. What
ends the loop is that a transfer fails only so many times before it is deleted.
-/

namespace MegaSdk.Xfer.Queue

open Api Loops Runs OrderedPointers

/-- The client with the timers of its transfers and the number of its slots. -/
structure Dispatcher where
  client : Client
  timers : TransferRef → BackoffTimer
  tslots : ℕ

/-- What `dispatch` meets in a round: the sizes of file nodes, whether a local file name is
provided, and the size of the local file if it can be opened. -/
structure Opening where
  sizes : FileRef → Option Int
  path : Bool
  opened : Option Int

/-- The round with files that follow the rule of `File::failed`. -/
def Opening.attempt (i : Opening) : Client.Attempt := ⟨i.sizes, i.path, i.opened, fun _ => none⟩

namespace Dispatcher

/-- The transfer has no slot and its timer is armed. -/
def ready (s : Dispatcher) (ds : DsTime) (t : TransferRef) : Bool :=
  match s.client.transfers t with
  | none => false
  | some tr => !tr.slot && (s.timers t).armed ds

def sooner (s : Dispatcher) (ds : DsTime) (nextit : Option TransferRef) (it : TransferRef) :
    Option TransferRef :=
  if s.ready ds it then
    match nextit with
    | none => some it
    | some best => if (s.timers it).retryIn ds < (s.timers best).retryIn ds then some it else nextit
  else nextit

def nextTransfer (s : Dispatcher) (d : Direction) (ds : DsTime) : Option TransferRef :=
  (s.client.queue d).foldl (s.sooner ds) none

/-- `Transfer::failed` for a transfer that is now `tr`. -/
def failed (s : Dispatcher) (ds : DsTime) (t : TransferRef) (tr : Transfer) (i : Opening) :
    Dispatcher :=
  { s with
    client := s.client.failedAs t tr .read i.attempt.answer
    timers := Function.update s.timers t ((s.timers t).backoff ds) }

/-- A round of the loop: `dispatch` returns whether it has started a transfer, or goes on. -/
def round (d : Direction) (ds : DsTime) (s : Dispatcher) (i : Opening) :
    Round Dispatcher (Bool × Dispatcher) :=
  match s.nextTransfer d ds with
  | none => .done (false, s)
  | some t =>
    match s.client.transfers t with
    | none => .done (false, s)
    | some tr =>
      match s.client.setup tr i.attempt with
      -- no key for the decryption of the file
      | none => .done (false, s)
      | some tr =>
        match Client.opened tr i.attempt with
        | some tr => .done
            (true, { s with client := s.client.setTransfer t tr, tslots := s.tslots + 1 })
        | none => .again (s.failed ds t tr i)

/-- `MegaClient::dispatch`, with at most `fuel` rounds: the calls of `failed`, what it returns and
the client after it. -/
def dispatch (fuel : ℕ) (d : Direction) (ds : DsTime) (inputs : ℕ → Opening) (s : Dispatcher) :
    Option (ℕ × Bool × Dispatcher) :=
  if s.tslots < Pipelining.maxTransfers then loop (round d ds) fuel inputs s
  else some (0, false, s)

def patience (s : Dispatcher) (t : TransferRef) : ℕ :=
  match s.client.transfers t with
  | none => 0
  | some tr => 17 - min tr.failcount 16

/-- How many times the transfers of a direction can still fail. -/
def failures (s : Dispatcher) (d : Direction) : ℕ := ((s.client.queue d).map s.patience).sum

end Dispatcher

/-- The entries of a queue are live transfers of its direction. -/
def Live (s : Client) (d : Direction) : Prop :=
  ∀ t ∈ s.queue d, ∃ tr, s.transfers t = some tr ∧ tr.type = d

/-- Both queues hold live transfers, and the next transfer is new. -/
structure Stocked (s : Client) : Prop where
  live : ∀ d, Live s d
  fresh : ∀ t, s.nextTransfer ≤ t → s.transfers t = none

namespace Stocked
variable {s : Client} {t : TransferRef} {tr : Transfer}

theorem start : Stocked Client.start where
  live _ _ mem := absurd mem List.not_mem_nil
  fresh _ _ := rfl

/-- Only the transfers and the queues matter. -/
theorem files (stocked : Stocked s) {u : Client} (transfers : u.transfers = s.transfers)
    (queue : u.queue = s.queue) (next : u.nextTransfer = s.nextTransfer) : Stocked u where
  live d t mem := by
    rw [queue] at mem
    rw [transfers]
    exact stocked.live d t mem
  fresh t later := by
    rw [next] at later
    rw [transfers]
    exact stocked.fresh t later

theorem setFile (stocked : Stocked s) (f : FileRef) (file : File) : Stocked (s.setFile f file) :=
  stocked.files rfl rfl rfl

theorem setTransfer (stocked : Stocked s) (live : s.transfers t = some tr) {tr' : Transfer}
    (type : tr'.type = tr.type) : Stocked (s.setTransfer t tr') where
  live d u mem := by
    obtain ⟨ur, there, same⟩ := stocked.live d u mem
    rw [transfers_setTransfer]
    by_cases is : u = t
    · subst is
      obtain rfl := Option.some.inj (live.symm.trans there)
      rw [Function.update_self]
      exact ⟨tr', rfl, type.trans same⟩
    · rw [Function.update_of_ne is]
      exact ⟨ur, there, same⟩
  fresh u later := by
    have other : u ≠ t := by
      rintro rfl
      rw [stocked.fresh u later] at live
      cases live
    rw [transfers_setTransfer, Function.update_of_ne other]
    exact stocked.fresh u later

theorem deleteTransfer (stocked : Stocked s) (live : s.transfers t = some tr) {tr' : Transfer}
    (type : tr'.type = tr.type) : Stocked ((s.setTransfer t tr').deleteTransfer t) := by
  rw [deleteTransfer_eq, type]
  constructor
  · intro d u mem
    dsimp only at mem ⊢
    by_cases same : d = tr.type
    · rw [same, Function.update_self] at mem
      obtain ⟨there, other⟩ := List.mem_filter.mp mem
      rw [Function.update_of_ne (of_decide_eq_true other), same]
      exact stocked.live _ u there
    · rw [Function.update_of_ne same] at mem
      obtain ⟨ur, there, type'⟩ := stocked.live d u mem
      have other : u ≠ t := by
        rintro rfl
        obtain rfl := Option.some.inj (live.symm.trans there)
        exact same type'.symm
      rw [Function.update_of_ne other]
      exact ⟨ur, there, type'⟩
  · intro u later
    dsimp only at later ⊢
    by_cases is : u = t
    · rw [is, Function.update_self]
    · rw [Function.update_of_ne is]
      exact stocked.fresh u later

theorem addTransfer (stocked : Stocked s) (d : Direction) (f : FileRef) (key : FileFingerprint) :
    Stocked (s.addTransfer d f key) := by
  constructor
  · intro d' u mem
    rw [Client.addTransfer]
    dsimp only
    rw [transfers_setTransfer]
    rcases (mem_addTransfer s d f key d' u).mp mem with ⟨rfl, rfl⟩ | mem
    · exact ⟨_, Function.update_self .., rfl⟩
    · have old : u ≠ s.nextTransfer := by
        rintro rfl
        obtain ⟨ur, there, -⟩ := stocked.live d' _ mem
        rw [stocked.fresh _ le_rfl] at there
        cases there
      rw [Function.update_of_ne old]
      exact stocked.live d' u mem
  · intro u later
    have other : u ≠ s.nextTransfer := Nat.ne_of_gt later
    rw [Client.addTransfer] at later ⊢
    dsimp only at later ⊢
    rw [transfers_setTransfer, Function.update_of_ne other]
    exact stocked.fresh u (Nat.le_of_succ_le later)

theorem failedAs (stocked : Stocked s) (live : s.transfers t = some tr) {tr' : Transfer}
    (type : tr'.type = tr.type) (e : ApiError) (answer : FileRef → Option Bool) :
    Stocked (s.failedAs t tr' e answer) := by
  rw [Client.failedAs]
  split
  · exact stocked.setTransfer live type
  · exact stocked.deleteTransfer live type

theorem stopxfer (stocked : Stocked s) (f : FileRef) : Stocked (s.stopxfer f) := by
  rw [Client.stopxfer]
  split
  · exact stocked
  · split
    · exact stocked
    · dsimp only
      split
      · exact stocked.setFile f _
      · rename_i tr live
        split
        · refine (stocked.deleteTransfer live ?_).setFile f _
          rfl
        · refine (stocked.setTransfer live ?_).setFile f _
          rfl

theorem startxfer (stocked : Stocked s) (d : Direction) (f : FileRef)
    (fa : Option FileFingerprint.Source) : Stocked (s.startxfer d f fa) := by
  rw [Client.startxfer]
  split
  · exact stocked
  · split
    · exact stocked
    · dsimp only
      split
      · exact stocked.setFile f _
      · split
        · split
          · exact stocked.setFile f _
          · rename_i tr live
            refine (stocked.setTransfer live ?_).setFile f _
            rfl
        · exact (stocked.addTransfer d f _).setFile f _

theorem dispatch (stocked : Stocked s) (t : TransferRef) (a : Client.Attempt) :
    Stocked (s.dispatch t a) := by
  rw [Client.dispatch]
  split
  · exact stocked
  · rename_i tr live
    split
    · exact stocked
    · split
      · exact stocked
      · rename_i tr' keyed
        have type := setup_type keyed
        split
        · rename_i opened opens
          exact stocked.setTransfer live ((opened_type opens).trans type)
        · exact stocked.failedAs live type _ _

theorem complete (stocked : Stocked s) (t : TransferRef) (call : Client.Call) :
    Stocked (s.complete t call) := by
  have settled : ∀ fs outcome, Stocked (s.settleFiles fs outcome) := fun fs outcome =>
    stocked.files rfl rfl rfl
  rw [Client.complete]
  split
  · exact stocked
  · rename_i tr live
    split
    · exact stocked
    · split
      · split
        · exact stocked.failedAs live rfl _ _
        · dsimp only
          split
          · refine (settled _ _).deleteTransfer live ?_
            rfl
          · refine (settled _ _).setTransfer live ?_
            rfl
      · dsimp only
        split
        · refine stocked.failedAs live ?_ _ _
          rfl
        · refine (settled _ _).deleteTransfer live ?_
          rfl

theorem step (stocked : Stocked s) (e : Event) : Stocked (step s e) := by
  cases e with
  | newFile fingerprint filekey hprivate => exact stocked.files rfl rfl rfl
  | deleteFile f => exact (stocked.stopxfer f).files rfl rfl rfl
  | startxfer d f fa => exact stocked.startxfer d f fa
  | stopxfer f => exact stocked.stopxfer f
  | dispatch t a => exact stocked.dispatch t a
  | failed t e answer =>
    rw [Queue.step, Client.failed]
    split
    · exact stocked
    · rename_i tr live
      exact stocked.failedAs live rfl e answer
  | complete t call => exact stocked.complete t call

end Stocked

/-- In every state that the client can get into, the queues hold live transfers. -/
theorem live_run (events : List Event) (d : Direction) :
    Live (run step Client.start events) d := by
  have always : Always step Stocked Client.start events :=
    always_of_step (fun _ e stocked => stocked.step e) Stocked.start events
  exact always.at_end.live d

namespace Dispatcher
variable {s : Dispatcher} {d : Direction} {ds : DsTime}

/-- The scan stays in the queue. -/
theorem foldl_sooner_mem (order : List TransferRef) (nextit : Option TransferRef)
    {t : TransferRef} (found : order.foldl (s.sooner ds) nextit = some t) :
    nextit = some t ∨ t ∈ order := by
  induction order generalizing nextit with
  | nil => exact .inl found
  | cons it rest ih =>
    rcases ih _ found with first | later
    · rw [sooner.eq_def] at first
      split at first
      · split at first
        · exact .inr (List.mem_cons.mpr (.inl (Option.some.inj first).symm))
        · split at first
          · exact .inr (List.mem_cons.mpr (.inl (Option.some.inj first).symm))
          · exact .inl first
      · exact .inl first
    · exact .inr (List.mem_cons_of_mem _ later)

theorem nextTransfer_mem {t : TransferRef} (found : s.nextTransfer d ds = some t) :
    t ∈ s.client.queue d := by
  rcases foldl_sooner_mem _ none found with none | mem
  · cases none
  · exact mem

theorem setup_failcount {client : Client} {tr tr' : Transfer} {a : Client.Attempt}
    (keyed : client.setup tr a = some tr') : tr'.failcount = tr.failcount := by
  rw [Client.setup] at keyed
  split at keyed
  · rw [Option.some.inj keyed]
  · split at keyed
    · rw [← Option.some.inj keyed]
    · obtain ⟨size, -, rfl⟩ := Option.map_eq_some_iff.mp keyed
      rfl

/-- A transfer is tried again only if it has failed fewer than sixteen times. -/
theorem failcount_of_deferred {tr : Transfer} {i : Opening}
    (again : Client.deferred tr .read i.attempt.answer) : tr.failcount < 16 := by
  obtain ⟨f, -, wants⟩ := List.any_eq_true.mp again
  have few : (tr.failcount < 16) = true := by
    simpa [Files.Transfer.wantsRetry, Opening.attempt] using wants
  simpa using few

/-- A failed transfer either counts the failure or leaves the queue. -/
theorem failed_cases (s : Dispatcher) (ds : DsTime) (t : TransferRef) (tr : Transfer)
    (i : Opening) :
    (tr.failcount < 16 ∧ (s.failed ds t tr i).client.queue = s.client.queue ∧
      (s.failed ds t tr i).client.transfers = Function.update s.client.transfers t
        (some { tr with failcount := tr.failcount + 1, slot := false })) ∨
    ((s.failed ds t tr i).client.queue = Function.update s.client.queue tr.type
        ((s.client.queue tr.type).filter (· ≠ t)) ∧
      (s.failed ds t tr i).client.transfers = Function.update s.client.transfers t none) := by
  have client : (s.failed ds t tr i).client = s.client.failedAs t tr .read i.attempt.answer := rfl
  rw [client, Client.failedAs]
  split
  · rename_i again
    exact .inl ⟨failcount_of_deferred again, rfl, rfl⟩
  · rw [deleteTransfer_eq]
    exact .inr ⟨rfl, rfl⟩

/-- Each failure uses up one of those that are left. -/
theorem failed_lowers {t : TransferRef} {tr tr' : Transfer} (mem : t ∈ s.client.queue d)
    (live : s.client.transfers t = some tr) (type : tr'.type = d)
    (same : tr'.failcount = tr.failcount) (i : Opening) :
    (s.failed ds t tr' i).failures d < s.failures d := by
  have here : s.patience t = 17 - min tr.failcount 16 := by rw [patience, live]
  obtain ⟨sub, others, less⟩ :
      ((s.failed ds t tr' i).client.queue d).Sublist (s.client.queue d) ∧
        (∀ u, u ≠ t → (s.failed ds t tr' i).patience u = s.patience u) ∧
        (s.failed ds t tr' i).patience t < s.patience t := by
    rcases failed_cases s ds t tr' i with ⟨few, queue, transfers⟩ | ⟨queue, transfers⟩
    · refine ⟨by rw [queue], fun u other => ?_, ?_⟩
      · rw [patience, patience, transfers, Function.update_of_ne other]
      · rw [here, patience, transfers, Function.update_self]
        dsimp only
        omega
    · refine ⟨?_, fun u other => ?_, ?_⟩
      · rw [queue, type, Function.update_self]
        exact List.filter_sublist
      · rw [patience, patience, transfers, Function.update_of_ne other]
      · rw [here, patience, transfers, Function.update_self]
        dsimp only
        omega
  refine sum_lt_of_lower sub (fun u => ?_) ⟨t, mem, less⟩
  by_cases is : u = t
  · rw [is]
    exact Nat.le_of_lt less
  · exact Nat.le_of_eq (others u is)

theorem live_failed {t : TransferRef} {tr : Transfer} (live : Live s.client d) (type : tr.type = d)
    (i : Opening) : Live (s.failed ds t tr i).client d := by
  intro u mem
  rcases failed_cases s ds t tr i with ⟨-, queue, transfers⟩ | ⟨queue, transfers⟩
  · rw [queue] at mem
    rw [transfers]
    by_cases is : u = t
    · rw [is, Function.update_self]
      exact ⟨_, rfl, type⟩
    · rw [Function.update_of_ne is]
      exact live u mem
  · rw [queue, type, Function.update_self] at mem
    obtain ⟨there, other⟩ := List.mem_filter.mp mem
    rw [transfers, Function.update_of_ne (of_decide_eq_true other)]
    exact live u there

/-- A repeated round has failed a transfer of the queue. -/
theorem round_again {i : Opening} {s' : Dispatcher} (turn : round d ds s i = .again s') :
    ∃ t tr tr', t ∈ s.client.queue d ∧ s.client.transfers t = some tr ∧
      s.client.setup tr i.attempt = some tr' ∧ s' = s.failed ds t tr' i := by
  rw [round] at turn
  split at turn
  · cases turn
  · rename_i t found
    split at turn
    · cases turn
    · rename_i tr there
      split at turn
      · cases turn
      · rename_i tr' keyed
        split at turn
        · cases turn
        · exact ⟨t, tr, tr', nextTransfer_mem found, there, keyed, (Round.again.inj turn).symm⟩

/-- A round that returns has started one transfer, or none and nothing has changed. -/
theorem round_done {i : Opening} {r : Bool × Dispatcher} (turn : round d ds s i = .done r) :
    (r.1 = true ∧ r.2.tslots = s.tslots + 1) ∨ (r.1 = false ∧ r.2.tslots = s.tslots) := by
  rw [round] at turn
  split at turn
  · exact .inr (by rw [← Round.done.inj turn]; exact ⟨rfl, rfl⟩)
  · split at turn
    · exact .inr (by rw [← Round.done.inj turn]; exact ⟨rfl, rfl⟩)
    · split at turn
      · exact .inr (by rw [← Round.done.inj turn]; exact ⟨rfl, rfl⟩)
      · split at turn
        · exact .inl (by rw [← Round.done.inj turn]; exact ⟨rfl, rfl⟩)
        · cases turn

/-- `dispatch` returns, whatever files cannot be opened and whatever the timers say: it starts
one transfer or none, after no more failures than its transfers have left. -/
theorem dispatch_returns (d : Direction) (ds : DsTime) (inputs : ℕ → Opening) (s : Dispatcher)
    (live : Live s.client d) {fuel : ℕ} (enough : s.failures d < fuel) :
    ∃ failed started s', dispatch fuel d ds inputs s = some (failed, started, s') ∧
      failed ≤ s.failures d ∧
      ((started = true ∧ s'.tslots = s.tslots + 1) ∨ (started = false ∧ s'.tslots = s.tslots)) := by
  have again : ∀ u i u', (Live u.client d ∧ u.tslots = s.tslots) → round d ds u i = .again u' →
      (Live u'.client d ∧ u'.tslots = s.tslots) ∧ u'.failures d < u.failures d := by
    rintro u i u' ⟨entries, slots⟩ turn
    obtain ⟨t, tr, tr', mem, there, keyed, rfl⟩ := round_again turn
    obtain ⟨ur, there', type⟩ := entries t mem
    obtain rfl := Option.some.inj (there.symm.trans there')
    have type' := (setup_type keyed).trans type
    exact ⟨⟨live_failed entries type' i, slots⟩,
      failed_lowers mem there type' (setup_failcount keyed) i⟩
  have done : ∀ u i (r : Bool × Dispatcher), (Live u.client d ∧ u.tslots = s.tslots) →
      round d ds u i = .done r → (r.1 = true ∧ r.2.tslots = s.tslots + 1) ∨
        (r.1 = false ∧ r.2.tslots = s.tslots) := by
    rintro u i r ⟨-, slots⟩ turn
    rw [← slots]
    exact round_done turn
  rw [dispatch]
  split
  · obtain ⟨n, ⟨started, s'⟩, ended, bound, post⟩ :=
      loop_returns (fun u => u.failures d) again done ⟨live, rfl⟩ enough inputs
    exact ⟨n, started, s', ended, bound, post⟩
  · exact ⟨0, false, s, rfl, Nat.zero_le _, .inr ⟨rfl, rfl⟩⟩

/-- One upload is queued, and doio has left its timer without a delay. -/
def oneUpload : Dispatcher where
  client := run Queue.step Client.start
    [.newFile (sized 1) (Vector.replicate 4 0) false, .startxfer .put 0 none]
  timers _ := ⟨0, 0⟩
  tslots := 0

def unopenable : ℕ → Opening := fun _ => ⟨fun _ => none, true, none⟩

theorem dispatch_returns_oneUpload :
    ∃ failed started s', dispatch 18 .put 5 unopenable oneUpload = some (failed, started, s') ∧
      failed ≤ oneUpload.failures .put ∧
      ((started = true ∧ s'.tslots = oneUpload.tslots + 1) ∨
        (started = false ∧ s'.tslots = oneUpload.tslots)) :=
  dispatch_returns .put 5 unopenable oneUpload (live_run _ .put) (by decide +kernel)

/-- The upload is due again after each of its seventeen failures. -/
example : (dispatch 18 .put 5 unopenable oneUpload).map Prod.fst = some 17 := by decide +kernel

end Dispatcher

end MegaSdk.Xfer.Queue
