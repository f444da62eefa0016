import MegaSdk.Api.BackoffTimer
import MegaSdk.Lib.Runs
import Mathlib.Algebra.Group.Int.Defs

/-!
# The delays of a backoff timer

A timer under the operations of the client. The delay doubles from what `backoff(n)` has set,
and `TransferSlot::doio` sets what is left of the transfer timeout, which is nothing once the
timeout has come and wraps around after it.
-/

namespace MegaSdk.Api.BackoffTimer

open Runs

def xferTimeout : DsTime := 600

/-- Where the argument of `backoff(n)` comes from: `doio` waits for the transfer limit, for a
read, or for the timeout after `lastdata`, or retries a completion; `complete` and `exec`. -/
inductive Source where
  | transferLimit
  | readRetry
  | timeout (lastdata : DsTime)
  | pendingCompletion
  | complete
  | exec (n : DsTime)
  deriving DecidableEq, Repr

/-- The argument at the clock value `ds`. -/
def Source.delta (ds : DsTime) : Source → DsTime
  | .transferLimit => 6000
  | .readRetry => 2
  | .timeout lastdata => xferTimeout - (ds - lastdata)
  | .pendingCompletion => 2
  | .complete => 11
  | .exec n => n

inductive Op where
  | reset
  | backoff
  | backoffBy (source : Source)
  | arm
  | update (waitUntil : DsTime)
  deriving DecidableEq, Repr

/-- An operation with the clock value at which it is called. -/
structure Event where
  ds : DsTime
  op : Op
  deriving DecidableEq, Repr

/-- The time of the last data, where `doio` waits for the timeout. -/
def Op.lastdata : Op → Option DsTime
  | .backoffBy (.timeout lastdata) => some lastdata
  | _ => none

/-- The calls of a client: the clock does not go back and stays below 2^31, and the last data
came in the past. -/
structure Issued (events : List Event) : Prop where
  clock : ∀ e ∈ events, e.ds.toNat < 2 ^ 31
  ordered : (events.map Event.ds).Pairwise (· ≤ ·)
  past : ∀ e ∈ events, ∀ lastdata ∈ e.op.lastdata, lastdata ≤ e.ds

/-- A timer with the delay of the last `backoff()`, unless `reset`, `arm` or `backoff(n)` has
come after it. -/
structure Watched where
  timer : BackoffTimer
  last : Option ℤ

namespace Watched

def start : Watched := ⟨.reset, none⟩

/-- The delay that `backoff()` schedules. -/
def delay (s : Watched) (ds : DsTime) : ℤ := (s.timer.backoff ds).next.toNat - ds.toNat

def step (s : Watched) (e : Event) : Watched :=
  match e.op with
  | .reset => ⟨.reset, none⟩
  | .backoff => ⟨s.timer.backoff e.ds, some (s.delay e.ds)⟩
  | .backoffBy source => ⟨backoffBy e.ds (source.delta e.ds), none⟩
  | .arm => ⟨(s.timer.arm e.ds).2, none⟩
  | .update waitUntil => ⟨(s.timer.update e.ds waitUntil).2, s.last⟩

/-- `backoff()` schedules the next attempt after the current time and within an hour, and does
not shorten the delay. -/
def Sound (s : Watched) (e : Event) : Prop :=
  e.op = .backoff → 0 < s.delay e.ds ∧ s.delay e.ds ≤ 36000 ∧ ∀ d ∈ s.last, d ≤ s.delay e.ds

/-- `backoff()` finds a delay of at most an hour that is not zero. -/
def Ranged (s : Watched) (e : Event) : Prop :=
  e.op = .backoff → 1 ≤ s.timer.delta ∧ s.timer.delta ≤ 36000

instance (s : Watched) (e : Event) : Decidable (s.Ranged e) :=
  inferInstanceAs (Decidable (_ → _))

variable {s : Watched} {ds : DsTime}

/-- The delay is the one found, if the sum does not wrap around. -/
theorem delay_eq (clock : ds.toNat < 2 ^ 31) :
    s.delay ds = if ds.toNat + s.timer.delta.toNat < 2 ^ 32 then (s.timer.delta.toNat : ℤ)
      else s.timer.delta.toNat - 2 ^ 32 := by
  have bound := s.timer.delta.toNat_lt
  rw [delay, BackoffTimer.backoff, UInt32.toNat_add]
  split
  · rw [Nat.mod_eq_of_lt (by assumption)]
    omega
  · omega

theorem ranged_iff (d : DsTime) : (1 ≤ d ∧ d ≤ 36000) ↔ 1 ≤ d.toNat ∧ d.toNat ≤ 36000 := by
  rw [UInt32.le_iff_toNat_le, UInt32.le_iff_toNat_le]
  exact Iff.rfl

/-- The next attempt is scheduled in the future and within an hour exactly from such a delay. -/
theorem delay_iff (clock : ds.toNat < 2 ^ 31) :
    (0 < s.delay ds ∧ s.delay ds ≤ 36000) ↔ 1 ≤ s.timer.delta ∧ s.timer.delta ≤ 36000 := by
  have bound := s.timer.delta.toNat_lt
  rw [delay_eq clock, ranged_iff]
  split
  · omega
  · omega

/-- The doubled delay. -/
theorem toNat_doubled {d : DsTime} (small : d.toNat ≤ 36000) :
    (if d <<< 1 > 36000 then (36000 : DsTime) else d <<< 1).toNat = min (2 * d.toNat) 36000 := by
  have twice : (d <<< 1).toNat = 2 * d.toNat := by
    rw [UInt32.toNat_shiftLeft, Nat.shiftLeft_eq]
    have one : (1 : UInt32).toNat % 32 = 1 := rfl
    rw [one, Nat.mod_eq_of_lt (by omega)]
    omega
  split
  · rename_i above
    rw [gt_iff_lt, UInt32.lt_iff_toNat_lt, twice] at above
    have cap : (36000 : UInt32).toNat = 36000 := rfl
    omega
  · rename_i under
    rw [gt_iff_lt, UInt32.lt_iff_toNat_lt, twice] at under
    have cap : (36000 : UInt32).toNat = 36000 := rfl
    omega

def Grown (s : Watched) : Prop := ∀ d ∈ s.last, d ≤ s.timer.delta.toNat

theorem grown_start : Grown start := by simp [Grown, start]

/-- What `backoff()` should do it does exactly from a delay in range. -/
theorem sound_iff (grown : Grown s) {e : Event} (clock : e.ds.toNat < 2 ^ 31) :
    Sound s e ↔ Ranged s e := by
  have same := delay_iff (s := s) clock
  constructor
  · intro sound isBackoff
    obtain ⟨later, capped, -⟩ := sound isBackoff
    exact same.mp ⟨later, capped⟩
  · intro ranged isBackoff
    obtain ⟨positive, capped⟩ := (ranged_iff _).mp (ranged isBackoff)
    obtain ⟨later, within⟩ := same.mpr (ranged isBackoff)
    refine ⟨later, within, fun d last => ?_⟩
    have least := grown d last
    rw [delay_eq clock, if_pos (by omega)]
    exact least

theorem delta_update (t : BackoffTimer) (waitUntil : DsTime) :
    (t.update ds waitUntil).2.delta = t.delta := by
  rw [update]
  repeat' split
  all_goals rfl

/-- From a delay in range `backoff()` leaves one that is no smaller, in range again. -/
theorem step_backoff_delta (ds : DsTime) (positive : 1 ≤ s.timer.delta.toNat)
    (capped : s.timer.delta.toNat ≤ 36000) :
    s.timer.delta.toNat ≤ (s.timer.backoff ds).delta.toNat ∧
      (s.timer.backoff ds).delta.toNat ≤ 36000 := by
  have doubled := toNat_doubled capped
  rw [BackoffTimer.backoff]
  dsimp only
  omega

theorem Grown.step (grown : Grown s) (e : Event) (clock : e.ds.toNat < 2 ^ 31)
    (ranged : Ranged s e) : Grown (s.step e) := by
  rw [Watched.step]
  cases op : e.op with
  | reset => simp [Grown]
  | backoff =>
    obtain ⟨positive, capped⟩ := (ranged_iff _).mp (ranged op)
    rintro d last
    obtain rfl := Option.some.inj last
    have doubled := (step_backoff_delta e.ds positive capped).1
    rw [delay_eq clock, if_pos (by omega)]
    exact_mod_cast doubled
  | backoffBy source => simp [Grown]
  | arm => simp [Grown]
  | update waitUntil =>
    intro d last
    dsimp only
    rw [delta_update]
    exact grown d last

/-- The rest of the timeout is in range until the timeout has come. -/
theorem timeout_ranged_iff {lastdata : DsTime} (clock : ds.toNat < 2 ^ 31) (past : lastdata ≤ ds) :
    (1 ≤ (Source.timeout lastdata).delta ds ∧ (Source.timeout lastdata).delta ds ≤ 36000) ↔
      ds.toNat < lastdata.toNat + 600 := by
  have least := UInt32.le_iff_toNat_le.mp past
  have limit : xferTimeout.toNat = 600 := rfl
  rw [ranged_iff, Source.delta, UInt32.toNat_sub, UInt32.toNat_sub_of_le _ _ past, limit]
  omega

/-- `backoff(n)` is called before the timeout has come, and by `exec` with a delay in range. -/
def InTime (e : Event) : Prop :=
  match e.op with
  | .backoffBy (.timeout lastdata) => e.ds.toNat < lastdata.toNat + 600
  | .backoffBy (.exec n) => 1 ≤ n ∧ n ≤ 36000
  | _ => True

instance decidableInTime : DecidablePred InTime
  | ⟨_, .backoffBy (.timeout _)⟩ => inferInstanceAs (Decidable (_ < _))
  | ⟨_, .backoffBy (.exec _)⟩ => inferInstanceAs (Decidable (_ ∧ _))
  | ⟨_, .backoffBy .transferLimit⟩ | ⟨_, .backoffBy .readRetry⟩
  | ⟨_, .backoffBy .pendingCompletion⟩ | ⟨_, .backoffBy .complete⟩
  | ⟨_, .reset⟩ | ⟨_, .backoff⟩ | ⟨_, .arm⟩ | ⟨_, .update _⟩ => isTrue trivial

def InRange (s : Watched) : Prop := 1 ≤ s.timer.delta ∧ s.timer.delta ≤ 36000

theorem inRange_one : (1 : DsTime) ≤ 1 ∧ (1 : DsTime) ≤ 36000 := by decide

/-- Such a `backoff(n)` sets a delay in range. -/
theorem inRange_backoffBy {e : Event} {source : Source} (op : e.op = .backoffBy source)
    (clock : e.ds.toNat < 2 ^ 31) (past : ∀ lastdata ∈ e.op.lastdata, lastdata ≤ e.ds)
    (inTime : InTime e) : 1 ≤ source.delta e.ds ∧ source.delta e.ds ≤ 36000 := by
  rw [InTime, op] at inTime
  rw [op] at past
  cases source with
  | timeout lastdata => exact (timeout_ranged_iff clock (past lastdata rfl)).mpr inTime
  | exec n => exact inTime
  | transferLimit | readRetry | pendingCompletion | complete =>
    rw [ranged_iff, Source.delta]
    decide

theorem InRange.step (inRange : InRange s) (e : Event) (clock : e.ds.toNat < 2 ^ 31)
    (past : ∀ lastdata ∈ e.op.lastdata, lastdata ≤ e.ds) (inTime : InTime e) :
    InRange (s.step e) := by
  rw [Watched.step]
  cases op : e.op with
  | reset => exact inRange_one
  | backoff =>
    obtain ⟨positive, capped⟩ := (ranged_iff _).mp inRange
    obtain ⟨least, most⟩ := step_backoff_delta e.ds positive capped
    exact (ranged_iff _).mpr ⟨Nat.le_trans positive least, most⟩
  | backoffBy source => exact inRange_backoffBy op clock past inTime
  | arm =>
    rw [InRange, arm]
    dsimp only
    split
    · exact inRange_one
    · exact inRange
  | update waitUntil =>
    rw [InRange]
    dsimp only
    rw [delta_update]
    exact inRange

/-- As long as `backoff(n)` only sets delays in range, `backoff()` finds such a delay. -/
theorem meets_ranged_of_inTime {events : List Event} (issued : Issued events)
    (inTime : ∀ e ∈ events, InTime e) : Meets step Ranged start events := by
  obtain ⟨clock, -, past⟩ := issued
  have inRange : InRange start := inRange_one
  generalize start = s at *
  induction events generalizing s with
  | nil => trivial
  | cons e rest ih =>
    obtain ⟨clock_e, clock⟩ := List.forall_mem_cons.mp clock
    obtain ⟨past_e, past⟩ := List.forall_mem_cons.mp past
    obtain ⟨inTime_e, inTime⟩ := List.forall_mem_cons.mp inTime
    exact ⟨fun _ => inRange,
      ih inTime clock past _ (inRange.step e clock_e past_e inTime_e)⟩

/-- In a run every `backoff()` schedules the next attempt in the future, within an hour and with
no shorter delay than the last one, exactly if every `backoff()` finds a delay between one
decisecond and an hour; so it is if `doio` does not wait for a timeout that has come. -/
theorem meets_sound_iff (events : List Event) (issued : Issued events) :
    (Meets step Sound start events ↔ Meets step Ranged start events) ∧
      ((∀ e ∈ events, InTime e) → Meets step Sound start events) := by
  have agree : ∀ s e, Grown s → e.ds.toNat < 2 ^ 31 → (Sound s e ↔ Ranged s e) :=
    fun _ _ grown clock => sound_iff grown clock
  have keeps : ∀ s e, Grown s → e.ds.toNat < 2 ^ 31 → Ranged s e → Grown (s.step e) :=
    fun _ e grown clock ranged => grown.step e clock ranged
  have same := meets_iff_meets agree keeps grown_start issued.clock
  exact ⟨same, fun inTime => same.mpr (meets_ranged_of_inTime issued inTime)⟩

theorem past_of_all {events : List Event}
    (all : events.all (fun e => e.op.lastdata.all fun lastdata => lastdata ≤ e.ds) = true) :
    ∀ e ∈ events, ∀ lastdata ∈ e.op.lastdata, lastdata ≤ e.ds := by
  intro e mem lastdata given
  have here := List.all_eq_true.mp all e mem
  rw [Option.mem_def.mp given] at here
  exact of_decide_eq_true here

/-- A transfer starts, waits for data, fails three times and is brought forward. -/
def failingTransfer : List Event :=
  [⟨100, .backoffBy (.timeout 90)⟩, ⟨400, .backoffBy (.timeout 390)⟩, ⟨410, .backoff⟩,
    ⟨900, .update 0xFFFFFFFF⟩, ⟨1000, .backoff⟩, ⟨2180, .arm⟩, ⟨2181, .backoff⟩]

theorem sound_failingTransfer : Meets step Sound start failingTransfer :=
  (meets_sound_iff failingTransfer
    ⟨by decide, by decide, past_of_all (by decide)⟩).2 (by decide)

/-- A transfer fails when no data has come for the whole timeout. -/
def stalledTransfer : List Event := [⟨1000, .backoffBy (.timeout 400)⟩, ⟨1000, .backoff⟩]

/-- It is due again at once; a decisecond later it would be due in the past. -/
theorem stalledTransfer_unsound :
    ¬∀ events, Issued events → Meets step Sound start events := by
  intro always
  obtain ⟨-, sound, -⟩ := always stalledTransfer ⟨by decide, by decide, past_of_all (by decide)⟩
  have later := (sound rfl).1
  exact absurd later (by decide)

end Watched

end MegaSdk.Api.BackoffTimer
