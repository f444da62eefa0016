import MegaSdk.Types

/-!
# Timer with capped exponential backoff

backofftimer.cpp. The clock `Waiter::ds` is an argument `ds`; all arithmetic is
modulo 2^32, and `next = 0` means that no retry is scheduled.
-/

namespace MegaSdk.Api

structure BackoffTimer where
  next : DsTime
  delta : DsTime
  deriving DecidableEq, Repr

namespace BackoffTimer

def reset : BackoffTimer := ⟨0, 1⟩

/-- `backoff()`: the delay doubles up to one hour. -/
def backoff (ds : DsTime) (t : BackoffTimer) : BackoffTimer where
  next := ds + t.delta
  delta := if t.delta <<< 1 > 36000 then 36000 else t.delta <<< 1

/-- `backoff(newdelta)`. -/
def backoffBy (ds newDelta : DsTime) : BackoffTimer := ⟨ds + newDelta, newDelta⟩

def armed (ds : DsTime) (t : BackoffTimer) : Bool := t.next = 0 || ds ≥ t.next

/-- `arm()`: returns whether the retry was brought forward, and the new timer. -/
def arm (ds : DsTime) (t : BackoffTimer) : Bool × BackoffTimer :=
  if t.next + t.delta > ds then (true, ⟨ds, 1⟩) else (false, t)

def retryIn (ds : DsTime) (t : BackoffTimer) : DsTime :=
  if t.armed ds then 0 else t.next - ds

def nextSet (t : BackoffTimer) : DsTime := t.next

/-- `update(waituntil)`: an event in the past zeros the wait and is marked due. -/
def update (ds waitUntil : DsTime) (t : BackoffTimer) : DsTime × BackoffTimer :=
  if t.next = 0 then (waitUntil, t)
  else if t.next ≤ ds then (0, { t with next := 1 })
  else if t.next < waitUntil then (t.next, t)
  else (waitUntil, t)

def Settled (t : BackoffTimer) : Prop := t.next = 0 → t.delta = 1

theorem settled_reset : Settled reset := fun _ => rfl

theorem Settled.eq_reset {t : BackoffTimer} (settled : t.Settled) (idle : t.next = 0) :
    t = reset := by
  have delta := settled idle
  cases t
  simp_all [reset]

/-- At a positive clock value an idle timer stays idle and a set one stays set. -/
theorem arm_next_eq_zero_iff {ds : DsTime} (clock : 1 ≤ ds) {t : BackoffTimer}
    (settled : t.Settled) : (t.arm ds).2.next = 0 ↔ t.next = 0 := by
  rw [arm]
  split
  · rename_i later
    constructor
    · intro hz
      simp only at hz
      subst hz
      exact absurd clock (by decide)
    · intro hz
      rw [hz, settled hz, UInt32.zero_add] at later
      exact absurd clock (UInt32.not_le.mpr later)
  · rfl

theorem arm_settled {ds : DsTime} {t : BackoffTimer} (settled : t.Settled) :
    (t.arm ds).2.Settled := by
  rw [arm]
  split
  · exact fun _ => rfl
  · exact settled

theorem update_next_eq_zero_iff (ds waitUntil : DsTime) (t : BackoffTimer) :
    (t.update ds waitUntil).2.next = 0 ↔ t.next = 0 := by
  rw [update]
  repeat' split
  all_goals simp_all

theorem update_settled {ds waitUntil : DsTime} {t : BackoffTimer} (settled : t.Settled) :
    (t.update ds waitUntil).2.Settled := by
  intro hz
  have idle := (update_next_eq_zero_iff ds waitUntil t).mp hz
  rw [update, if_pos idle]
  exact settled idle

end BackoffTimer

end MegaSdk.Api
