import MegaSdk.Xfer.Slot
import Mathlib.Algebra.BigOperators.Group.List.Basic
import Mathlib.Data.Int.Order.Basic

/-!
# How many transfers run at once

`MegaClient::moretransfers` adds up what the transfers of a direction have done and have left to
do, and should let another one start when the last one is about to run out of data. It compares
the elapsed time where it means the number of transfers, which leaves that rule without effect.
-/

namespace MegaSdk.Xfer.Pipelining

/-- What `moretransfers` reads of a `TransferSlot` and its transfer. -/
structure TransferSlot where
  type : Direction
  starttime : DsTime
  size : ℤ
  progressReported : ℤ
  deriving DecidableEq

/-- What the language leaves undefined or to the implementation. -/
inductive Fault where
  | divisionByZero
  | narrowing
  deriving DecidableEq, Repr

def maxTransfers : ℕ := 8

def minPipeline : ℤ := 65536

def slotavail (tslots : List TransferSlot) : Bool := tslots.length < maxTransfers

/-- The accumulators of the loop; `c` and `r` are sums of sizes that fit into `m_off_t`. -/
structure Totals where
  c : ℤ
  r : ℤ
  t : DsTime
  total : ℕ

def Totals.zero : Totals := ⟨0, 0, 0, 0⟩

def Totals.add (ds : DsTime) (d : Direction) (a : Totals) (it : TransferSlot) : Totals :=
  if it.type = d then
    { c := a.c + it.progressReported
      r := a.r + (it.size - it.progressReported)
      t := if it.starttime ≠ 0 then a.t + (ds - it.starttime) else a.t
      total := a.total + 1 }
  else a

def divide (x y : ℤ) : Except Fault ℤ := if y = 0 then .error .divisionByZero else .ok (x.tdiv y)

/-- The conversion to `int`. -/
def narrow (x : ℤ) : Except Fault ℤ :=
  if -2147483648 ≤ x ∧ x < 2147483648 then .ok x else .error .narrowing

/-- The rule about the speed: less than two seconds of data at more than 100 bytes each
decisecond. -/
def drains (a : Totals) : Except Fault Bool :=
  (divide a.c a.t.toNat).bind fun speed => (narrow speed).bind fun bpds =>
    if bpds > 100 then (divide a.r bpds).map fun left => decide (left < 20) else .ok false

def moretransfers (ds : DsTime) (tslots : List TransferSlot) (d : Direction) : Except Fault Bool :=
  if slotavail tslots then
    let a := tslots.foldl (Totals.add ds d) .zero
    if a.r < minPipeline then .ok true
    -- the elapsed time stands where the number of transfers is meant
    else if a.t ≥ 2 then .ok false
    else if a.t > 50 then drains a
    else .ok false
  else .ok false

section Rule

variable (ds : DsTime) (tslots : List TransferSlot) (d : Direction)

def running : List TransferSlot := tslots.filter fun s => s.type = d

def remaining : ℤ := ((running tslots d).map fun s => s.size - s.progressReported).sum

def transferred : ℤ := ((running tslots d).map TransferSlot.progressReported).sum

/-- The transfer time of the transfers that have started. -/
def elapsed : ℕ :=
  (((running tslots d).filter fun s => s.starttime ≠ 0).map fun s => (ds - s.starttime).toNat).sum

/-- At most one transfer runs, its speed is known from more than five seconds, and at this speed
less than two seconds remain. -/
def Draining : Prop :=
  (running tslots d).length < 2 ∧ 50 < elapsed ds tslots d ∧
    remaining tslots d * elapsed ds tslots d < 20 * transferred tslots d

def Rule : Prop :=
  slotavail tslots ∧ (remaining tslots d < minPipeline ∨ Draining ds tslots d)

end Rule

instance (ds : DsTime) (tslots : List TransferSlot) (d : Direction) :
    Decidable (Draining ds tslots d) := inferInstanceAs (Decidable (_ ∧ _ ∧ _))

variable {ds : DsTime} {tslots : List TransferSlot} {d : Direction}

/-- The loop adds up what remains. -/
theorem r_foldl (a : Totals) :
    (tslots.foldl (Totals.add ds d) a).r = a.r + remaining tslots d := by
  induction tslots generalizing a with
  | nil => simp [remaining, running]
  | cons s rest ih =>
    rw [List.foldl_cons, ih]
    by_cases same : s.type = d
    · simp [Totals.add, remaining, running, same, add_assoc]
    · simp [Totals.add, remaining, running, same]

/-- Neither the number of transfers nor their speed plays a part, and nothing is divided or
narrowed. -/
theorem moretransfers_eq (ds : DsTime) (tslots : List TransferSlot) (d : Direction) :
    moretransfers ds tslots d =
      .ok (slotavail tslots && decide (remaining tslots d < minPipeline)) := by
  have sum := @r_foldl ds tslots d .zero
  have zero : Totals.zero.r = 0 := rfl
  rw [zero, zero_add] at sum
  rw [moretransfers]
  split
  · rename_i avail
    rw [avail]
    dsimp only
    rw [sum]
    split
    · rename_i few
      simp [few]
    · rename_i many
      split
      · simp [many]
      · rename_i early
        have never : ¬(tslots.foldl (Totals.add ds d) .zero).t > 50 := by
          intro late
          rw [ge_iff_le, UInt32.not_le] at early
          rw [gt_iff_lt, UInt32.lt_iff_toNat_lt] at late
          rw [UInt32.lt_iff_toNat_lt] at early
          exact absurd (Nat.lt_trans late early) (by decide)
        rw [if_neg never]
        simp [many]
  · rename_i busy
    simp [busy]

/-- `moretransfers` follows the rule unless a slot is free, there is more than the pipeline holds
left to do and the only transfer is about to run out of data. -/
theorem moretransfers_rule_iff (ds : DsTime) (tslots : List TransferSlot) (d : Direction) :
    (∃ more, moretransfers ds tslots d = .ok more ∧ (more = true ↔ Rule ds tslots d)) ↔
      ¬(slotavail tslots ∧ minPipeline ≤ remaining tslots d ∧ Draining ds tslots d) := by
  rw [moretransfers_eq, Rule, ← not_lt]
  by_cases avail : slotavail tslots
  · by_cases few : remaining tslots d < minPipeline
    · simp [avail, few]
    · simp [avail, few]
  · simp [avail]

/-- A download of 101 MB has brought in 100 MB in ten seconds. -/
def lastMegabyte : TransferSlot := ⟨.get, 900, 101000000, 100000000⟩

/-- A tenth of a second before it is done, no other download may start. -/
theorem lastMegabyte_waits :
    ¬∀ ds tslots d, ∃ more, moretransfers ds tslots d = .ok more ∧
      (more = true ↔ Rule ds tslots d) := by
  intro always
  obtain ⟨more, result, rule⟩ := always 1000 [lastMegabyte] .get
  have refused : moretransfers 1000 [lastMegabyte] .get = .ok false := by decide
  obtain rfl := Except.ok.inj (refused.symm.trans result)
  have draining : Draining 1000 [lastMegabyte] .get := by decide
  exact absurd (rule.mpr ⟨by decide, .inr draining⟩) (by decide)

end MegaSdk.Xfer.Pipelining
