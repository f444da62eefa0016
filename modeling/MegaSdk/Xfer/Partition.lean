import MegaSdk.Xfer.Layout
import Mathlib.Data.List.Count

/-!
# The ranges that a slot hands out

The ledger of a slot: the ranges passed to successful `prepare` calls and those that have been
completed, written alongside the passes of doio over the connections. In both directions the
prepared ranges are consecutive chunks, and each of them is completed or held by one connection.
-/

namespace MegaSdk.Xfer

open Crypto Api

/-- What a slot has done to the file since it started at `start`: the ranges of the successful
`prepare` calls, in order, and the ranges of the requests that are done. -/
structure Ledger where
  start : Nat
  prepared : List (Nat × Nat)
  completed : List (Nat × Nat)
  deriving DecidableEq

def Ledger.add (l : Ledger) (prepared completed : List (Nat × Nat)) : Ledger :=
  ⟨l.start, l.prepared ++ prepared, l.completed ++ completed⟩

/-- A request that succeeded gives its range back. -/
def completes (r r' : HttpReqXfer) : List (Nat × Nat) :=
  if r.status = .success ∧ r'.status = .ready then [(r.pos, r.pos + r.size)] else []

/-- The range that an idle connection passes to a `prepare` that succeeds. -/
def prepares (job : Job) (env : ConnEnv) (io : Io) (r : Option HttpReqXfer) : List (Nat × Nat) :=
  let npos := chunkEnd io.t.size io.t.pos
  if io.s.failure = false ∧ idle r ∧ (npos > io.t.pos ∨ io.t.size = 0) ∧
      (prepare job env io.t npos).isSome then
    [(io.t.pos, npos)]
  else []

/-- The ledger after doio's loop body for one connection. -/
def serveLedger (job : Job) (ds : DsTime) (env : ConnEnv) (io : Io) (l : Ledger) :
    Option HttpReqXfer → Ledger
  | none => l.add (prepares job env io none) []
  | some r =>
    match handle job ds env io r with
    | (_, r', some _) => l.add [] (completes r r')
    | (io, r', none) => l.add (prepares job env io (some r')) (completes r r')

def passLedger (job : Job) (ds : DsTime) :
    List ConnEnv → Io → Ledger → List (Option HttpReqXfer) → Ledger
  | _, _, l, [] => l
  | envs, io, l, r :: rest =>
    let l := serveLedger job ds (envs.headD {}) io l r
    match serve job ds (envs.headD {}) io r with
    | (_, _, some _) => l
    | (io, _, none) => passLedger job ds envs.tail io l rest

/-- The ledger after a step: a new slot opens a new one, and only a pass over the connections
makes entries. -/
def actLedger (job : Job) (t : Transfer) (l : Ledger) : Event → Ledger
  | .dispatch ds opened connections =>
    if t.slot.isNone ∧ t.bt.armed ds then ⟨(dispatch job ds opened connections t).pos, [], []⟩ else l
  | .doio ds envs =>
    match t.slot with
    | none => l
    | some s =>
      if s.retrying ∧ s.retrybt.armed ds = false ∨ s.fa = false ∨ s.tempurl = [] then l
      else passLedger job ds envs ⟨t, { s with retrying := false }, 0, 0⟩ l s.reqs
  | _ => l

def stepLedger (job : Job) (x : Transfer × Ledger) (e : Event) : Transfer × Ledger :=
  (step job x.1 e, if x.1.live ∧ x.1.call.isNone then actLedger job x.1 x.2 e else x.2)

/-- The ranges are the chunks from `a` to `b`, one behind the other. -/
def Consecutive (size : Nat) : Nat → List (Nat × Nat) → Nat → Prop
  | a, [], b => a = b
  | a, c :: rest, b => c = (a, min (chunkCeil a) size) ∧ a < size ∧ Consecutive size c.2 rest b

def Holds (c : Nat × Nat) (r : Option HttpReqXfer) : Bool := busy r = [c]

/-- The prepared ranges partition what lies before the position of the transfer, each of them is
completed or held by exactly one connection, and no connection has another one. -/
structure Partitioned (t : Transfer) (s : Slot) (l : Ledger) : Prop where
  consecutive : Consecutive t.size l.start l.prepared t.pos
  inside : ∀ c ∈ l.prepared, c.1 < c.2 ∧ c.2 ≤ t.size
  owned : ∀ c ∈ l.prepared, l.completed.count c + s.reqs.countP (Holds c) = 1
  held : ∀ r ∈ s.reqs, ∀ c ∈ busy r, c ∈ l.prepared
  given : ∀ c ∈ l.completed, c ∈ l.prepared

section Consecutive

variable {size a b : Nat} {ranges : List (Nat × Nat)}

theorem Consecutive.snoc (chunks : Consecutive size a ranges b) (more : b < size) :
    Consecutive size a (ranges ++ [(b, chunkEnd size b)]) (chunkEnd size b) := by
  induction ranges generalizing a with
  | nil =>
    obtain rfl : a = b := chunks
    exact ⟨rfl, more, rfl⟩
  | cons c rest ih =>
    obtain ⟨range, inFile, later⟩ := chunks
    exact ⟨range, inFile, ih later⟩

theorem Consecutive.bounds (chunks : Consecutive size a ranges b) :
    ∀ c ∈ ranges, a ≤ c.1 ∧ c.1 < c.2 ∧ c.2 ≤ size := by
  induction ranges generalizing a with
  | nil =>
    intro c mem
    cases mem
  | cons first rest ih =>
    obtain ⟨rfl, inFile, later⟩ := chunks
    have grows := chunkCeil_gt a
    intro c mem
    rcases List.mem_cons.mp mem with rfl | tail
    · dsimp only
      omega
    · obtain ⟨low, nonempty, high⟩ := ih later c tail
      dsimp only at low
      omega

theorem Consecutive.nodup (chunks : Consecutive size a ranges b) : ranges.Nodup := by
  induction ranges generalizing a with
  | nil => exact List.nodup_nil
  | cons first rest ih =>
    obtain ⟨rfl, inFile, later⟩ := chunks
    have grows := chunkCeil_gt a
    refine List.nodup_cons.mpr ⟨fun again => ?_, ih later⟩
    have low := (later.bounds _ again).1
    dsimp only at low
    omega

end Consecutive

/-- The books are in order: the prepared ranges are those completed and those held. -/
structure Books (size pos : Nat) (l : Ledger) (held : List (Nat × Nat)) : Prop where
  consecutive : Consecutive size l.start l.prepared pos
  balance : l.prepared.Perm (l.completed ++ held)

section Pass

variable {job : Job} {ds : DsTime} {env : ConnEnv}

/-- Handling a request keeps its range or completes it. -/
theorem handle_ledger {io io' : Io} {r r' : HttpReqXfer} {v : Option Verdict}
    (handled : handle job ds env io r = (io', r', v)) :
    io'.t.size = io.t.size ∧ io'.t.pos = io.t.pos ∧
      completes r r' ++ busy (some r') = busy (some r) := by
  have kept : ∀ q : HttpReqXfer, q.pos = r.pos → q.size = r.size →
      (q.status = .ready ∨ q.status = .done ↔ r.status = .ready ∨ r.status = .done) →
      completes r q ++ busy (some q) = busy (some r) := by
    intro q pos size idle
    have still : completes r q = [] := if_neg fun ⟨success, ready⟩ => by
      have busyStatus := idle.mp (Or.inl ready)
      rw [success] at busyStatus
      simp at busyStatus
    rw [still, List.nil_append]
    exact busy_of_status pos size idle
  have released : r.status = .success →
      completes r { r with status := .ready } ++ busy (some { r with status := .ready }) =
        busy (some r) := by
    intro success
    simp [completes, busy, success]
  rw [handle] at handled
  split at handled
  · cases handled
    exact ⟨rfl, rfl, kept r rfl rfl Iff.rfl⟩
  · rename_i success
    split at handled
    · simp only [succeedPut] at handled
      split at handled
      · cases handled
        exact ⟨rfl, rfl, released success⟩
      · split at handled
        all_goals
          cases handled
          exact ⟨rfl, rfl, kept r rfl rfl Iff.rfl⟩
    · simp only [succeedGet] at handled
      split at handled
      · split at handled
        · split at handled
          · cases handled
            exact ⟨rfl, rfl, kept r rfl rfl Iff.rfl⟩
          · split at handled
            all_goals
              cases handled
              exact ⟨rfl, rfl, kept r rfl rfl Iff.rfl⟩
        · cases handled
          exact ⟨rfl, rfl, released success⟩
      · cases handled
        exact ⟨rfl, rfl, kept _ rfl rfl (by simp [success])⟩
  · rename_i failure
    split at handled
    · cases handled
      exact ⟨rfl, rfl, kept r rfl rfl Iff.rfl⟩
    · cases handled
      exact ⟨rfl, rfl, kept _ rfl rfl (by simp [failure])⟩
  all_goals
    cases handled
    exact ⟨rfl, rfl, kept r rfl rfl Iff.rfl⟩

theorem busy_of_idle {r : Option HttpReqXfer} (free : idle r) : busy r = [] := by
  cases r with
  | none => rfl
  | some q =>
    have ready : q.status = .ready := by simpa [idle] using free
    simp [busy, ready]

/-- An idle connection takes the next chunk if there is one and its `prepare` succeeds. -/
theorem assign_ledger {io io' : Io} {r r' : Option HttpReqXfer} {v : Option Verdict}
    (free : busy r = []) (assigned : assign job env io r = (io', r', v)) :
    io'.t.size = io.t.size ∧
      if (chunkEnd io.t.size io.t.pos > io.t.pos ∨ io.t.size = 0) ∧
          (prepare job env io.t (chunkEnd io.t.size io.t.pos)).isSome then
        io'.t.pos = chunkEnd io.t.size io.t.pos ∧ v = none ∧
          busy r' = [(io.t.pos, io.t.pos + (chunkEnd io.t.size io.t.pos - io.t.pos) % 2 ^ 32)]
      else io'.t.pos = io.t.pos ∧ busy r' = [] := by
  rw [assign] at assigned
  dsimp only at assigned
  split at assigned
  · rename_i more
    cases prepared : prepare job env io.t (chunkEnd io.t.size io.t.pos) with
    | some macs =>
      simp only [prepared] at assigned
      cases assigned
      rw [if_pos ⟨more, rfl⟩]
      exact ⟨rfl, rfl, rfl, rfl⟩
    | none =>
      simp only [prepared] at assigned
      rw [if_neg fun both => Bool.false_ne_true both.2]
      split at assigned
      all_goals
        cases assigned
        exact ⟨rfl, rfl, rfl⟩
  · rename_i nothing
    rw [if_neg fun both => nothing both.1]
    cases assigned
    refine ⟨rfl, rfl, ?_⟩
    cases r with
    | none => rfl
    | some q => simp [busy]

/-- A connection goes on with its range, or takes the next chunk with a successful `prepare`. -/
theorem advance_ledger {io io' : Io} {r r' : Option HttpReqXfer} {v : Option Verdict}
    (advanced : advance job env io r = (io', r', v)) :
    io'.t.size = io.t.size ∧
      (prepares job env io r = [] ∧ io'.t.pos = io.t.pos ∧ busy r' = busy r ∨
        prepares job env io r = [(io.t.pos, chunkEnd io.t.size io.t.pos)] ∧
          io'.t.pos = chunkEnd io.t.size io.t.pos ∧ busy r = [] ∧
          (chunkEnd io.t.size io.t.pos > io.t.pos ∨ io.t.size = 0) ∧
          busy r' =
            [(io.t.pos, io.t.pos + (chunkEnd io.t.size io.t.pos - io.t.pos) % 2 ^ 32)]) := by
  rw [advance] at advanced
  split at advanced
  · rename_i failure
    cases advanced
    exact ⟨rfl, Or.inl ⟨if_neg fun all => by simp [failure] at all, rfl, rfl⟩⟩
  · rename_i going
    have going : io.s.failure = false := by simpa using going
    by_cases free : idle r
    · rw [if_pos free] at advanced
      have none_busy := busy_of_idle free
      rcases step : assign job env io r with ⟨io₁, r₁, v₁⟩
      obtain ⟨size, outcome⟩ := assign_ledger none_busy step
      have result : io' = io₁ ∧ busy r' = busy r₁ := by
        rw [step] at advanced
        cases v₁ with
        | some w =>
          cases advanced
          exact ⟨rfl, rfl⟩
        | none =>
          cases advanced
          exact ⟨rfl, busy_post r₁⟩
      obtain ⟨rfl, range⟩ := result
      refine ⟨size, ?_⟩
      rw [prepares, range]
      split at outcome
      · rename_i taken
        exact Or.inr ⟨if_pos ⟨going, free, taken⟩, outcome.1, none_busy, taken.1, outcome.2.2⟩
      · rename_i refused
        exact Or.inl ⟨if_neg fun all => refused all.2.2, outcome.1, outcome.2.trans none_busy.symm⟩
    · rw [if_neg free] at advanced
      cases advanced
      exact ⟨rfl, Or.inl ⟨if_neg fun all => free all.2.1, rfl, busy_post r⟩⟩

/-- The next chunk fits the 32-bit size of a request. -/
theorem chunkEnd_range (size pos : Nat) :
    (chunkEnd size pos - pos) % 2 ^ 32 = chunkEnd size pos - pos := by
  have bound := chunkCeil_le pos
  rw [chunkEnd]
  exact Nat.mod_eq_of_lt (by omega)

/-- The books are kept by every connection. -/
theorem Books.advance {io io' : Io} {r r' : Option HttpReqXfer} {v : Option Verdict} {l : Ledger}
    {before after : List (Nat × Nat)} (nonempty : io.t.size ≠ 0)
    (books : Books io.t.size io.t.pos l (before ++ busy r ++ after))
    (advanced : Xfer.advance job env io r = (io', r', v)) :
    Books io'.t.size io'.t.pos (l.add (prepares job env io r) []) (before ++ busy r' ++ after) := by
  obtain ⟨size, outcome⟩ := advance_ledger advanced
  rw [size]
  rcases outcome with ⟨none, pos, range⟩ | ⟨taken, pos, free, more, range⟩
  · rw [none, pos, range]
    simpa [Ledger.add] using books
  · have inFile : io.t.pos < chunkEnd io.t.size io.t.pos := more.resolve_right nonempty
    rw [chunkEnd_range, Nat.add_sub_cancel' (Nat.le_of_lt inFile)] at range
    rw [taken, pos, range]
    refine ⟨books.consecutive.snoc ((lt_chunkEnd_iff _ _).mp inFile), ?_⟩
    have balance := books.balance
    rw [free, List.append_nil, ← List.append_assoc] at balance
    have added := balance.append_right [(io.t.pos, chunkEnd io.t.size io.t.pos)]
    refine added.trans ?_
    simp only [Ledger.add, List.append_nil, List.append_assoc]
    refine List.Perm.append_left _ (List.Perm.append_left _ ?_)
    exact List.perm_append_comm

theorem Books.complete {size pos : Nat} {l : Ledger} {before done held after : List (Nat × Nat)}
    (books : Books size pos l (before ++ (done ++ held) ++ after)) :
    Books size pos (l.add [] done) (before ++ held ++ after) := by
  refine ⟨by simpa [Ledger.add] using books.consecutive, ?_⟩
  have balance := books.balance
  simp only [Ledger.add, List.append_nil, List.append_assoc] at balance ⊢
  refine balance.trans (List.Perm.append_left _ ?_)
  rw [← List.append_assoc before, ← List.append_assoc done]
  exact List.Perm.append_right _ List.perm_append_comm

theorem Ledger.add_add (l : Ledger) (prepared completed : List (Nat × Nat)) :
    (l.add [] completed).add prepared [] = l.add prepared completed := by
  simp [Ledger.add]

theorem serve_size {io io' : Io} {r r' : Option HttpReqXfer} {v : Option Verdict}
    (served : serve job ds env io r = (io', r', v)) : io'.t.size = io.t.size := by
  cases r with
  | none => exact (advance_ledger served).1
  | some q =>
    rcases handled : handle job ds env io q with ⟨io₁, q₁, v₁⟩
    have size := (handle_ledger handled).1
    rw [serve, handled] at served
    cases v₁ with
    | some w =>
      cases served
      exact size
    | none => exact (advance_ledger served).1.trans size

theorem serveAll_size (envs : List ConnEnv) (io : Io) (reqs : List (Option HttpReqXfer)) :
    (serveAll job ds envs io reqs).1.t.size = io.t.size := by
  induction reqs generalizing envs io with
  | nil => rfl
  | cons r rest ih =>
    rcases served : serve job ds (envs.headD {}) io r with ⟨io', r', v⟩
    have size := serve_size served
    rw [serveAll, served]
    cases v with
    | some w => exact size
    | none => exact (ih envs.tail io').trans size

theorem Books.serve {io io' : Io} {r r' : Option HttpReqXfer} {v : Option Verdict} {l : Ledger}
    {before after : List (Nat × Nat)} (nonempty : io.t.size ≠ 0)
    (books : Books io.t.size io.t.pos l (before ++ busy r ++ after))
    (served : Xfer.serve job ds env io r = (io', r', v)) :
    Books io'.t.size io'.t.pos (serveLedger job ds env io l r) (before ++ busy r' ++ after) := by
  cases r with
  | none => exact books.advance nonempty served
  | some q =>
    rcases handled : handle job ds env io q with ⟨io₁, q₁, v₁⟩
    obtain ⟨size, pos, range⟩ := handle_ledger handled
    rw [Xfer.serve, handled] at served
    rw [← range, ← size, ← pos] at books
    have released := books.complete
    rw [serveLedger, handled]
    cases v₁ with
    | some w =>
      cases served
      exact released
    | none =>
      rw [← size] at nonempty
      have taken := released.advance nonempty served
      rwa [Ledger.add_add] at taken

theorem Books.pass {reqs : List (Option HttpReqXfer)} {envs : List ConnEnv} {io : Io} {l : Ledger}
    {before : List (Nat × Nat)} (nonempty : io.t.size ≠ 0)
    (books : Books io.t.size io.t.pos l (before ++ busyAll reqs)) :
    Books (serveAll job ds envs io reqs).1.t.size (serveAll job ds envs io reqs).1.t.pos
      (passLedger job ds envs io l reqs) (before ++ busyAll (serveAll job ds envs io reqs).2.1) := by
  induction reqs generalizing envs io l before with
  | nil => exact books
  | cons r rest ih =>
    rcases served : Xfer.serve job ds (envs.headD {}) io r with ⟨io', r', v⟩
    rw [busyAll_cons, ← List.append_assoc] at books
    have kept := books.serve nonempty served
    rw [serveAll, passLedger]
    simp only [served]
    cases v with
    | some w => simpa only [busyAll_cons, List.append_assoc] using kept
    | none =>
      have result := @ih envs.tail io' _ (before ++ busy r') (serve_size served ▸ nonempty) kept
      simpa only [busyAll_cons, List.append_assoc] using result

end Pass

/-- The books of a transfer, as long as its file is not empty. -/
def Booked (x : Transfer × Ledger) : Prop :=
  x.1.size ≠ 0 → ∀ s, x.1.slot = some s → Books x.1.size x.1.pos x.2 (busyAll s.reqs)

/-- The slot is the same as far as its ranges go, or it is gone. -/
structure KeepsSlot (t t' : Transfer) : Prop where
  size : t'.size = t.size
  pos : t'.pos = t.pos
  slot : ∀ s', t'.slot = some s' → ∃ s, t.slot = some s ∧ busyAll s'.reqs = busyAll s.reqs

theorem KeepsSlot.gone {t t' : Transfer} (size : t'.size = t.size) (pos : t'.pos = t.pos)
    (slot : t'.slot = none) : KeepsSlot t t' := by
  refine ⟨size, pos, fun s' present => ?_⟩
  rw [slot] at present
  cases present

theorem KeepsSlot.same {t t' : Transfer} {s s' : Slot} (size : t'.size = t.size)
    (pos : t'.pos = t.pos) (before : t.slot = some s) (after : t'.slot = some s')
    (reqs : s'.reqs = s.reqs) : KeepsSlot t t' := by
  refine ⟨size, pos, fun s'' present => ?_⟩
  obtain rfl := Option.some.inj (after.symm.trans present)
  exact ⟨s, before, by rw [reqs]⟩

theorem Quiet.keepsSlot {t t' : Transfer} (quiet : Quiet t t') : KeepsSlot t t' := by
  refine ⟨quiet.agrees.size, quiet.agrees.pos, fun s' present => ?_⟩
  obtain ⟨s, before, -, -, reqs⟩ := quiet.slot_back present
  exact ⟨s, before, reqs⟩

section Steps

variable {job : Job} {t : Transfer} {l : Ledger}

theorem Booked.keepsSlot {t' : Transfer} (booked : Booked (t, l)) (keeps : KeepsSlot t t') :
    Booked (t', l) := by
  intro nonempty s' present
  obtain ⟨s, before, same⟩ := keeps.slot s' present
  dsimp only at nonempty ⊢
  rw [keeps.size] at nonempty ⊢
  rw [keeps.pos, same]
  exact booked nonempty s before

theorem Booked.doio (booked : Booked (t, l)) {s : Slot} (present : t.slot = some s) (ds : DsTime)
    (envs : List ConnEnv) (armed : ¬(s.retrying ∧ s.retrybt.armed ds = false)) :
    Booked (Xfer.doio job ds envs s t, actLedger job t l (.doio ds envs)) := by
  rw [Xfer.doio, actLedger, present]
  dsimp only
  by_cases closed : s.fa = false
  · rw [if_pos closed, if_pos (Or.inr (Or.inl closed))]
    exact booked.keepsSlot (.same rfl rfl present rfl rfl)
  by_cases waiting : s.tempurl = []
  · rw [if_neg closed, if_pos waiting, if_pos (Or.inr (Or.inr waiting))]
    exact booked.keepsSlot (.same rfl rfl present rfl rfl)
  rw [if_neg closed, if_neg waiting, if_neg (by tauto)]
  intro nonempty s' slot
  have pass := @Books.pass job ds s.reqs envs ⟨t, { s with retrying := false }, 0, 0⟩ l []
  have fixed := @serveAll_size job ds envs ⟨t, { s with retrying := false }, 0, 0⟩ s.reqs
  generalize serveAll job ds envs ⟨t, { s with retrying := false }, 0, 0⟩ s.reqs = result at *
  obtain ⟨io, reqs, v⟩ := result
  cases v with
  | some w =>
    have inFile : t.size ≠ 0 := fixed ▸ nonempty
    obtain rfl := Option.some.inj slot
    exact pass inFile (booked inFile s present)
  | none =>
    obtain ⟨s₁, slot₁, -, sameReqs, -, agrees, -, -⟩ :=
      wrapUp_spec ds { io with s := { io.s with reqs := reqs } }
    dsimp only at nonempty sameReqs agrees ⊢
    rw [agrees.size] at nonempty ⊢
    have inFile : t.size ≠ 0 := fixed ▸ nonempty
    obtain rfl := Option.some.inj (slot₁.symm.trans slot)
    rw [agrees.pos, sameReqs]
    exact pass inFile (booked inFile s present)

variable (job) in
theorem deleteSlot_spec (u : Transfer) :
    (deleteSlot job u).size = u.size ∧ (deleteSlot job u).pos = u.pos ∧
      (deleteSlot job u).slot = none := by
  rw [deleteSlot]
  split
  · rename_i none
    exact ⟨rfl, rfl, none⟩
  · exact ⟨rfl, rfl, rfl⟩

theorem failed_keepsSlot (ds : DsTime) (defer : Bool) (t : Transfer) :
    KeepsSlot t (failed job ds defer t) := by
  obtain ⟨size, pos, slot⟩ := deleteSlot_spec job { t with bt := t.bt.backoff ds }
  rw [failed]
  dsimp only
  split
  · exact .gone size pos slot
  · exact .gone size pos slot

theorem complete_keepsSlot (ds : DsTime) (placement : Placement) {s : Slot}
    (slot : t.slot = some s) : KeepsSlot t (Xfer.complete job ds placement s t) := by
  unfold Xfer.complete
  split
  · cases placement with
    | mismatch => exact .same rfl rfl slot rfl rfl
    | placed =>
      obtain ⟨size, pos, gone⟩ := deleteSlot_spec job
        { t with slot := some { s with fa := false }, file := none }
      exact .gone size pos gone
    | pending moved => exact .same rfl rfl slot rfl rfl
  · obtain ⟨size, pos, gone⟩ := deleteSlot_spec job t
    cases placement with
    | mismatch => exact .same rfl rfl slot slot rfl
    | placed => exact .gone size pos gone
    | pending moved => exact .gone size pos gone

/-- Carrying out the pending call deletes the slot or leaves its connections alone. -/
theorem settle_keepsSlot (ds : DsTime) (defer : Bool) (placement : Placement) (t : Transfer) :
    KeepsSlot t (settle job ds defer placement t) := by
  rw [settle]
  split
  · exact ⟨rfl, rfl, fun s present => ⟨s, present, rfl⟩⟩
  · split
    · have keeps := @failed_keepsSlot job ds defer { t with call := none }
      exact ⟨keeps.size, keeps.pos, keeps.slot⟩
    · dsimp only
      split
      · rename_i none
        exact .gone rfl rfl none
      · rename_i s slot
        have keeps := @complete_keepsSlot job { t with call := none } ds placement _ slot
        exact ⟨keeps.size, keeps.pos, keeps.slot⟩

/-- A new slot opens new books. -/
theorem booked_dispatch (ds : DsTime) (opened : Opened) (connections : Nat) :
    Booked (dispatch job ds opened connections t,
      ⟨(dispatch job ds opened connections t).pos, [], []⟩) := by
  have slot : (dispatch job ds opened connections t).slot =
      some (newSlot ds connections t.size) := by
    rw [dispatch]
    dsimp only
    split_ifs
    all_goals first | rfl | (split <;> rfl)
  intro nonempty s' present
  obtain rfl := Option.some.inj (slot.symm.trans present)
  rw [busyAll_newSlot]
  exact ⟨rfl, List.Perm.nil⟩

theorem act_quiet {e : Event} (undispatched : ∀ ds opened connections,
    e ≠ .dispatch ds opened connections) (idle : ∀ ds envs, e ≠ .doio ds envs) :
    Quiet t (act job t e) := by
  rcases act_cases job t e with quiet | ⟨ds, opened, connections, same, -⟩ | ⟨ds, envs, s, same, -⟩
  · exact quiet
  · exact absurd same (undispatched ds opened connections)
  · exact absurd same (idle ds envs)

/-- Every step keeps the books. -/
theorem booked_step (x : Transfer × Ledger) (e : Event) (booked : Booked x) :
    Booked (stepLedger job x e) := by
  obtain ⟨t, l⟩ := x
  rw [stepLedger]
  dsimp only
  unfold step
  by_cases dead : t.live = false
  · rw [if_pos dead, if_neg (by simp [dead])]
    exact booked
  rw [if_neg dead]
  by_cases pending : t.call.isSome
  · rw [if_pos pending, if_neg (by simp [Option.isSome_iff_ne_none.mp pending])]
    refine booked.keepsSlot ?_
    cases e with
    | settle ds defer placement => exact settle_keepsSlot ds defer placement t
    | _ => exact (Quiet.refl t).keepsSlot
  rw [if_neg pending, if_pos ⟨by simpa using dead, by simpa using pending⟩]
  cases e with
  | dispatch ds opened connections =>
    rw [act, actLedger]
    split
    · exact booked_dispatch ds opened connections
    · exact booked
  | doio ds envs =>
    rw [act]
    cases slot : t.slot with
    | none =>
      rw [actLedger, slot]
      exact booked
    | some s =>
      dsimp only
      by_cases waits : s.retrying ∧ s.retrybt.armed ds = false
      · rw [if_pos waits, actLedger, slot]
        dsimp only
        rw [if_pos (Or.inl waits)]
        exact booked
      · rw [if_neg waits]
        exact booked.doio slot ds envs waits
  | _ =>
    refine booked.keepsSlot (act_quiet ?_ ?_).keepsSlot
    all_goals
      intros
      intro same
      cases same

end Steps

theorem count_busyAll (c : Nat × Nat) (reqs : List (Option HttpReqXfer)) :
    (busyAll reqs).count c = reqs.countP (Holds c) := by
  induction reqs with
  | nil => rfl
  | cons r rest ih =>
    have one : (busy r).count c = if Holds c r then 1 else 0 := by
      rw [Holds]
      rcases range : busy r with _ | ⟨d, more⟩
      · simp
      · have single : more = [] := by
          cases r with
          | none => cases range
          | some q =>
            rw [busy] at range
            split_ifs at range
            exact (List.cons.inj range).2.symm
        subst single
        by_cases same : d = c <;> simp [same]
    rw [busyAll_cons, List.count_append, List.countP_cons, ih, one, Nat.add_comm]

theorem Books.partitioned {t : Transfer} {s : Slot} {l : Ledger}
    (books : Books t.size t.pos l (busyAll s.reqs)) : Partitioned t s l := by
  refine ⟨books.consecutive, fun c mem => (books.consecutive.bounds c mem).2, ?owned, ?held, ?given⟩
  case owned =>
    intro c mem
    have once := List.count_eq_one_of_mem books.consecutive.nodup mem
    rw [books.balance.count_eq, List.count_append, count_busyAll] at once
    exact once
  case held =>
    intro r connection c range
    have among : c ∈ busyAll s.reqs := List.mem_flatMap.mpr ⟨r, connection, range⟩
    exact books.balance.mem_iff.mpr (List.mem_append_right _ among)
  case given =>
    intro c done
    exact books.balance.mem_iff.mpr (List.mem_append_left _ done)

/-- In every run of a transfer whose connections are idle at first, in either direction, the
ranges of the successful `prepare` calls of a slot are consecutive chunks from the position where
it started, inside the file, each of them is completed or held by one connection, and these are
all ranges that a connection holds. -/
theorem slot_partitions_file (job : Job) {t : Transfer}
    (fresh : ∀ s, t.slot = some s → ∀ r ∈ s.reqs, r = none) (events : List Event) :
    Runs.Always (stepLedger job)
      (fun x => x.1.size ≠ 0 → ∀ s, x.1.slot = some s → Partitioned x.1 s x.2)
      (t, ⟨t.pos, [], []⟩) events := by
  have start : Booked (t, ⟨t.pos, [], []⟩) := by
    intro _ s slot
    have none : busyAll s.reqs = [] := by
      refine List.flatMap_eq_nil_iff.mpr fun r mem => ?_
      rw [fresh s slot r mem]
      rfl
    rw [none]
    exact ⟨rfl, List.Perm.nil⟩
  have booked : Runs.Always (stepLedger job) Booked (t, ⟨t.pos, [], []⟩) events :=
    Runs.always_of_step booked_step start events
  exact booked.mono fun x holds nonempty s slot => (holds nonempty s slot).partitioned

/-- The download of three bytes that has just been dispatched. -/
def dispatchedSample : Transfer := dispatch sampleJob 1 .ok 4 (queued 3 none)

/-- Its only range is prepared once, however often the request has to be repeated. -/
theorem sample_partitioned :
    Runs.Always (stepLedger sampleJob)
        (fun x => x.1.size ≠ 0 → ∀ s, x.1.slot = some s → Partitioned x.1 s x.2)
        (dispatchedSample, ⟨dispatchedSample.pos, [], []⟩) (threeByteRun [1, 2]) ∧
      (Runs.run (stepLedger sampleJob) (dispatchedSample, ⟨dispatchedSample.pos, [], []⟩)
        (threeByteRun [1, 2])).2 = ⟨0, [(0, 3)], []⟩ := by
  refine ⟨slot_partitions_file sampleJob (fun s slot r mem => ?_) _, by decide +kernel⟩
  obtain rfl := Option.some.inj (show some (newSlot 1 4 3) = some s from slot)
  exact List.mem_singleton.mp mem

end MegaSdk.Xfer
