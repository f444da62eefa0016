import MegaSdk.Xfer.Layout

/-!
# Download progress accounting

`progresscompleted` counts the bytes of the chunks recorded in `chunkmacs`, as long
as every request that succeeds delivered its whole chunk, no slot starts over
recorded chunks, and no completed download waits for its files. A request that
succeeds with fewer bytes is counted before its length is looked at.
-/

namespace MegaSdk.Xfer

open Crypto Api Runs

def recorded (size : Nat) (macs : ChunkMacs) : Nat :=
  (macs.keys.map fun p => chunkEnd size p - p).sum

theorem keys_insert_perm {macs : ChunkMacs} {p : Nat} (fresh : p ∉ macs) (m : Block) :
    (macs.insert p m).keys.Perm (p :: macs.keys) := by
  refine (List.perm_ext_iff_of_nodup Std.ExtTreeMap.nodup_keys
    (List.nodup_cons.mpr ⟨fun mem => fresh (Std.ExtTreeMap.mem_keys.mp mem),
      Std.ExtTreeMap.nodup_keys⟩)).mpr fun k => ?_
  rw [Std.ExtTreeMap.mem_keys, Std.ExtTreeMap.mem_insert, List.mem_cons, Std.ExtTreeMap.mem_keys,
    compare_eq_iff_eq, eq_comm]

theorem recorded_insert {size : Nat} {macs : ChunkMacs} {p : Nat} (fresh : p ∉ macs) (m : Block) :
    recorded size (macs.insert p m) = recorded size macs + (chunkEnd size p - p) := by
  rw [recorded, ((keys_insert_perm fresh m).map _).sum_eq, List.map_cons, List.sum_cons,
    Nat.add_comm, recorded]

theorem recorded_of_empty (macs : ChunkMacs) : recorded 0 macs = 0 := by
  rw [recorded]
  refine List.sum_eq_zero fun n hn => ?_
  obtain ⟨p, _, rfl⟩ := List.mem_map.mp hn
  have := chunkEnd_le 0 p
  omega

/-- The recorded chunks add up to the file exactly when no chunk with data is missing. -/
theorem recorded_eq_size_iff {size : Nat} {macs : ChunkMacs}
    (known : ∀ p ∈ macs, (p, chunkEnd size p) ∈ chunks size) :
    recorded size macs = size ↔ ∀ c ∈ chunks size, c.1 < c.2 → c.1 ∈ macs := by
  let done := (chunks size).filter fun c => decide (c.1 ∈ macs)
  let missing := (chunks size).filter fun c => !decide (c.1 ∈ macs)
  have perm : macs.keys.Perm (done.map Prod.fst) := by
    refine (List.perm_ext_iff_of_nodup Std.ExtTreeMap.nodup_keys
      ((chunks_nodup size).sublist (List.filter_sublist.map _))).mpr fun p => ?_
    rw [Std.ExtTreeMap.mem_keys, List.mem_map]
    constructor
    · exact fun hp => ⟨(p, chunkEnd size p), by simp [known p hp, hp], rfl⟩
    · rintro ⟨c, hc, rfl⟩
      simpa using (List.mem_filter.mp hc).2
  have sizes : recorded size macs = (done.map fun c => c.2 - c.1).sum := by
    rw [recorded, (perm.map _).sum_eq, List.map_map]
    refine congrArg List.sum (List.map_congr_left fun c hc => ?_)
    have stop := (mem_chunks (List.mem_of_mem_filter hc)).2
    simp only [Function.comp_apply]
    omega
  have total : (done.map fun c => c.2 - c.1).sum + (missing.map fun c => c.2 - c.1).sum = size := by
    rw [← List.sum_append, ← List.map_append]
    exact ((List.filter_append_perm _ (chunks size)).map _).sum_eq.trans (chunks_sum size)
  have none_missing : recorded size macs = size ↔ (missing.map fun c => c.2 - c.1).sum = 0 := by
    omega
  rw [none_missing, List.sum_eq_zero_iff_forall_eq_nat]
  constructor
  · intro zero c hc nonempty
    by_contra absent
    have gap := zero (c.2 - c.1) (List.mem_map.mpr ⟨c, by simp [missing, hc, absent], rfl⟩)
    omega
  · intro all n hn
    obtain ⟨c, hc, rfl⟩ := List.mem_map.mp hn
    obtain ⟨chunk, absent⟩ := List.mem_filter.mp hc
    have absent : c.1 ∉ macs := by simpa using absent
    by_contra nonempty
    exact absent (all c chunk (by omega))

/-- Every request that succeeded delivered its whole chunk. -/
def Whole (t : Transfer) : Event → Prop
  | .doio _ _ => ∀ s ∈ t.slot, ∀ r ∈ s.reqs, ∀ q ∈ r, q.status = .success → q.buf.length = q.size
  | _ => True

/-- A slot is started only while no chunk with data is recorded. -/
def FreshStart (t : Transfer) : Event → Prop
  | .dispatch _ _ _ => ∀ p ∈ t.chunkmacs.keys, t.size ≤ p
  | _ => True

/-- A completed download with data does not wait for its files. -/
def AllPlaced (t : Transfer) : Event → Prop
  | .settle _ _ (.pending _) => t.call = some .complete → t.size = 0
  | _ => True

/-- Between calls, the byte count of a slot is that of the recorded chunks, and it reaches
the file size exactly when every chunk is recorded. -/
def Accounted (t : Transfer) : Prop :=
  t.live = true → t.call = none → ∀ s, t.slot = some s →
    s.progressCompleted = recorded t.size t.chunkmacs ∧
      (s.progressCompleted = t.size ↔ ∀ c ∈ chunks t.size, c.1 < c.2 → c.1 ∈ t.chunkmacs)

/-- The layout of the chunks, with the byte count of the recorded ones. -/
def Counted (t : Transfer) (n : Nat) (active : List (Nat × Nat)) : Prop :=
  Layout t active ∧ n = recorded t.size t.chunkmacs

theorem counted_kept (job : Job) :
    Kept job (fun _ r => r.status = .success → r.buf.length = r.size) Counted where
  handled {env r t n c t' n' c'} before after whole handled holds := by
    have layout := (Layout.kept job).handled before after trivial handled holds.1
    refine ⟨layout, ?_⟩
    cases handled with
    | same => exact holds.2
    | short success missing => exact absurd (whole success) missing
    | recorded success _ _ =>
      have here : (r.pos, r.pos + r.size) ∈ before ++ busy (some r) ++ after := by
        simp [busy, success]
      have stop := (mem_chunks (holds.1.mem _ here)).2
      simp only at stop
      change n + r.size = Xfer.recorded t.size (t.chunkmacs.insert r.pos _)
      rcases holds.1.out _ here with ⟨_, fresh⟩ | empty
      · have fresh : r.pos ∉ t.chunkmacs := fresh
        rw [recorded_insert fresh, holds.2]
        omega
      · have size : r.size = 0 := by
          have := chunkEnd_le t.size r.pos
          omega
        rw [holds.2, size, empty, recorded_of_empty, recorded_of_empty]
  advanced n before after advanced holds := by
    have layout := (Layout.kept job).advanced n before after advanced holds.1
    refine ⟨layout, ?_⟩
    cases advanced with
    | same => exact holds.2
    | assigned => exact holds.2

theorem counted_local : Local Counted := by
  intro t u n active agrees holds
  refine ⟨Layout.isLocal t u n active agrees holds.1, ?_⟩
  rw [agrees.size, agrees.chunkmacs]
  exact holds.2

/-- The invariant of the accounting: the layout always holds, the count between calls (and
for an empty file always). -/
structure ProgressInv (t : Transfer) : Prop where
  layout : Layout t (inTransit t)
  count : ∀ s, t.slot = some s → t.call = none ∨ t.size = 0 →
    s.progressCompleted = recorded t.size t.chunkmacs

namespace ProgressInv
variable {job : Job} {t : Transfer}

theorem queued (size : Nat) (file : Option Bytes) : ProgressInv (queued size file) :=
  ⟨Layout.queued size file, fun _ hs => by cases hs⟩

theorem accounted (inv : ProgressInv t) : Accounted t := by
  intro _ idle s hs
  have count := inv.count s hs (Or.inl idle)
  refine ⟨count, ?_⟩
  rw [count]
  exact recorded_eq_size_iff fun p hp => (inv.layout.known p hp).1

theorem quiet (inv : ProgressInv t) {t' : Transfer} (quiet : Quiet t t') : ProgressInv t' := by
  refine ⟨quiet.layout inv.layout, fun s' hs' idle => ?_⟩
  obtain ⟨s, hs, _, progress, _⟩ := quiet.slot_back hs'
  rw [progress, quiet.agrees.size, quiet.agrees.chunkmacs]
  refine inv.count s hs ?_
  rcases idle with idle | empty
  · exact Or.inl (quiet.idle_back idle)
  · exact Or.inr (quiet.agrees.size ▸ empty)

theorem dispatch (inv : ProgressInv t) (get : job.type = .get) (free : t.slot = none)
    (fresh : ∀ p ∈ t.chunkmacs, t.size ≤ p) (ds : DsTime) (opened : Opened) (connections : Nat) :
    ProgressInv (dispatch job ds opened connections t) := by
  have started :=
    dispatch_spec get (inTransit_of_none free ▸ inv.layout) fresh ds opened connections
  refine ⟨started.layout, fun s hs _ => ?_⟩
  have only : s = newSlot ds connections t.size := Option.some.inj (hs.symm.trans started.slot)
  rw [only, started.zero, started.size, started.chunkmacs, recorded]
  symm
  refine List.sum_eq_zero fun n hn => ?_
  obtain ⟨p, hp, rfl⟩ := List.mem_map.mp hn
  have past := fresh p (Std.ExtTreeMap.mem_keys.mp hp)
  have bound := chunkEnd_le t.size p
  omega

theorem doio (inv : ProgressInv t) (get : job.type = .get) (live : t.live = true)
    (idle : t.call = none) {ds : DsTime} {envs : List ConnEnv} {s : Slot} (slot : t.slot = some s)
    (whole : ∀ r ∈ s.reqs, ∀ q ∈ r, q.status = .success → q.buf.length = q.size) :
    ProgressInv (doio job ds envs s t) := by
  obtain ⟨_, s', hs', _, outcome⟩ := doio_keeps get ds envs (counted_kept job)
    counted_local idle live (fun _ _ q hq => whole (some q) hq q rfl)
    ⟨inTransit_of_slot slot ▸ inv.layout, inv.count s slot (Or.inl idle)⟩
  have only : ∀ s₁, (Xfer.doio job ds envs s t).slot = some s₁ → s₁ = s' := fun s₁ hs₁ =>
    Option.some.inj (hs₁.symm.trans hs')
  rcases outcome with ⟨⟨layout, count⟩, _⟩ | ⟨env, _, r, _, finishes⟩
  · refine ⟨inTransit_of_slot hs' ▸ layout, fun s₁ hs₁ _ => ?_⟩
    rw [only s₁ hs₁]
    exact count
  · obtain ⟨call, t₀, n, ending, agrees, progress, here, layout, _⟩ := finishes
    refine ⟨inTransit_of_slot hs' ▸ Layout.isLocal _ _ 0 _ agrees (layout.ended here), ?_⟩
    intro s₁ hs₁ cond
    rw [only s₁ hs₁]
    rcases cond with none | empty
    · exact absurd none call
    · have size : t₀.size = 0 := by rw [← ended_size job env r t₀, ← agrees.size, empty]
      rw [progress, empty, recorded_of_empty, ending.all, size]

theorem settle (inv : ProgressInv t) (get : job.type = .get) {v : Verdict}
    (pending : t.call = some v) (ds : DsTime) (defer : Bool) (placement : Placement)
    (placed : AllPlaced t (.settle ds defer placement))
    (alive : (settle job ds defer placement t).live = true) :
    ProgressInv (settle job ds defer placement t) := by
  rcases settle_cases get pending ds defer placement with dead | ⟨same, outcome⟩
  · rw [dead] at alive
    cases alive
  · have released : (Xfer.settle job ds defer placement t).slot = none →
        ProgressInv (Xfer.settle job ds defer placement t) := by
      intro gone
      refine ⟨inTransit_of_none gone ▸ inv.layout.toNil.transfer same, fun s hs => ?_⟩
      rw [gone] at hs
      cases hs
    rcases outcome with ⟨_, _, gone⟩ | ⟨_, gone, _⟩ | ⟨rfl, s, s', hs, hs', _, progress, reqs, call⟩
    · exact released gone
    · exact released gone
    · have transit : inTransit (Xfer.settle job ds defer placement t) = inTransit t := by
        rw [inTransit_of_slot hs, inTransit_of_slot hs', reqs]
      refine ⟨transit ▸ inv.layout.transfer same, fun s₁ hs₁ cond => ?_⟩
      have only : s₁ = s' := Option.some.inj (hs₁.symm.trans hs')
      have empty : t.size = 0 := by
        rcases cond with idle | empty
        · rcases call with failed | ⟨_, moved, waits⟩
          · rw [failed] at idle
            cases idle
          · subst waits
            exact placed pending
        · exact same.size ▸ empty
      rw [only, progress, same.size, same.chunkmacs]
      exact inv.count s hs (Or.inr empty)

theorem step (inv : t.live = true → ProgressInv t) (get : job.type = .get) (e : Event)
    (whole : Whole t e) (fresh : FreshStart t e) (placed : AllPlaced t e) :
    (step job t e).live = true → ProgressInv (step job t e) := by
  unfold Xfer.step
  split
  · exact inv
  · rename_i alive
    have live : t.live = true := by simpa using alive
    split
    · rename_i busy
      obtain ⟨v, pending⟩ := Option.isSome_iff_exists.mp busy
      cases e with
      | settle ds defer placement =>
        exact fun alive => (inv live).settle get pending ds defer placement placed alive
      | _ => exact inv
    · rename_i noCall
      have idle : t.call = none := by simpa using noCall
      intro _
      rcases act_cases job t e with quiet | ⟨ds, opened, connections, rfl, free, same⟩ |
        ⟨ds, envs, s, rfl, slot, same⟩
      · exact (inv live).quiet quiet
      · rw [same]
        exact (inv live).dispatch get free (fun p hp => fresh p (Std.ExtTreeMap.mem_keys.mpr hp))
          ds opened connections
      · rw [same]
        exact (inv live).doio get live idle slot (whole s slot)

end ProgressInv

/-- In every run of a download in which each successful request delivers its whole chunk,
slots start over no recorded data and completed downloads do not wait for their files,
the byte count of the slot is that of the recorded chunks. -/
theorem progress_run (job : Job) (get : job.type = .get) (size : Nat) (file : Option Bytes)
    (events : List Event)
    (meets : Meets (step job) (fun t e => Whole t e ∧ FreshStart t e ∧ AllPlaced t e)
      (queued size file) events) :
    Accounted (run (step job) (queued size file) events) := by
  have inv := run_invariant (fun t => t.live = true → ProgressInv t)
    (fun _ e inv cond => ProgressInv.step inv get e cond.1 cond.2.1 cond.2.2)
    (fun _ => ProgressInv.queued size file) meets
  exact fun live => (inv live).accounted live

instance (t : Transfer) : (e : Event) → Decidable (Whole t e)
  | .doio _ _ => inferInstanceAs (Decidable
      (∀ s ∈ t.slot, ∀ r ∈ s.reqs, ∀ q ∈ r, q.status = .success → q.buf.length = q.size))
  | .dispatch _ _ _ | .source _ _ | .fail _ | .network _ _ | .settle _ _ _ | .chunkRetry =>
    isTrue trivial

instance (t : Transfer) : (e : Event) → Decidable (FreshStart t e)
  | .dispatch _ _ _ => inferInstanceAs (Decidable (∀ p ∈ t.chunkmacs.keys, t.size ≤ p))
  | .doio _ _ | .source _ _ | .fail _ | .network _ _ | .settle _ _ _ | .chunkRetry =>
    isTrue trivial

instance (t : Transfer) : (e : Event) → Decidable (AllPlaced t e)
  | .settle _ _ (.pending _) => inferInstanceAs (Decidable (t.call = some .complete → t.size = 0))
  | .settle _ _ .mismatch | .settle _ _ .placed | .dispatch _ _ _ | .doio _ _ | .source _ _
  | .fail _ | .network _ _ | .chunkRetry => isTrue trivial

/-- The whole chunk arrives, and then the meta MAC does not match. -/
theorem progress_threeByteRun :
    (run (step sampleJob) (queued 3 none) (threeByteRun [7, 8, 9])).call =
        some (.failed ApiError.key.code) ∧
      Accounted (run (step sampleJob) (queued 3 none)
        (threeByteRun [7, 8, 9] ++ [.settle 5 true .mismatch, .dispatch 9 .ok 4])) :=
  ⟨by decide, progress_run sampleJob rfl 3 none _ (by decide)⟩

/-- Two of the three bytes arrive and are counted as three, with nothing recorded. -/
theorem shortChunk_miscounted :
    ¬ ∀ (job : Job) (size : Nat) (file : Option Bytes) (events : List Event),
      job.type = .get → Accounted (run (step job) (queued size file) events) := by
  intro always
  have accounted := always sampleJob 3 none (threeByteRun [7, 8]) rfl
  have counted : ∃ s ∈ (run (step sampleJob) (queued 3 none) (threeByteRun [7, 8])).slot,
      s.progressCompleted = 3 := by decide
  obtain ⟨s, hs, three⟩ := counted
  have zero : recorded 3 (run (step sampleJob) (queued 3 none) (threeByteRun [7, 8])).chunkmacs =
      0 := by decide
  have same := (accounted (by decide) (by decide) s hs).1
  exact absurd (three.symm.trans same) (by rw [show (run (step sampleJob) (queued 3 none)
    (threeByteRun [7, 8])).size = 3 by decide, zero]; decide)

end MegaSdk.Xfer
