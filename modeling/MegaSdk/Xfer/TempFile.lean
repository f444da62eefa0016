import MegaSdk.Xfer.Layout

/-!
# Recorded chunks and the temporary file

A chunk recorded in `chunkmacs` is in the temporary file, as long as no write falls
short and the slot is neither deleted for a retry nor started again while chunks
with data are recorded: deleting the slot unlinks the file and starting it truncates
the file, and the records survive both.
-/

namespace MegaSdk.Xfer

open Crypto Api Runs

/-- The file holds `data` at `pos`. -/
def HoldsAt (file : Option Bytes) (pos : Nat) (data : Bytes) : Prop :=
  ∀ i < data.length, ∃ f, file = some f ∧ f[pos + i]? = data[i]?

/-- The decrypted bytes of every recorded chunk are in the file. -/
def Stored (t : Transfer) : Prop :=
  ∀ p ∈ t.chunkmacs, ∃ data, t.plain[p]? = some data ∧ data.length = chunkEnd t.size p - p ∧
    HoldsAt t.file p data

def NoData (t : Transfer) : Prop := ∀ p ∈ t.chunkmacs, t.size ≤ p

theorem stored_of_noData {t u : Transfer} (stored : Stored t) (none : NoData t)
    (size : u.size = t.size) (macs : u.chunkmacs = t.chunkmacs) (plain : u.plain = t.plain) :
    Stored u := by
  intro p hp
  rw [macs] at hp
  obtain ⟨data, known, len, _⟩ := stored p hp
  rw [plain, size]
  refine ⟨data, known, len, fun i hi => ?_⟩
  have past := none p hp
  have bound := chunkEnd_le t.size p
  omega

/-- The bytes written for a received chunk are its decrypted bytes, one for each received
one. -/
theorem length_decrypted (job : Job) (env : ConnEnv) (r : HttpReqXfer) :
    (decrypted job env r).length = r.buf.length := by
  rw [decrypted, List.length_take]
  exact Nat.min_eq_left (length_ctrLoop job.ecb false (Nat.le_refl _) _ _ _)

theorem finalize_file (job : Job) {env : ConnEnv} (full : env.written = none) (r : HttpReqXfer)
    {t : Transfer} {f : Bytes} (file : t.file = some f) :
    (finalize job env r t).file = some (ByteFile.write 0 f (decrypted job env r) r.pos) := by
  have whole : (decrypted job env r).take (decrypted job env r).length = decrypted job env r :=
    List.take_length
  simp only [finalize, finalizeDL, writeRange, fwrite, full, file, Option.map_some,
    Option.getD_some, Option.getD_none, List.drop_zero, Nat.sub_zero, Nat.add_zero]
  exact congrArg some (congrArg (fun d => ByteFile.write 0 f d r.pos) whole)

/-- Finalizing a chunk in transit stores it and leaves the stored ones alone. -/
theorem stored_finalize {job : Job} {env : ConnEnv} {r : HttpReqXfer} {t : Transfer}
    {active : List (Nat × Nat)} (layout : Layout t active) (stored : Stored t)
    (here : (r.pos, r.pos + r.size) ∈ active) (whole : r.buf.length = r.size)
    (full : env.written = none) (opened : t.file ≠ none) : Stored (finalize job env r t) := by
  obtain ⟨f, file⟩ := Option.ne_none_iff_exists'.mp opened
  have chunk := layout.mem _ here
  have stop := (mem_chunks chunk).2
  simp only at stop
  have size : (decrypted job env r).length = r.size := (length_decrypted job env r).trans whole
  intro p hp
  by_cases same : p = r.pos
  · subst same
    refine ⟨decrypted job env r, by simp [finalize], ?_, fun i hi => ?_⟩
    · change _ = chunkEnd t.size r.pos - r.pos
      omega
    · refine ⟨_, finalize_file job full r file, ?_⟩
      rw [ByteFile.getElem?_write_inside (by omega) (by omega), Nat.add_sub_cancel_left]
  · have old : p ∈ t.chunkmacs := by
      rcases (Layout.mem_finalize job env r t p).mp hp with now | old
      · exact absurd now same
      · exact old
    obtain ⟨data, known, len, holds⟩ := stored p old
    refine ⟨data, ?_, len, fun i hi => ?_⟩
    · simpa [finalize, Std.ExtTreeMap.getElem?_insert, Ne.symm same] using known
    · obtain ⟨g, hg, byte⟩ := holds i hi
      have heq : f = g := Option.some.inj (file.symm.trans hg)
      subst heq
      refine ⟨_, finalize_file job full r file, ?_⟩
      have inFile : p + i < f.length := by
        by_contra outside
        rw [List.getElem?_eq_none (by omega), List.getElem?_eq_getElem hi] at byte
        cases byte
      rw [ByteFile.getElem?_write_outside inFile ?_, byte]
      have apart :=
        chunks_apart (layout.known p old).1 chunk fun heq => same (congrArg Prod.fst heq)
      rcases apart with before | after
      · left
        simp only at before
        omega
      · right
        simp only at after
        omega

/-- After the last chunk nothing with data stays recorded. -/
theorem noData_ended (job : Job) (env : ConnEnv) (r : HttpReqXfer) (t : Transfer) :
    NoData (ended job env r t) := by
  intro p hp
  rw [ended_size]
  rw [ended] at hp
  split at hp
  · rename_i empty
    rw [empty]
    exact Nat.zero_le p
  · exact absurd hp Std.ExtTreeMap.not_mem_empty

theorem stored_ended (job : Job) {env : ConnEnv} {r : HttpReqXfer} {t : Transfer}
    {active : List (Nat × Nat)} (layout : Layout t active) (stored : Stored t)
    (here : (r.pos, r.pos + r.size) ∈ active) (whole : r.buf.length = r.size)
    (full : env.written = none) (opened : t.file ≠ none) : Stored (ended job env r t) := by
  rw [ended]
  split
  · exact stored_finalize layout stored here whole full opened
  · exact fun p hp => absurd hp Std.ExtTreeMap.not_mem_empty

theorem ended_file {job : Job} {env : ConnEnv} {r : HttpReqXfer} {t : Transfer}
    (opened : t.file ≠ none) : (ended job env r t).file ≠ none := by
  rw [ended]
  split <;> simpa [finalize] using opened

/-- The layout of the chunks, with the recorded ones in the open file. -/
def Saved (t : Transfer) (_ : Nat) (active : List (Nat × Nat)) : Prop :=
  Layout t active ∧ Stored t ∧ t.file ≠ none

theorem saved_kept (job : Job) : Kept job (fun env _ => env.written = none) Saved where
  handled {env r t n c t' n' c'} before after full handled holds := by
    obtain ⟨layout, stored, opened⟩ := holds
    refine ⟨(Layout.kept job).handled before after trivial handled layout, ?_⟩
    cases handled with
    | same => exact ⟨stored, opened⟩
    | short => exact ⟨stored, opened⟩
    | recorded success whole _ =>
      have here : (r.pos, r.pos + r.size) ∈ before ++ busy (some r) ++ after := by
        simp [busy, success]
      refine ⟨stored_finalize layout stored here whole full opened, ?_⟩
      simpa [finalize] using opened
  advanced n before after advanced holds := by
    obtain ⟨layout, stored, opened⟩ := holds
    refine ⟨(Layout.kept job).advanced n before after advanced layout, ?_⟩
    cases advanced with
    | same => exact ⟨stored, opened⟩
    | assigned => exact ⟨stored, opened⟩

theorem stored_of_agrees {t u : Transfer} (agrees : Agrees t u) (stored : Stored t) : Stored u := by
  rw [Stored, agrees.chunkmacs, agrees.plain, agrees.size, agrees.file]
  exact stored

theorem saved_local : Local Saved := by
  intro t u n active agrees holds
  refine ⟨Layout.isLocal t u n active agrees holds.1, stored_of_agrees agrees holds.2.1, ?_⟩
  rw [agrees.file]
  exact holds.2.2

def WritesWhole : Event → Prop
  | .doio _ envs => ∀ env ∈ envs, env.written = none
  | _ => True

/-- A failed transfer is kept for a retry only while no chunk with data is recorded. -/
def NoLoss (t : Transfer) : Event → Prop
  | .settle _ true _ => ∀ v ∈ t.call, v ≠ .complete → ∀ p ∈ t.chunkmacs.keys, t.size ≤ p
  | _ => True

/-- The invariant of the temporary file: the slot that works on it keeps it open, and where
there is no such slot nothing recorded needs it. -/
structure FileInv (t : Transfer) : Prop where
  layout : Layout t (inTransit t)
  stored : Stored t
  parked : t.slot = none → NoData t
  opened : ∀ s, t.slot = some s → s.fa = true → t.call = none → t.file ≠ none
  closed : ∀ s, t.slot = some s → s.fa = false ∨ t.call = some .complete → NoData t

namespace FileInv
variable {job : Job} {t : Transfer}

theorem queued (size : Nat) (file : Option Bytes) : FileInv (queued size file) where
  layout := Layout.queued size file
  stored _ hp := absurd hp Std.ExtTreeMap.not_mem_empty
  parked _ _ hp := absurd hp Std.ExtTreeMap.not_mem_empty
  opened _ hs := by cases hs
  closed _ hs := by cases hs

theorem quiet (inv : FileInv t) {t' : Transfer} (quiet : Quiet t t') : FileInv t' := by
  have agrees := quiet.agrees
  have noData : NoData t → NoData t' := by
    rw [NoData, NoData, agrees.chunkmacs, agrees.size]
    exact id
  refine ⟨quiet.layout inv.layout, stored_of_agrees agrees inv.stored, fun none => ?_,
    fun s' hs' fa idle => ?_, fun s' hs' stopped => ?_⟩
  · cases slot : t.slot with
    | none => exact noData (inv.parked slot)
    | some s =>
      obtain ⟨s', hs', _⟩ := quiet.slot s slot
      rw [none] at hs'
      cases hs'
  · obtain ⟨s, hs, sameFa, _⟩ := quiet.slot_back hs'
    rw [agrees.file]
    exact inv.opened s hs (sameFa ▸ fa) (quiet.idle_back idle)
  · obtain ⟨s, hs, sameFa, _⟩ := quiet.slot_back hs'
    refine noData (inv.closed s hs ?_)
    rcases stopped with closed | complete
    · exact Or.inl (sameFa ▸ closed)
    · rcases quiet.call with same | ⟨e, failed⟩
      · exact Or.inr (same.symm.trans complete)
      · rw [failed] at complete
        simp at complete

theorem dispatch (inv : FileInv t) (get : job.type = .get) (free : t.slot = none)
    (idle : t.call = none) (ds : DsTime) (opened : Opened) (connections : Nat) :
    FileInv (dispatch job ds opened connections t) := by
  have noData := inv.parked free
  have started :=
    dispatch_spec get (inTransit_of_none free ▸ inv.layout) noData ds opened connections
  have only : ∀ s, (Xfer.dispatch job ds opened connections t).slot = some s → s.fa = true :=
    fun s hs => by rw [Option.some.inj (hs.symm.trans started.slot), started.fa]
  refine ⟨started.layout, ?_, fun none => ?_, fun s hs _ ready => ?_, fun s hs stopped => ?_⟩
  · exact stored_of_noData inv.stored noData started.size started.chunkmacs started.plain
  · rw [started.slot] at none
    cases none
  · cases opened with
    | ok => simp [Xfer.dispatch, get]
    | statFailed => simp [Xfer.dispatch] at ready
    | refused => simp [Xfer.dispatch] at ready
  · rcases stopped with closed | complete
    · rw [only s hs] at closed
      cases closed
    · rcases started.call with same | ⟨e, failed⟩
      · rw [same, idle] at complete
        cases complete
      · rw [failed] at complete
        simp at complete

theorem doio (inv : FileInv t) (get : job.type = .get) (live : t.live = true)
    (idle : t.call = none) {ds : DsTime} {envs : List ConnEnv} {s : Slot} (slot : t.slot = some s)
    (whole : ∀ env ∈ envs, env.written = none) : FileInv (doio job ds envs s t) := by
  cases fa : s.fa with
  | false =>
    -- a pending completion is called again
    have noData := inv.closed s slot (Or.inl fa)
    rw [Xfer.doio, if_pos fa]
    refine ⟨?_, stored_of_agrees ⟨rfl, rfl, rfl, rfl, rfl⟩ inv.stored, fun none => ?_,
      fun _ _ _ call => ?_, fun _ _ _ => noData⟩
    · have layout := inTransit_of_slot slot ▸ inv.layout
      exact Layout.isLocal t _ 0 _ ⟨rfl, rfl, rfl, rfl, rfl⟩ layout
    · cases none
    · cases call
  | true =>
    have full : ∀ env ∈ ({} : ConnEnv) :: envs, env.written = none := by
      intro env henv
      rcases List.mem_cons.mp henv with rfl | henv
      · rfl
      · exact whole env henv
    obtain ⟨_, s', hs', sameFa, outcome⟩ := doio_keeps get ds envs
      (saved_kept job) saved_local idle live (fun env henv _ _ => full env henv)
      ⟨inTransit_of_slot slot ▸ inv.layout, inv.stored, inv.opened s slot fa idle⟩
    have noneGone : (Xfer.doio job ds envs s t).slot = none → NoData (Xfer.doio job ds envs s t) := by
      intro none
      rw [hs'] at none
      cases none
    have stillOpen : ∀ s₁, (Xfer.doio job ds envs s t).slot = some s₁ → s₁.fa = true := by
      intro s₁ hs₁
      rw [Option.some.inj (hs₁.symm.trans hs'), sameFa, fa]
    rcases outcome with ⟨⟨layout, stored, opened⟩, call⟩ | ⟨env, henv, r, hr, finishes⟩
    · refine ⟨inTransit_of_slot hs' ▸ layout, stored, noneGone, fun _ _ _ _ => opened,
        fun s₁ hs₁ stopped => ?_⟩
      rcases stopped with closed | complete
      · rw [stillOpen s₁ hs₁] at closed
        cases closed
      · rw [call complete] at fa
        cases fa
    · obtain ⟨_, t₀, n, ending, agrees, _, here, layout, stored, opened⟩ := finishes
      have kept := stored_ended job layout stored here ending.whole (full env henv) opened
      have noData : NoData (Xfer.doio job ds envs s t) := by
        rw [NoData, agrees.chunkmacs, agrees.size]
        exact noData_ended job env r t₀
      refine ⟨inTransit_of_slot hs' ▸ Layout.isLocal _ _ 0 _ agrees (layout.ended here),
        stored_of_agrees agrees kept, noneGone, fun _ _ _ idle' => ?_, fun _ _ _ => noData⟩
      rw [agrees.file]
      exact ended_file opened

theorem settle (inv : FileInv t) (get : job.type = .get) {v : Verdict}
    (pending : t.call = some v) (ds : DsTime) (defer : Bool) (placement : Placement)
    (noLoss : NoLoss t (.settle ds defer placement))
    (alive : (settle job ds defer placement t).live = true) :
    FileInv (settle job ds defer placement t) := by
  rcases settle_cases get pending ds defer placement with dead | ⟨same, outcome⟩
  · rw [dead] at alive
    cases alive
  · -- in every case that keeps the transfer, no chunk with data is recorded
    have noData : NoData t := by
      rcases outcome with ⟨failed, rfl, _⟩ | ⟨none, _⟩ | ⟨rfl, s, _, hs, _⟩
      · exact fun p hp => noLoss v pending failed p (Std.ExtTreeMap.mem_keys.mpr hp)
      · exact inv.parked none
      · exact inv.closed s hs (Or.inr pending)
    have noData' : NoData (Xfer.settle job ds defer placement t) := by
      rw [NoData, same.chunkmacs, same.size]
      exact noData
    have stored := stored_of_noData inv.stored noData same.size same.chunkmacs same.plain
    have released : (Xfer.settle job ds defer placement t).slot = none →
        FileInv (Xfer.settle job ds defer placement t) := by
      intro gone
      refine ⟨inTransit_of_none gone ▸ inv.layout.toNil.transfer same, stored, fun _ => noData',
        fun s hs => ?_, fun _ _ _ => noData'⟩
      rw [gone] at hs
      cases hs
    rcases outcome with ⟨_, _, gone⟩ | ⟨_, gone, _⟩ | ⟨_, s, s', hs, hs', closed, _, reqs, _⟩
    · exact released gone
    · exact released gone
    · have transit : inTransit (Xfer.settle job ds defer placement t) = inTransit t := by
        rw [inTransit_of_slot hs, inTransit_of_slot hs', reqs]
      refine ⟨transit ▸ inv.layout.transfer same, stored, fun _ => noData', fun s₁ hs₁ fa => ?_,
        fun _ _ _ => noData'⟩
      rw [Option.some.inj (hs₁.symm.trans hs'), closed] at fa
      cases fa

theorem step (inv : t.live = true → FileInv t) (get : job.type = .get) (e : Event)
    (whole : WritesWhole e) (noLoss : NoLoss t e) :
    (step job t e).live = true → FileInv (step job t e) := by
  unfold Xfer.step
  split
  · exact inv
  · rename_i alive
    have live : t.live = true := by simpa using alive
    split
    · rename_i busy
      obtain ⟨v, pending⟩ := Option.isSome_iff_exists.mp busy
      cases e with
      | settle ds defer placement =>
        exact fun alive => (inv live).settle get pending ds defer placement noLoss alive
      | _ => exact inv
    · rename_i noCall
      have idle : t.call = none := by simpa using noCall
      intro _
      rcases act_cases job t e with quiet | ⟨ds, opened, connections, rfl, free, same⟩ |
        ⟨ds, envs, s, rfl, slot, same⟩
      · exact (inv live).quiet quiet
      · rw [same]
        exact (inv live).dispatch get free idle ds opened connections
      · rw [same]
        exact (inv live).doio get live idle slot whole

end FileInv

/-- In every run of a download in which no write falls short and no failed transfer is kept
for a retry with recorded data, every recorded chunk is in the temporary file. -/
theorem stored_run (job : Job) (get : job.type = .get) (size : Nat) (file : Option Bytes)
    (events : List Event)
    (meets : Meets (step job) (fun t e => WritesWhole e ∧ NoLoss t e) (queued size file) events) :
    (run (step job) (queued size file) events).live = true →
      Stored (run (step job) (queued size file) events) := by
  have inv := run_invariant (fun t => t.live = true → FileInv t)
    (fun _ e inv cond => FileInv.step inv get e cond.1 cond.2)
    (fun _ => FileInv.queued size file) meets
  exact fun live => (inv live).stored

instance : (e : Event) → Decidable (WritesWhole e)
  | .doio _ envs => inferInstanceAs (Decidable (∀ env ∈ envs, env.written = none))
  | .dispatch _ _ _ | .source _ _ | .fail _ | .network _ _ | .settle _ _ _ | .chunkRetry =>
    isTrue trivial

instance (t : Transfer) : (e : Event) → Decidable (NoLoss t e)
  | .settle _ true _ => inferInstanceAs
      (Decidable (∀ v ∈ t.call, v ≠ .complete → ∀ p ∈ t.chunkmacs.keys, t.size ≤ p))
  | .settle _ false _ | .dispatch _ _ _ | .doio _ _ | .source _ _ | .fail _ | .network _ _
  | .chunkRetry => isTrue trivial

/-- The chunk arrives short once and then whole, so that the count passes the file size. -/
def refetchRun : List Event :=
  threeByteRun [7, 8] ++ [.network 0 (.data [7, 8, 9]), .network 0 (.success []), .doio 5 []]

theorem stored_refetchRun :
    0 ∈ (run (step sampleJob) (queued 3 none) refetchRun).chunkmacs ∧
      Stored (run (step sampleJob) (queued 3 none) refetchRun) :=
  ⟨by decide, stored_run sampleJob rfl 3 none refetchRun (by decide) (by decide)⟩

/-- The transfer then times out until it is failed, and is kept for a retry. -/
def timeoutRun : List Event :=
  refetchRun ++ (List.replicate 11 [.doio 1000 [], .chunkRetry]).flatten ++
    [.doio 1000 [], .settle 1000 true .mismatch]

/-- Its chunk is still recorded when the temporary file is gone. -/
theorem timeoutRun_not_stored :
    ¬ ∀ (job : Job) (size : Nat) (file : Option Bytes) (events : List Event), job.type = .get →
      (run (step job) (queued size file) events).live = true →
        Stored (run (step job) (queued size file) events) := by
  intro always
  have stored := always sampleJob 3 none timeoutRun rfl (by decide)
  obtain ⟨data, _, len, holds⟩ := stored 0 (by decide)
  have three : chunkEnd (run (step sampleJob) (queued 3 none) timeoutRun).size 0 - 0 = 3 := by
    decide
  obtain ⟨f, exists_file, _⟩ := holds 0 (by omega)
  have gone : (run (step sampleJob) (queued 3 none) timeoutRun).file = none := by decide
  rw [gone] at exists_file
  cases exists_file

end MegaSdk.Xfer
