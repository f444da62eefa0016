import MegaSdk.Xfer.Files
import MegaSdk.Lib.Runs

/-!
# Placing a completed download

`Transfer::complete` for downloads: the temporary file is renamed to the first target that
accepts it and copied to the others. Where a file could not be placed for a transient reason,
`TransferSlot::doio` calls `complete` again, and that call starts from the temporary file: the
name it was renamed to is forgotten. The files that stay are those that stay on the list of the
transfer in `MegaSdk.Xfer.Files`.
-/

namespace MegaSdk.Xfer.Completion

open Runs

abbrev Path := Bytes

abbrev FileSystem := Path → Option Bytes

def FileSystem.put (fs : FileSystem) (name : Path) (content : Option Bytes) : FileSystem :=
  fun other => if other = name then content else fs other

/-- `renamelocal`: a missing file is a permanent failure. -/
def renamelocal (outcome : FsOutcome) (oldname newname : Path) (fs : FileSystem) :
    FsOutcome × FileSystem :=
  match outcome, fs oldname with
  | .done, some data => (.done, (fs.put oldname none).put newname (some data))
  | .done, none => (.permanent, fs)
  | failure, _ => (failure, fs)

/-- `copylocal`: the target is truncated before the source is read, and a copy that fails may
leave anything in it. -/
def copylocal (outcome : FsOutcome) (leftover : Option Bytes) (oldname newname : Path)
    (fs : FileSystem) : FsOutcome × FileSystem :=
  match outcome, fs oldname with
  | .done, some data => (.done, fs.put newname (some (if oldname = newname then [] else data)))
  | .done, none => (.permanent, fs)
  | failure, some _ =>
    if leftover.isSome ∧ oldname ≠ newname then (failure, fs.put newname leftover)
    else (failure, fs)
  | failure, none => (failure, fs)

/-- What happens to a file in one call: its local name after `updatelocalname`, the outcome of
the operations as far as they are tried, and whether `failed` wants to go on. -/
structure Attempt where
  localname : Path
  rename : FsOutcome
  copy : FsOutcome
  leftover : Option Bytes
  again : Bool
  deriving DecidableEq, Repr

/-- A call of `complete`: whether the temporary file can be opened, what happens to each file,
and which files want to go on after a failed verification. -/
structure Call where
  opens : Bool
  attempt : Nat → Attempt
  again : Nat → Bool

inductive Phase where
  | completing | restarting | deleted
  deriving DecidableEq, Repr

/-- A download whose data has been received. The files are those still to be completed;
`accepts` compares the fingerprint of a content with that of the transfer. -/
structure Download where
  localfilename : Path
  accepts : Bytes → Bool
  files : List Nat
  fs : FileSystem
  phase : Phase

/-- One round of the loop of `complete`: whether the file stays, and `tmplocalname`, which is
`none` as long as it is empty. -/
def placeFile (localfilename : Path) (a : Attempt) (fs : FileSystem) (tmplocalname : Option Path) :
    Bool × FileSystem × Option Path :=
  let (renamed, fs) :=
    if tmplocalname.isNone then renamelocal a.rename localfilename a.localname fs
    else (.permanent, fs)
  if renamed = .done then (false, fs, some a.localname)
  else
    let (copied, fs) :=
      copylocal a.copy a.leftover (tmplocalname.getD localfilename) a.localname fs
    let transient := renamed = .transient || copied = .transient
    (copied ≠ .done && (transient || a.again), fs, tmplocalname)

/-- The loop of `complete`: the files that stay. -/
def placeFiles (localfilename : Path) (attempt : Nat → Attempt) :
    List Nat → FileSystem → Option Path → List Nat × FileSystem × Option Path
  | [], fs, tmplocalname => ([], fs, tmplocalname)
  | f :: files, fs, tmplocalname =>
    let (stays, fs, tmplocalname) := placeFile localfilename (attempt f) fs tmplocalname
    let (rest, fs, tmplocalname) := placeFiles localfilename attempt files fs tmplocalname
    (if stays then f :: rest else rest, fs, tmplocalname)

/-- `Transfer::complete`, also as it is called again by `TransferSlot::doio`. -/
def complete (t : Download) (call : Call) : Download :=
  match t.phase with
  | .restarting => t
  | .deleted => t
  | .completing =>
    if call.opens ∧ (t.fs t.localfilename).any (fun data => !t.accepts data) then
      { t with
        fs := t.fs.put t.localfilename none
        phase := if t.files.any call.again then .restarting else .deleted }
    else
      let (files, fs, tmplocalname) := placeFiles t.localfilename call.attempt t.files t.fs none
      { t with
        files := files
        fs := if tmplocalname.isNone ∧ files = [] then fs.put t.localfilename none else fs
        phase := if files = [] then .deleted else .completing }

/-- The data is still where the next call of `complete` looks for it. -/
def Held (data : Bytes) (t : Download) : Prop :=
  t.accepts data ∧ (t.phase = .completing → t.fs t.localfilename = some data)

/-- No file of the list stays, given whether the temporary file has been renamed already. -/
def settles (attempt : Nat → Attempt) : Bool → List Nat → Bool
  | _, [] => true
  | renamed, f :: files =>
    let a := attempt f
    if !renamed && a.rename = .done then settles attempt true files
    else
      let transient := (!renamed && a.rename = .transient) || a.copy = .transient
      (a.copy = .done || !(transient || a.again)) && settles attempt renamed files

/-- The temporary file is not renamed to another name, and not copied onto itself. -/
def remains (localfilename : Path) (attempt : Nat → Attempt) : Bool → List Nat → Bool
  | _, [] => true
  | renamed, f :: files =>
    let a := attempt f
    if !renamed && a.rename = .done then
      a.localname = localfilename && remains localfilename attempt true files
    else !(a.copy = .done && a.localname = localfilename) && remains localfilename attempt renamed files

/-- A call that completes all files, or that leaves the temporary file in its place. -/
def Safe (t : Download) (call : Call) : Prop :=
  settles call.attempt false t.files ∨ remains t.localfilename call.attempt false t.files

section One
variable {x : Path} {a : Attempt} {fs : FileSystem} {tmp : Option Path} {data : Bytes}

theorem put_same (fs : FileSystem) (name : Path) (content : Option Bytes) :
    fs.put name content name = content := if_pos rfl

theorem put_other (fs : FileSystem) {name other : Path} (content : Option Bytes)
    (different : other ≠ name) : fs.put name content other = fs other := if_neg different

/-- The first rename that succeeds. -/
theorem placeFile_renamed (renames : a.rename = .done) (source : fs x = some data) :
    placeFile x a fs none =
      (false, (fs.put x none).put a.localname (some data), some a.localname) := by
  simp [placeFile, renamelocal, renames, source]

/-- The rename is not tried any more, or it fails. -/
def NoRename (a : Attempt) (tmp : Option Path) : Prop := tmp = none → a.rename ≠ .done

theorem NoRename.result (fails : NoRename a tmp) (x : Path) (fs : FileSystem) :
    (if tmp.isNone then renamelocal a.rename x a.localname fs else (.permanent, fs)) =
      (if tmp.isNone then a.rename else .permanent, fs) := by
  cases tmp with
  | some name => rfl
  | none =>
    have failure := fails rfl
    revert failure
    cases a.rename <;> simp [renamelocal]

theorem NoRename.ne_done (fails : NoRename a tmp) :
    (if tmp.isNone then a.rename else .permanent) ≠ .done := by
  cases tmp with
  | some name => simp
  | none => simpa using fails rfl

theorem placeFile_copied (fails : NoRename a tmp) (copies : a.copy = .done)
    (source : fs (tmp.getD x) = some data) :
    placeFile x a fs tmp =
      (false, fs.put a.localname (some (if tmp.getD x = a.localname then [] else data)), tmp) := by
  simp only [placeFile, fails.result, if_neg fails.ne_done, copies, copylocal, source]
  simp

/-- A copy that fails leaves its source alone. -/
theorem copylocal_failed {outcome : FsOutcome} (failure : outcome ≠ .done)
    (leftover : Option Bytes) {oldname : Path} (source : fs oldname = some data)
    (newname : Path) :
    ∃ fs', copylocal outcome leftover oldname newname fs = (outcome, fs') ∧
      fs' oldname = some data := by
  have copy : copylocal outcome leftover oldname newname fs =
      if leftover.isSome ∧ oldname ≠ newname then (outcome, fs.put newname leftover)
      else (outcome, fs) := by
    cases outcome with
    | done => exact absurd rfl failure
    | transient => simp only [copylocal, source]
    | permanent => simp only [copylocal, source]
  rw [copy]
  split
  · rename_i written
    exact ⟨_, rfl, (put_other fs leftover written.2).trans source⟩
  · exact ⟨fs, rfl, source⟩

/-- A file that is neither renamed nor copied stays if that may change. -/
theorem placeFile_failed (fails : NoRename a tmp) (copies : a.copy ≠ .done)
    (source : fs (tmp.getD x) = some data) :
    ∃ fs', placeFile x a fs tmp =
        ((tmp.isNone && a.rename = .transient || a.copy = .transient) || a.again, fs', tmp) ∧
      fs' (tmp.getD x) = some data := by
  obtain ⟨fs', copy, kept⟩ := copylocal_failed copies a.leftover source a.localname
  refine ⟨fs', ?_, kept⟩
  simp only [placeFile, fails.result, if_neg fails.ne_done, copy]
  cases tmp with
  | none => simp [copies]
  | some name => simp [copies]

end One

section All
variable {x : Path} {attempt : Nat → Attempt} {fs : FileSystem} {tmp : Option Path} {data : Bytes}
  {files : List Nat}

theorem placeFiles_cons (x : Path) (attempt : Nat → Attempt) (f : Nat) (files : List Nat)
    {fs fs' : FileSystem} {tmp tmp' : Option Path} {stays : Bool}
    (first : placeFile x (attempt f) fs tmp = (stays, fs', tmp')) :
    placeFiles x attempt (f :: files) fs tmp =
      let rest := placeFiles x attempt files fs' tmp'
      (if stays then f :: rest.1 else rest.1, rest.2) := by
  simp only [placeFiles, first]

theorem noRename_of {f : Nat} (other : ¬((!tmp.isSome && (attempt f).rename = .done) = true)) :
    NoRename (attempt f) tmp := by
  rintro rfl renames
  exact other (by simp [renames])

/-- If no file is due to stay, none does. -/
theorem placeFiles_settles (settled : settles attempt tmp.isSome files)
    (source : fs (tmp.getD x) = some data) : (placeFiles x attempt files fs tmp).1 = [] := by
  induction files generalizing fs tmp data with
  | nil => rfl
  | cons f files ih =>
    rw [settles] at settled
    split at settled
    · rename_i renames
      obtain ⟨rfl, renamed⟩ : tmp = none ∧ (attempt f).rename = .done := by
        simpa using renames
      rw [placeFiles_cons x attempt f files (placeFile_renamed renamed source)]
      exact ih settled (put_same _ _ _)
    · rename_i other
      have fails := noRename_of other
      rw [Bool.and_eq_true] at settled
      obtain ⟨here, later⟩ := settled
      by_cases copies : (attempt f).copy = .done
      · rw [placeFiles_cons x attempt f files (placeFile_copied fails copies source)]
        by_cases same : tmp.getD x = (attempt f).localname
        · rw [if_pos same]
          exact ih later (by rw [same]; exact put_same _ _ _)
        · exact ih later ((put_other _ _ same).trans source)
      · obtain ⟨fs', failed, kept⟩ := placeFile_failed fails copies source
        rw [placeFiles_cons x attempt f files failed]
        have gone : ((tmp.isNone && (attempt f).rename = .transient ||
            (attempt f).copy = .transient) || (attempt f).again) = false := by
          cases tmp with
          | none => simpa [copies] using here
          | some name => simpa [copies] using here
        simp only [gone, Bool.false_eq_true, if_false]
        exact ih later kept

/-- The attempt without the contents of the files. -/
def Attempt.outcome (a : Attempt) : Files.Client.Attempt := ⟨a.rename, a.copy, some a.again, false⟩

/-- As long as there is something to place, one round goes as the outcomes say. -/
theorem placeFile_outcome (tr : Files.Transfer) (a : Attempt)
    (source : fs (tmp.getD x) = some data) :
    ∃ fs' tmp' data', placeFile x a fs tmp =
        (!Files.Client.succeeds a.outcome tmp.isSome &&
          Files.Client.stays tr a.outcome tmp.isSome, fs', tmp') ∧
      tmp'.isSome = (tmp.isSome || a.rename = .done) ∧ fs' (tmp'.getD x) = some data' := by
  by_cases renames : (!tmp.isSome && a.rename = .done) = true
  · obtain ⟨rfl, renamed⟩ : tmp = none ∧ a.rename = .done := by
      simpa using renames
    refine ⟨(fs.put x none).put a.localname (some data), some a.localname, data,
      (placeFile_renamed renamed source).trans ?_, ?_, put_same _ _ _⟩
    · simp [Files.Client.succeeds, Attempt.outcome, renamed]
    · simp [renamed]
  · have fails : NoRename a tmp := by
      rintro rfl renamed
      exact renames (by simp [renamed])
    have still : tmp.isSome = (tmp.isSome || a.rename = .done) := by
      cases tmp with
      | none => simpa using renames
      | some name => rfl
    by_cases copies : a.copy = .done
    · have copied := placeFile_copied fails copies source
      generalize (if tmp.getD x = a.localname then [] else data) = written at copied
      have kept : ∃ data', fs.put a.localname (some written) (tmp.getD x) = some data' := by
        by_cases same : tmp.getD x = a.localname
        · exact ⟨written, by rw [same, put_same]⟩
        · exact ⟨data, by rw [put_other _ _ same, source]⟩
      obtain ⟨data', kept⟩ := kept
      refine ⟨_, tmp, data', copied.trans ?_, still, kept⟩
      simp [Files.Client.succeeds, Attempt.outcome, copies]
    · obtain ⟨fs', failed, kept⟩ := placeFile_failed fails copies source
      refine ⟨fs', tmp, data, failed.trans ?_, still, kept⟩
      have tried : Files.Client.succeeds a.outcome tmp.isSome = false := by
        rw [Bool.not_eq_true] at renames
        change ((!tmp.isSome && a.rename = .done) || a.copy = .done) = false
        rw [renames, Bool.false_or, decide_eq_false copies]
      rw [tried, Bool.not_false, Bool.true_and, ← Option.not_isSome]
      rfl

/-- The files that stay are those that `Files` has on the list of the transfer. -/
theorem placeFiles_remaining (tr : Files.Transfer) (source : fs (tmp.getD x) = some data) :
    (placeFiles x attempt files fs tmp).1 =
      Files.Client.remaining tr (fun f => (attempt f).outcome) tmp.isSome files := by
  induction files generalizing fs tmp data with
  | nil => rfl
  | cons f files ih =>
    obtain ⟨fs', tmp', data', first, renamed, next⟩ := placeFile_outcome tr (attempt f) source
    have later := ih next
    rw [renamed] at later
    rw [placeFiles_cons x attempt f files first, Files.Client.remaining]
    cases placed : Files.Client.succeeds (attempt f).outcome tmp.isSome with
    | true =>
      simp only [Bool.not_true, Bool.false_and, Bool.false_eq_true, if_false, if_true, later]
      rfl
    | false =>
      have same : (tmp.isSome || (attempt f).rename = .done) = tmp.isSome := by
        cases tmp with
        | none =>
          rw [Files.Client.succeeds, Bool.or_eq_false_iff] at placed
          exact placed.1
        | some name => rfl
      simp only [Bool.not_false, Bool.true_and, Bool.false_eq_true, if_false, later, same]

/-- The temporary file keeps its place and its content. -/
theorem placeFiles_remains (stays : remains x attempt tmp.isSome files)
    (from_x : tmp = none ∨ tmp = some x) (source : fs x = some data) :
    (placeFiles x attempt files fs tmp).2.1 x = some data := by
  have name : tmp.getD x = x := by
    rcases from_x with rfl | rfl <;> rfl
  induction files generalizing fs tmp with
  | nil => exact source
  | cons f files ih =>
    rw [remains] at stays
    split at stays
    · rename_i renames
      obtain ⟨rfl, renamed⟩ : tmp = none ∧ (attempt f).rename = .done := by
        simpa using renames
      rw [Bool.and_eq_true, decide_eq_true_eq] at stays
      obtain ⟨same, later⟩ := stays
      rw [placeFiles_cons x attempt f files (placeFile_renamed renamed source), same]
      exact ih later (.inr rfl) (put_same _ _ _) rfl
    · rename_i other
      have fails := noRename_of other
      rw [Bool.and_eq_true] at stays
      obtain ⟨here, later⟩ := stays
      have named : fs (tmp.getD x) = some data := by rw [name, source]
      by_cases copies : (attempt f).copy = .done
      · have different : x ≠ (attempt f).localname := by
          rintro same
          simp [copies, ← same] at here
        rw [placeFiles_cons x attempt f files (placeFile_copied fails copies named)]
        exact ih later from_x ((put_other _ _ different).trans source) name
      · obtain ⟨fs', failed, kept⟩ := placeFile_failed fails copies named
        rw [placeFiles_cons x attempt f files failed]
        rw [name] at kept
        exact ih later from_x kept name

end All

section Calls
variable {t : Download} {data : Bytes} {call : Call}

/-- The verification passes as long as the data is in its place. -/
theorem Held.complete_eq (held : Held data t) (pending : t.phase = .completing) (call : Call) :
    complete t call =
      let placed := placeFiles t.localfilename call.attempt t.files t.fs none
      { t with
        files := placed.1
        fs := if placed.2.2.isNone ∧ placed.1 = [] then placed.2.1.put t.localfilename none
          else placed.2.1
        phase := if placed.1 = [] then .deleted else .completing } := by
  have verified : ¬(call.opens ∧ (t.fs t.localfilename).any fun data => !t.accepts data) := by
    simp [held.2 pending, held.1]
  simp only [complete, pending, if_neg verified]

/-- As long as the data is in its place, the files that `complete` leaves are those that it leaves
on the list of the transfer. -/
theorem Held.filesOf_complete (held : Held data t) (pending : t.phase = .completing) (call : Call)
    {s : Files.Client} (consistent : Files.Consistent s) {owner : Files.TransferRef}
    (listed : s.filesOf owner = t.files) (tr : Files.Transfer) :
    (Files.Client.placeFiles owner tr (fun f => (call.attempt f).outcome) false t.files s).filesOf
        owner = (complete t call).files := by
  have once : t.files.Nodup := by
    rw [← listed]
    exact consistent.linked.once owner
  have left := @Files.Client.filesOf_placeFiles s owner tr (fun f => (call.attempt f).outcome) false
    [] t.files (consistent.linked.placed owner) listed once
  have source : t.fs (Option.getD none t.localfilename) = some data := held.2 pending
  rw [left, held.complete_eq pending call]
  exact (placeFiles_remaining tr source).symm

/-- A safe call keeps the data in its place as long as a file is pending. -/
theorem Held.step (t : Download) (call : Call) (held : Held data t) (safe : Safe t call) :
    Held data (complete t call) := by
  cases pending : t.phase with
  | restarting => simpa only [complete, pending] using held
  | deleted => simpa only [complete, pending] using held
  | completing =>
    have source := held.2 pending
    rw [held.complete_eq pending call]
    refine ⟨held.1, fun completing => ?_⟩
    have unfinished : (placeFiles t.localfilename call.attempt t.files t.fs none).1 ≠ [] := by
      intro empty
      simp [empty] at completing
    rcases safe with settled | stays
    · exact absurd (placeFiles_settles settled source) unfinished
    · simp only [unfinished, and_false, if_false]
      exact placeFiles_remains stays (.inl rfl) source

def FailureFree (call : Call) (files : List Nat) : Prop :=
  ∀ f ∈ files, (call.attempt f).rename = .done ∧ (call.attempt f).copy = .done

def Distinct (call : Call) (files : List Nat) : Prop :=
  files.Pairwise fun f g => (call.attempt f).localname ≠ (call.attempt g).localname

/-- Copies from a placed file reach all other files; who has the data keeps it. -/
theorem placeFiles_copies {x source : Path} {attempt : Nat → Attempt} {fs : FileSystem}
    {files : List Nat} (copies : ∀ f ∈ files, (attempt f).copy = .done)
    (elsewhere : ∀ f ∈ files, source ≠ (attempt f).localname) (here : fs source = some data) :
    ∃ fs', placeFiles x attempt files fs (some source) = ([], fs', some source) ∧
      (∀ name, fs name = some data → fs' name = some data) ∧
      ∀ f ∈ files, fs' (attempt f).localname = some data := by
  induction files generalizing fs with
  | nil => exact ⟨fs, rfl, fun _ kept => kept, by simp⟩
  | cons f files ih =>
    have different := elsewhere f List.mem_cons_self
    have copied : placeFile x (attempt f) fs (some source) =
        (false, fs.put (attempt f).localname (some data), some source) := by
      have placed : placeFile x (attempt f) fs (some source) = _ :=
        placeFile_copied (fun first => absurd first (by simp)) (copies f List.mem_cons_self) here
      rwa [Option.getD_some, if_neg different] at placed
    obtain ⟨fs', rest, kept, placed⟩ := @ih (fs.put (attempt f).localname (some data))
      (fun g mem => copies g (List.mem_cons_of_mem _ mem))
      (fun g mem => elsewhere g (List.mem_cons_of_mem _ mem))
      ((put_other _ _ different).trans here)
    refine ⟨fs', ?_, ?_, ?_⟩
    · rw [placeFiles_cons x attempt f files copied, rest]
      rfl
    · intro name same
      apply kept
      by_cases target : name = (attempt f).localname
      · rw [target]
        exact put_same _ _ _
      · exact (put_other _ _ target).trans same
    · intro g mem
      rcases List.mem_cons.mp mem with rfl | later
      · exact kept _ (put_same _ _ _)
      · exact placed g later

/-- A later call without failures places the data in all pending locations. -/
def Recovers (data : Bytes) (t : Download) : Prop :=
  ∀ call, FailureFree call t.files → Distinct call t.files →
    (complete t call).phase = .deleted ∧
      ∀ f ∈ t.files, (complete t call).fs (call.attempt f).localname = some data

theorem Held.recovers (held : Held data t) (pending : t.phase = .completing) :
    Recovers data t := by
  intro call free distinct
  have source := held.2 pending
  rw [held.complete_eq pending call]
  generalize t.files = files at free distinct
  cases files with
  | nil => exact ⟨rfl, by simp⟩
  | cons f files =>
    obtain ⟨others, -⟩ := List.pairwise_cons.mp distinct
    have renamed := placeFile_renamed (free f List.mem_cons_self).1 source
    obtain ⟨fs', rest, kept, placed⟩ := placeFiles_copies (x := t.localfilename)
      (fun g mem => (free g (List.mem_cons_of_mem _ mem)).2) others
      (put_same (t.fs.put t.localfilename none) _ (some data))
    rw [placeFiles_cons _ _ f files renamed, rest]
    refine ⟨rfl, ?_⟩
    intro g mem
    rcases List.mem_cons.mp mem with rfl | later
    · exact kept _ (put_same _ _ _)
    · exact placed g later

/-- As long as every call is safe, the data of a download with pending files is in the
temporary file, and a later call without failures places it in all pending locations. -/
theorem never_stranded (held : Held data t) {calls : List Call}
    (safe : Meets complete Safe t calls) :
    Always complete (fun u => u.phase = .completing →
      u.fs u.localfilename = some data ∧ Recovers data u) t calls :=
  (always_of_meets Held.step held safe).mono fun _ held pending =>
    ⟨held.2 pending, held.recovers pending⟩

end Calls

namespace Sample

def attempt (localname : Path) (rename copy : FsOutcome) : Attempt :=
  { localname, rename, copy, leftover := none, again := true }

/-- A file with one byte of data for two local names. -/
def start : Download where
  localfilename := ascii "tmp"
  accepts data := data = [1]
  files := [0, 1]
  fs := FileSystem.put (fun _ => none) (ascii "tmp") (some [1])
  phase := .completing

/-- The first file is placed, the second one is busy. -/
def busy : Call where
  opens := true
  attempt f :=
    if f = 0 then attempt (ascii "a") .done .done else attempt (ascii "b") .done .transient
  again _ := true

def bothBusy : Call where
  opens := true
  attempt f := attempt (if f = 0 then ascii "a" else ascii "b") .transient .transient
  again _ := true

def free : Call where
  opens := true
  attempt f := attempt (if f = 0 then ascii "a" else ascii "b") .done .done
  again _ := true

end Sample

theorem never_stranded_bothBusy :
    Always complete (fun u => u.phase = .completing →
      u.fs u.localfilename = some [1] ∧ Recovers [1] u) Sample.start
        [Sample.bothBusy, Sample.bothBusy, Sample.free] := by
  refine never_stranded ⟨by decide, fun _ => by decide⟩ ⟨.inr ?_, .inr ?_, .inl ?_, trivial⟩
  · decide
  · decide
  · decide

/-- After a rename and a transient failure, a file is pending and the data is not where the
next call looks for it; not even a call without failures places it then. -/
theorem stranded_busy :
    ¬Always complete (fun u => u.phase = .completing →
      u.fs u.localfilename = some [1] ∧ Recovers [1] u) Sample.start [Sample.busy] ∧
    (complete (complete Sample.start Sample.busy) Sample.free).fs (ascii "b") = none := by
  refine ⟨?_, by decide⟩
  rintro ⟨-, after⟩
  have lost : (complete Sample.start Sample.busy).fs (ascii "tmp") = none := by decide
  have held := (after (by decide)).1
  exact absurd (lost.symm.trans held) (by decide)

end MegaSdk.Xfer.Completion
