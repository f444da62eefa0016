import MegaSdk.Xfer.Slot
import MegaSdk.Lib.Membership
import MegaSdk.Lib.Runs

/-!
# Files and the transfers they belong to

Files with the same fingerprint share one `Transfer`. `startxfer` and `stopxfer` keep the
pointer of the file and the list of the transfer in step; `Transfer::complete` takes a file
that it gives up off the list and leaves its pointer as it is.
-/

namespace MegaSdk.Xfer.Files

open Runs Membership

abbrev FileRef := Nat
abbrev TransferRef := Nat

/-- What `startxfer` reads of a `File`; `filekey` is the part of the key that stands in for a
missing fingerprint. -/
structure File where
  fingerprint : FileFingerprint
  filekey : Vector UInt32 4

structure Transfer where
  type : Direction
  fingerprint : FileFingerprint
  failcount : Nat

/-- The fingerprint under which a file is queued; `generated` is what `genfingerprint` makes of
the local file, if it can be opened. -/
def File.prepared (d : Direction) (generated : Option FileFingerprint) (file : File) :
    FileFingerprint :=
  if file.fingerprint.isvalid then file.fingerprint
  else
    match d with
    | .put => generated.getD file.fingerprint
    | .get => { file.fingerprint with crc := file.filekey }

/-- `File::failed`: whether to try again. `answer` is what an overriding class says. -/
def Transfer.wantsRetry (tr : Transfer) (e : ApiError) (answer : Option Bool) : Bool :=
  answer.getD (e ≠ .key && e ≠ .blocked && tr.failcount < 16)

/-- The live files and transfers. `links` holds `File::transfer`, `File::file_it` and
`Transfer::files`, `pending` the transfers in `MegaClient::transfers`. -/
structure Client where
  files : FileRef → Option File
  transfers : TransferRef → Option Transfer
  pending : Direction → List TransferRef
  links : Links FileRef TransferRef
  nextFile : FileRef
  nextTransfer : TransferRef

namespace Client

def start : Client := ⟨fun _ => none, fun _ => none, fun _ => [], Links.empty, 0, 0⟩

/-- Keys that `FileFingerprintCmp` takes for the same. -/
def sameKey (a b : FileFingerprint) : Bool :=
  a.size = b.size && a.mtime = b.mtime && a.crc = b.crc

variable (s : Client)

/-- `transfers[d].find(f)`. -/
def find (d : Direction) (key : FileFingerprint) : Option TransferRef :=
  (s.pending d).find? fun t => (s.transfers t).any fun tr => sameKey tr.fingerprint key

def filesOf (t : TransferRef) : List FileRef := s.links.members t

/-- A new `Transfer`, with its place in `transfers[d]`. -/
def addTransfer (d : Direction) (key : FileFingerprint) : Client :=
  { s with
    transfers := Function.update s.transfers s.nextTransfer (some ⟨d, key, 0⟩)
    pending := Function.update s.pending d (s.nextTransfer :: s.pending d)
    nextTransfer := s.nextTransfer + 1 }

def startxfer (d : Direction) (f : FileRef) (generated : Option FileFingerprint) : Client :=
  match s.files f with
  | none => s
  | some file =>
    if (s.links.owner f).isSome then s
    else
      let file := { file with fingerprint := file.prepared d generated }
      let s := { s with files := Function.update s.files f (some file) }
      if d = .put ∧ file.fingerprint.isvalid = false then s
      else
        match s.find d file.fingerprint with
        | some t => { s with links := s.links.pushFront f t }
        | none =>
          { s.addTransfer d file.fingerprint with links := s.links.pushFront f s.nextTransfer }

/-- `~Transfer`. -/
def deleteTransfer (t : TransferRef) : Client :=
  { s with
    transfers := Function.update s.transfers t none
    pending := fun d => (s.pending d).filter (· ≠ t)
    links := s.links.release t }

/-- `stopxfer`: the last file takes its transfer with it. -/
def stopxfer (f : FileRef) : Client :=
  match s.links.owner f with
  | none => s
  | some t =>
    let s := { s with links := s.links.erase t f }
    let s := if s.links.list t = [] then s.deleteTransfer t else s
    { s with links := s.links.setOwner f none }

/-- `~File`. -/
def deleteFile (f : FileRef) : Client :=
  { s.stopxfer f with files := Function.update (s.stopxfer f).files f none }

def failed (t : TransferRef) (e : ApiError) (answer : FileRef → Option Bool) : Client :=
  match s.transfers t with
  | none => s
  | some tr =>
    if (s.filesOf t).any fun f => tr.wantsRetry e (answer f) then
      { s with
        transfers :=
          Function.update s.transfers t (some { tr with failcount := tr.failcount + 1 }) }
    else s.deleteTransfer t

/-- What happens to a file in a call of `complete`: how renaming and copying end as far as they
are tried, what `failed` answers, and whether `completed` deletes the file. -/
structure Attempt where
  rename : FsOutcome
  copy : FsOutcome
  answer : Option Bool
  destructs : Bool

/-- A call of `complete`: whether the fingerprint of the local file is found to be wrong, what the
files say to that, and what happens to each of them otherwise. -/
structure Call where
  mismatch : Bool
  answer : FileRef → Option Bool
  attempt : FileRef → Attempt

/-- The file gets to its place, by the first rename that succeeds or by a copy. -/
def succeeds (a : Attempt) (renamed : Bool) : Bool :=
  (!renamed && a.rename = .done) || a.copy = .done

/-- Placing the file has failed, and it is to be tried again. -/
def stays (tr : Transfer) (a : Attempt) (renamed : Bool) : Bool :=
  (!renamed && a.rename = .transient) || a.copy = .transient || tr.wantsRetry .again a.answer

/-- A completed file: its pointer is cleared, `completed` is called, and it leaves the list. -/
def completeFile (t : TransferRef) (f : FileRef) (destructs : Bool) : Client :=
  { s with
    files := if destructs then Function.update s.files f none else s.files
    links := (s.links.erase t f).setOwner f none }

def dropFile (t : TransferRef) (f : FileRef) : Client :=
  { s with links := s.links.erase t f }

/-- The loop of `complete` over the files of a download. -/
def placeFiles (t : TransferRef) (tr : Transfer) (attempt : FileRef → Attempt) :
    Bool → List FileRef → Client → Client
  | _, [], s => s
  | renamed, f :: rest, s =>
    let a := attempt f
    if succeeds a renamed then
      placeFiles t tr attempt (renamed || a.rename = .done) rest (s.completeFile t f a.destructs)
    else if stays tr a renamed then placeFiles t tr attempt renamed rest s
    else placeFiles t tr attempt renamed rest (s.dropFile t f)

/-- The loop of `complete` over the files of an upload. -/
def completeFiles (t : TransferRef) (attempt : FileRef → Attempt) :
    List FileRef → Client → Client
  | [], s => s
  | f :: rest, s => completeFiles t attempt rest (s.completeFile t f (attempt f).destructs)

/-- `delete this` if no file is left. -/
def shutIfEmpty (t : TransferRef) : Client :=
  if s.links.list t = [] then s.deleteTransfer t else s

def complete (t : TransferRef) (call : Call) : Client :=
  match s.transfers t with
  | none => s
  | some tr =>
    match tr.type with
    | .get =>
      if call.mismatch then s.failed t .write call.answer
      else (placeFiles t tr call.attempt false (s.filesOf t) s).shutIfEmpty t
    | .put =>
      if call.mismatch then s.failed t .read call.answer
      else (completeFiles t call.attempt (s.filesOf t) s).shutIfEmpty t

end Client

inductive Event where
  | newFile (file : File)
  | startxfer (d : Direction) (f : FileRef) (generated : Option FileFingerprint)
  | stopxfer (f : FileRef)
  | failed (t : TransferRef) (e : ApiError) (answer : FileRef → Option Bool)
  | complete (t : TransferRef) (call : Client.Call)
  | deleteFile (f : FileRef)
  | deleteTransfer (t : TransferRef)

def step (s : Client) : Event → Client
  | .newFile file =>
    { s with files := Function.update s.files s.nextFile (some file), nextFile := s.nextFile + 1 }
  | .startxfer d f generated => s.startxfer d f generated
  | .stopxfer f => s.stopxfer f
  | .failed t e answer => s.failed t e answer
  | .complete t call => s.complete t call
  | .deleteFile f => s.deleteFile f
  | .deleteTransfer t => s.deleteTransfer t

/-- A live file points to a transfer exactly if it is on its list, where it is once; no live file
points to a deleted transfer. -/
structure Agree (s : Client) : Prop where
  mem_iff : ∀ f t, (s.files f).isSome → (s.transfers t).isSome →
    (s.links.owner f = some t ↔ f ∈ s.filesOf t)
  once : ∀ f t, (s.files f).isSome → (s.transfers t).isSome → f ∈ s.filesOf t →
    (s.filesOf t).count f = 1
  live : ∀ f t, (s.files f).isSome → s.links.owner f = some t → (s.transfers t).isSome

/-- A download with these files gives one of them up: it can neither be renamed nor copied, for no
transient reason, and its `failed` does not want to try again. -/
def givesUp (tr : Transfer) (attempt : FileRef → Client.Attempt) : Bool → List FileRef → Bool
  | _, [] => false
  | renamed, f :: rest =>
    let a := attempt f
    if Client.succeeds a renamed then givesUp tr attempt (renamed || a.rename = .done) rest
    else !Client.stays tr a renamed || givesUp tr attempt renamed rest

/-- The completion of a download gives up no file. -/
def Persistent (s : Client) : Event → Prop
  | .complete t call => ∀ tr, s.transfers t = some tr → tr.type = .get → call.mismatch = false →
      givesUp tr call.attempt false (s.filesOf t) = false
  | _ => True

/-- Both sides agree for all files and transfers, and only live ones take part. -/
structure Consistent (s : Client) : Prop where
  linked : s.links.Linked
  live : ∀ f t, s.links.owner f = some t → (s.files f).isSome ∧ (s.transfers t).isSome
  pending : ∀ d, ∀ t ∈ s.pending d, (s.transfers t).isSome

theorem Consistent.agree {s : Client} (consistent : Consistent s) : Agree s where
  mem_iff f t _ _ := consistent.linked.mem_iff f t
  once _ t _ _ mem := List.count_eq_one_of_mem (consistent.linked.once t) mem
  live f t _ owned := (consistent.live f t owned).2

theorem consistent_start : Consistent Client.start where
  linked := Links.linked_empty
  live f t owned := by simp [Client.start, Links.empty] at owned
  pending d t mem := by simp [Client.start] at mem

namespace Client
variable {s : Client}

theorem isSome_update {α : Type} {m : Nat → Option α} {i : Nat} (k : Nat) (a : α)
    (some : (m i).isSome) : (Function.update m k (Option.some a) i).isSome := by
  by_cases same : i = k
  · subst same
    simp
  · simpa [same] using some

/-- A file without a transfer is put on the list of a live one. -/
theorem consistent_pushFront (consistent : Consistent s) {f : FileRef} {t : TransferRef}
    (free : s.links.owner f = none) (file : (s.files f).isSome)
    (transfer : (s.transfers t).isSome) :
    Consistent { s with links := s.links.pushFront f t } where
  linked := Links.linked_pushFront consistent.linked free t
  live k p owned := by
    rcases (Links.attach_owner_iff f k t p _).mp owned with ⟨rfl, rfl⟩ | ⟨-, old⟩
    · exact ⟨file, transfer⟩
    · exact consistent.live k p old
  pending := consistent.pending

theorem consistent_addTransfer (consistent : Consistent s) (d : Direction)
    (key : FileFingerprint) : Consistent (s.addTransfer d key) where
  linked := consistent.linked
  live k p owned := by
    obtain ⟨file, transfer⟩ := consistent.live k p owned
    exact ⟨file, isSome_update _ _ transfer⟩
  pending d' t mem := by
    have known : t = s.nextTransfer ∨ t ∈ s.pending d' := by
      by_cases same : d' = d
      · subst same
        simpa [addTransfer] using mem
      · exact .inr (by simpa [addTransfer, same] using mem)
    rcases known with rfl | old
    · simp [addTransfer]
    · exact isSome_update _ _ (consistent.pending d' t old)

/-- A file with another fingerprint is still the same file. -/
theorem consistent_setFile (consistent : Consistent s) (f : FileRef) (file : File) :
    Consistent { s with files := Function.update s.files f (some file) } where
  linked := consistent.linked
  live k p owned :=
    ⟨isSome_update f file (consistent.live k p owned).1, (consistent.live k p owned).2⟩
  pending := consistent.pending

theorem consistent_startxfer (consistent : Consistent s) (d : Direction) (f : FileRef)
    (generated : Option FileFingerprint) : Consistent (s.startxfer d f generated) := by
  rw [startxfer]
  cases s.files f with
  | none => exact consistent
  | some file =>
    dsimp only
    split
    · exact consistent
    rename_i idle
    have free : s.links.owner f = none := by simpa using idle
    generalize file.prepared d generated = key
    have updated := consistent_setFile consistent f { file with fingerprint := key }
    have present : (Function.update s.files f
        (some { file with fingerprint := key }) f).isSome := by simp
    split
    · exact updated
    split
    · rename_i t found
      refine consistent_pushFront updated free present ?_
      exact consistent.pending d t (List.mem_of_find?_eq_some found)
    · have added := consistent_addTransfer updated d key
      refine consistent_pushFront added free present ?_
      simp [addTransfer]

theorem consistent_deleteTransfer (consistent : Consistent s) (t : TransferRef) :
    Consistent (s.deleteTransfer t) where
  linked := Links.linked_release consistent.linked t
  live k p owned := by
    obtain ⟨old, apart⟩ := (consistent.linked.release_owner_iff t k p).mp owned
    obtain ⟨file, transfer⟩ := consistent.live k p old
    exact ⟨file, by simpa [deleteTransfer, apart] using transfer⟩
  pending d p mem := by
    obtain ⟨old, apart⟩ := List.mem_filter.mp mem
    have transfer := consistent.pending d p old
    simpa [deleteTransfer, of_decide_eq_true apart] using transfer

/-- A file that forgets its transfer as it leaves the list. -/
theorem consistent_leave (consistent : Consistent s) (f : FileRef) :
    Consistent { s with links := s.links.leave f } where
  linked := Links.linked_leave consistent.linked f
  live k p owned := consistent.live k p ((Links.leave_owner_iff f k p).mp owned).1
  pending := consistent.pending

theorem consistent_shutIfEmpty (consistent : Consistent s) (t : TransferRef) :
    Consistent (s.shutIfEmpty t) := by
  rw [shutIfEmpty]
  split
  · exact consistent_deleteTransfer consistent t
  · exact consistent

theorem stopxfer_of_owner {f : FileRef} {t : TransferRef} (owned : s.links.owner f = some t) :
    s.stopxfer f = { s with links := s.links.leave f }.shutIfEmpty t := by
  have list : (s.links.leave f).list t = (s.links.erase t f).list t := by
    rw [Links.leave_of_owner owned]
    rfl
  rw [stopxfer, owned, shutIfEmpty]
  dsimp only
  rw [list]
  split
  · simp only [deleteTransfer, Links.leave_of_owner owned, Links.release_setOwner_none]
  · simp only [Links.leave_of_owner owned]

theorem consistent_stopxfer (consistent : Consistent s) (f : FileRef) :
    Consistent (s.stopxfer f) := by
  cases owned : s.links.owner f with
  | none =>
    rw [stopxfer, owned]
    exact consistent
  | some t =>
    rw [stopxfer_of_owner owned]
    exact consistent_shutIfEmpty (consistent_leave consistent f) t

theorem stopxfer_owner_none (f : FileRef) :
    (s.stopxfer f).links.owner f = none := by
  rw [stopxfer]
  cases owned : s.links.owner f with
  | none => exact owned
  | some t => simp [Links.setOwner]

/-- A file without a transfer can be deleted. -/
theorem consistent_removeFile (consistent : Consistent s) {f : FileRef}
    (free : s.links.owner f = none) :
    Consistent { s with files := Function.update s.files f none } where
  linked := consistent.linked
  live k p owned := by
    have apart : k ≠ f := by
      rintro rfl
      rw [free] at owned
      cases owned
    obtain ⟨file, transfer⟩ := consistent.live k p owned
    exact ⟨by simpa [apart] using file, transfer⟩
  pending := consistent.pending

theorem consistent_deleteFile (consistent : Consistent s) (f : FileRef) :
    Consistent (s.deleteFile f) :=
  consistent_removeFile (consistent_stopxfer consistent f) (stopxfer_owner_none f)

theorem consistent_failed (consistent : Consistent s) (t : TransferRef) (e : ApiError)
    (answer : FileRef → Option Bool) : Consistent (s.failed t e answer) := by
  rw [failed]
  cases s.transfers t with
  | none => exact consistent
  | some tr =>
    dsimp only
    split
    · refine ⟨consistent.linked, ?_, ?_⟩
      · intro k p owned
        obtain ⟨file, transfer⟩ := consistent.live k p owned
        exact ⟨file, isSome_update _ _ transfer⟩
      · exact fun d p mem => isSome_update _ _ (consistent.pending d p mem)
    · exact consistent_deleteTransfer consistent t

/-- A file of the transfer is completed. -/
theorem consistent_completeFile (consistent : Consistent s) {t : TransferRef} {f : FileRef}
    (owned : s.links.owner f = some t) (destructs : Bool) :
    Consistent (s.completeFile t f destructs) := by
  have left := consistent_leave consistent f
  rw [completeFile, ← Links.leave_of_owner owned]
  cases destructs with
  | false => exact left
  | true =>
    refine consistent_removeFile left ?_
    rw [Links.leave_of_owner owned]
    simp [Links.setOwner]

theorem completeFile_owner {t : TransferRef} {f g : FileRef} (apart : g ≠ f) (destructs : Bool) :
    (s.completeFile t f destructs).links.owner g = s.links.owner g := by
  simp [completeFile, Links.setOwner, Links.erase, apart]

/-- The files of the transfer that the loop has not come to yet. -/
structure Ahead (s : Client) (t : TransferRef) (rest : List FileRef) : Prop where
  owned : ∀ f ∈ rest, s.links.owner f = some t
  unique : rest.Nodup

theorem ahead_filesOf (consistent : Consistent s) (t : TransferRef) :
    Ahead s t (s.filesOf t) where
  owned f mem := (consistent.linked.mem_iff f t).mpr mem
  unique := consistent.linked.once t

theorem Ahead.tail {t : TransferRef} {f : FileRef} {rest : List FileRef}
    (ahead : Ahead s t (f :: rest)) : Ahead s t rest :=
  ⟨fun g mem => ahead.owned g (List.mem_cons_of_mem f mem), (List.nodup_cons.mp ahead.unique).2⟩

theorem Ahead.completeFile {t : TransferRef} {f : FileRef} {rest : List FileRef}
    (ahead : Ahead s t (f :: rest)) (destructs : Bool) :
    Ahead (s.completeFile t f destructs) t rest := by
  refine ⟨fun g mem => ?_, ahead.tail.unique⟩
  have apart : g ≠ f := by
    rintro rfl
    exact (List.nodup_cons.mp ahead.unique).1 mem
  rw [completeFile_owner apart]
  exact ahead.tail.owned g mem

theorem consistent_completeFiles (attempt : FileRef → Attempt) {t : TransferRef}
    {rest : List FileRef} (consistent : Consistent s) (ahead : Ahead s t rest) :
    Consistent (completeFiles t attempt rest s) := by
  induction rest generalizing s with
  | nil => exact consistent
  | cons f rest ih =>
    have owned := ahead.owned f List.mem_cons_self
    exact ih (consistent_completeFile consistent owned _) (ahead.completeFile _)

theorem consistent_placeFiles {t : TransferRef} {tr : Transfer} {attempt : FileRef → Attempt}
    {renamed : Bool} {rest : List FileRef} (consistent : Consistent s) (ahead : Ahead s t rest)
    (persistent : givesUp tr attempt renamed rest = false) :
    Consistent (placeFiles t tr attempt renamed rest s) := by
  induction rest generalizing s renamed with
  | nil => exact consistent
  | cons f rest ih =>
    have owned := ahead.owned f List.mem_cons_self
    rw [givesUp] at persistent
    rw [placeFiles]
    split at persistent
    · rename_i success
      rw [if_pos success]
      exact ih (consistent_completeFile consistent owned _) (ahead.completeFile _) persistent
    · rename_i failure
      rw [Bool.or_eq_false_iff, Bool.not_eq_false'] at persistent
      rw [if_neg failure, if_pos persistent.1]
      exact ih consistent ahead.tail persistent.2

/-- The files of a download that are still to be placed after the loop of `complete`. -/
def remaining (tr : Transfer) (attempt : FileRef → Attempt) : Bool → List FileRef → List FileRef
  | _, [] => []
  | renamed, f :: rest =>
    let a := attempt f
    if succeeds a renamed then remaining tr attempt (renamed || a.rename = .done) rest
    else if stays tr a renamed then f :: remaining tr attempt renamed rest
    else remaining tr attempt renamed rest

/-- A file leaves the list in which the loop has come to it. -/
theorem members_erase_here {t : TransferRef} (placed : s.links.Placed t) {f : FileRef}
    {kept rest : List FileRef} (listed : s.filesOf t = kept ++ f :: rest)
    (once : (kept ++ f :: rest).Nodup) : (s.links.erase t f).members t = kept ++ rest := by
  have here : s.links.members t = kept ++ f :: rest := listed
  have others : ∀ g ∈ kept ++ rest, decide (g ≠ f) = true := by
    intro g mem
    have apart := (List.nodup_middle.mp once).notMem
    exact decide_eq_true (ne_of_mem_of_not_mem mem apart)
  rw [placed.members_erase (by rw [here]; simp), here, List.filter_append, List.filter_cons,
    if_neg (by simp), ← List.filter_append, List.filter_eq_self.mpr others]

theorem filesOf_placeFiles {t : TransferRef} {tr : Transfer} {attempt : FileRef → Attempt}
    {renamed : Bool} {kept rest : List FileRef} (placed : s.links.Placed t)
    (listed : s.filesOf t = kept ++ rest) (once : (kept ++ rest).Nodup) :
    (placeFiles t tr attempt renamed rest s).filesOf t =
      kept ++ remaining tr attempt renamed rest := by
  induction rest generalizing s renamed kept with
  | nil => exact listed
  | cons f rest ih =>
    have left := members_erase_here placed listed once
    have fewer : (kept ++ rest).Nodup := (List.nodup_cons.mp (List.nodup_middle.mp once)).2
    have erased := placed.erase f
    rw [placeFiles, remaining]
    split
    · exact ih ⟨erased.distinct, erased.position⟩ left fewer
    · split
      · have next : (placeFiles t tr attempt renamed rest s).filesOf t =
            (kept ++ [f]) ++ remaining tr attempt renamed rest :=
          ih placed (by simpa using listed) (by simpa using once)
        simpa using next
      · exact ih erased left fewer

/-- A live file points to a transfer that it is not a file of. -/
structure Stranded (s : Client) (f : FileRef) (t : TransferRef) : Prop where
  file : (s.files f).isSome
  owned : s.links.owner f = some t
  absent : f ∉ s.filesOf t

theorem Stranded.not_agree {f : FileRef} {t : TransferRef} (stranded : Stranded s f t) :
    ¬Agree s := by
  intro agree
  have live := agree.live f t stranded.file stranded.owned
  exact stranded.absent ((agree.mem_iff f t stranded.file live).mp stranded.owned)

/-- Nothing that happens to other files helps a stranded one. -/
theorem Stranded.completeFile {f g : FileRef} {t : TransferRef} (stranded : Stranded s f t)
    (apart : f ≠ g) (destructs : Bool) : Stranded (s.completeFile t g destructs) f t where
  file := by
    cases destructs with
    | false => exact stranded.file
    | true => simpa [Client.completeFile, apart] using stranded.file
  owned := by
    rw [completeFile_owner apart]
    exact stranded.owned
  absent mem := stranded.absent (((Links.erase_sublist t t g).map _).subset mem)

theorem Stranded.dropFile {f g : FileRef} {t : TransferRef} (stranded : Stranded s f t) :
    Stranded (s.dropFile t g) f t where
  file := stranded.file
  owned := stranded.owned
  absent mem := stranded.absent (((Links.erase_sublist t t g).map _).subset mem)

theorem Stranded.placeFiles {f : FileRef} {t : TransferRef} {tr : Transfer}
    {attempt : FileRef → Attempt} {renamed : Bool} {rest : List FileRef}
    (stranded : Stranded s f t) (passed : f ∉ rest) :
    Stranded (placeFiles t tr attempt renamed rest s) f t := by
  induction rest generalizing s renamed with
  | nil => exact stranded
  | cons g rest ih =>
    rw [List.mem_cons, not_or] at passed
    rw [Client.placeFiles]
    split
    · exact ih (stranded.completeFile passed.1 _) passed.2
    split
    · exact ih stranded passed.2
    · exact ih stranded.dropFile passed.2

theorem stranded_placeFiles {t : TransferRef} {tr : Transfer} {attempt : FileRef → Attempt}
    {renamed : Bool} {rest : List FileRef} (consistent : Consistent s) (ahead : Ahead s t rest)
    (gives : givesUp tr attempt renamed rest = true) :
    ∃ f, Stranded (placeFiles t tr attempt renamed rest s) f t := by
  induction rest generalizing s renamed with
  | nil => cases gives
  | cons f rest ih =>
    have owned := ahead.owned f List.mem_cons_self
    rw [givesUp] at gives
    rw [placeFiles]
    split at gives
    · rename_i success
      rw [if_pos success]
      exact ih (consistent_completeFile consistent owned _) (ahead.completeFile _) gives
    · rename_i failure
      rw [if_neg failure]
      split
      · rename_i again
        refine ih consistent ahead.tail ?_
        simpa [again] using gives
      · have dropped : Stranded (s.dropFile t f) f t :=
          { file := (consistent.live f t owned).1
            owned := owned
            absent := fun mem => ((consistent.linked.mem_erase owned f).mp mem).2 rfl }
        exact ⟨f, dropped.placeFiles (List.nodup_cons.mp ahead.unique).1⟩

/-- The transfer is deleted, or it stays: the stranded file does not come back. -/
theorem Stranded.shutIfEmpty {f : FileRef} {t : TransferRef} (stranded : Stranded s f t) :
    Stranded (s.shutIfEmpty t) f t := by
  rw [Client.shutIfEmpty]
  split
  · have absent := stranded.absent
    rw [filesOf] at absent
    refine ⟨stranded.file, ?_, ?_⟩
    · simp [deleteTransfer, Links.release, absent, stranded.owned]
    · simp [deleteTransfer, Links.release, filesOf, Links.members]
  · exact stranded

end Client

open Client

theorem consistent_step {s : Client} (consistent : Consistent s) (e : Event)
    (persistent : Persistent s e) : Consistent (step s e) := by
  cases e with
  | newFile file =>
    have added := consistent_setFile consistent s.nextFile file
    exact ⟨added.linked, added.live, added.pending⟩
  | startxfer d f generated => exact consistent_startxfer consistent d f generated
  | stopxfer f => exact consistent_stopxfer consistent f
  | failed t e answer => exact consistent_failed consistent t e answer
  | complete t call =>
    change Consistent (s.complete t call)
    have ahead := ahead_filesOf consistent t
    rw [Client.complete]
    split
    · exact consistent
    rename_i tr known
    split
    · rename_i type
      split
      · exact consistent_failed consistent t _ _
      · rename_i verified
        have kept := persistent tr known type (Bool.eq_false_of_not_eq_true verified)
        exact consistent_shutIfEmpty (consistent_placeFiles consistent ahead kept) t
    · split
      · exact consistent_failed consistent t _ _
      · exact consistent_shutIfEmpty (consistent_completeFiles _ consistent ahead) t
  | deleteFile f => exact consistent_deleteFile consistent f
  | deleteTransfer t => exact consistent_deleteTransfer consistent t

/-- A completion that gives a file up breaks the agreement. -/
theorem persistent_of_agree {s : Client} (consistent : Consistent s) (e : Event)
    (agree : Agree (step s e)) : Persistent s e := by
  cases e with
  | complete t call =>
    intro tr known type mismatch
    by_contra gives
    rw [Bool.not_eq_false] at gives
    obtain ⟨f, stranded⟩ :=
      stranded_placeFiles consistent (ahead_filesOf consistent t) gives
    have result : step s (.complete t call) =
        (placeFiles t tr call.attempt false (s.filesOf t) s).shutIfEmpty t := by
      change s.complete t call = _
      simp only [Client.complete, known, type, mismatch, Bool.false_eq_true, if_false]
    rw [result] at agree
    exact stranded.shutIfEmpty.not_agree agree
  | newFile file => trivial
  | startxfer d f generated => trivial
  | stopxfer f => trivial
  | failed t e answer => trivial
  | deleteFile f => trivial
  | deleteTransfer t => trivial

/-- Files and transfers agree in every state of a run exactly if no completion of a download in it
gives a file up. -/
theorem always_agree_iff (events : List Event) :
    Always step Agree Client.start events ↔ Meets step Persistent Client.start events := by
  refine always_iff_meets_of ?_ ?_ ?_ consistent_start events
  · intro s consistent
    exact consistent.agree
  · intro s e consistent persistent
    exact consistent_step consistent e persistent
  · intro s e consistent agree
    exact persistent_of_agree consistent e agree

/-- A download that has failed 16 times and can then be placed nowhere. -/
def exhausted : List Event :=
  let file : File := ⟨⟨5, 0, Vector.replicate 4 0, true⟩, Vector.replicate 4 0⟩
  let attempt : Attempt := ⟨.permanent, .permanent, none, false⟩
  [.newFile file, .startxfer .get 0 none] ++
    List.replicate 16 (.failed 0 .again fun _ => none) ++
    [.complete 0 ⟨false, fun _ => none, fun _ => attempt⟩]

/-- The file still points to the transfer that has been deleted. -/
theorem exhausted_stranded : ¬Always step Agree Client.start exhausted := by
  intro always
  have file : ((run step Client.start exhausted).files 0).isSome := by decide
  have owned : (run step Client.start exhausted).links.owner 0 = some 0 := by decide
  have deleted : (run step Client.start exhausted).transfers 0 = none := by rfl
  have live := always.at_end.live 0 0 file owned
  rw [deleted] at live
  cases live

end MegaSdk.Xfer.Files
