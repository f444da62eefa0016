import MegaSdk.Xfer.Files
import MegaSdk.Nodes.Fingerprint
import MegaSdk.Lib.OrderedPointers
import MegaSdk.Lib.Runs

/-!
# The transfer queue as an ordered map

`MegaClient::transfers[d]` is ordered by fingerprints that lie in the transfers themselves.
`dispatch` and the completion of an upload rewrite the fingerprint of a transfer that is in the
map, so that the map stays in order only if the new key fits between the neighbours; and a file
is matched with the rewritten key, not with the one under which earlier files were queued.
-/

namespace MegaSdk.Xfer.Queue

open Runs OrderedPointers

abbrev FileRef := Files.FileRef
abbrev TransferRef := Files.TransferRef

/-- A file with its pointer, and with what `dispatch` reads of it. -/
structure File extends Files.File where
  hprivate : Bool
  transfer : Option TransferRef

/-- A transfer with its list. `located` says whether its `localfilename` is set. -/
structure Transfer extends Files.Transfer where
  files : List FileRef
  slot : Bool
  located : Bool

/-- The live files and transfers, and `transfers[d]` from its first entry to its last. -/
structure Client where
  files : FileRef → Option File
  transfers : TransferRef → Option Transfer
  queue : Direction → List TransferRef
  nextFile : FileRef
  nextTransfer : TransferRef

namespace Client

def start : Client := ⟨fun _ => none, fun _ => none, fun _ => [], 0, 0⟩

variable (s : Client)

/-- The key of an entry, which is part of the transfer. -/
def keyOf (t : TransferRef) : ℤ ×ₗ ℤ ×ₗ List ℕ :=
  ((s.transfers t).map fun tr => tr.fingerprint.key).getD (toLex (0, toLex (0, [])))

/-- `transfers[d].find(f)`. -/
def find (d : Direction) (f : FileFingerprint) : Option TransferRef :=
  OrderedPointers.find s.keyOf f.key (s.queue d)

def setFile (f : FileRef) (file : File) : Client :=
  { s with files := Function.update s.files f (some file) }

def setTransfer (t : TransferRef) (tr : Transfer) : Client :=
  { s with transfers := Function.update s.transfers t (some tr) }

/-- `File::transfer = NULL` for all files of a list. -/
def detach (fs : List FileRef) : Client :=
  { s with files := fun f =>
      (s.files f).map fun file => if f ∈ fs then { file with transfer := none } else file }

/-- `~Transfer`. -/
def deleteTransfer (t : TransferRef) : Client :=
  match s.transfers t with
  | none => s
  | some tr =>
    { s.detach tr.files with
      transfers := Function.update s.transfers t none
      queue := Function.update s.queue tr.type ((s.queue tr.type).filter (· ≠ t)) }

/-- The fingerprint under which a file is looked up; `fa` is the local file, if it can be opened. -/
def prepared (d : Direction) (fa : Option FileFingerprint.Source) (file : File) : FileFingerprint :=
  file.toFile.prepared d (fa.map fun fa => (file.fingerprint.genfingerprint fa false).1)

def addTransfer (d : Direction) (f : FileRef) (key : FileFingerprint) : Client :=
  let added := s.setTransfer s.nextTransfer ⟨⟨d, key, 0⟩, [f], false, false⟩
  { added with
    queue := Function.update s.queue d
      (OrderedPointers.insert added.keyOf s.nextTransfer (s.queue d))
    nextTransfer := s.nextTransfer + 1 }

def startxfer (d : Direction) (f : FileRef) (fa : Option FileFingerprint.Source) : Client :=
  match s.files f with
  | none => s
  | some file =>
    if file.transfer.isSome then s
    else
      let key := prepared d fa file
      let unlinked := s.setFile f { file with fingerprint := key }
      if d = .put ∧ key.isvalid = false then unlinked
      else
        match s.find d key with
        | some t =>
          match s.transfers t with
          | none => unlinked
          | some tr =>
            (s.setTransfer t { tr with files := f :: tr.files }).setFile f
              { file with fingerprint := key, transfer := some t }
        | none =>
          (s.addTransfer d f key).setFile f
            { file with fingerprint := key, transfer := some s.nextTransfer }

/-- `stopxfer`: the last file takes its transfer with it. -/
def stopxfer (f : FileRef) : Client :=
  match s.files f with
  | none => s
  | some file =>
    match file.transfer with
    | none => s
    | some t =>
      let left := match s.transfers t with
        | none => s
        | some tr =>
          let tr := { tr with files := tr.files.filter (· ≠ f) }
          if tr.files = [] then (s.setTransfer t tr).deleteTransfer t else s.setTransfer t tr
      left.setFile f { file with transfer := none }

/-- `~File`. -/
def deleteFile (f : FileRef) : Client :=
  { s.stopxfer f with files := Function.update (s.stopxfer f).files f none }

/-- Some file wants the transfer to be tried again. -/
def deferred (tr : Transfer) (e : ApiError) (answer : FileRef → Option Bool) : Bool :=
  tr.files.any fun f => tr.wantsRetry e (answer f)

/-- `Transfer::failed` of a transfer that is now `tr`. -/
def failedAs (t : TransferRef) (tr : Transfer) (e : ApiError) (answer : FileRef → Option Bool) :
    Client :=
  if deferred tr e answer then
    s.setTransfer t { tr with failcount := tr.failcount + 1, slot := false }
  else (s.setTransfer t tr).deleteTransfer t

def failed (t : TransferRef) (e : ApiError) (answer : FileRef → Option Bool) : Client :=
  match s.transfers t with
  | none => s
  | some tr => s.failedAs t tr e answer

/-- The size of the first file of a download that a key is found for: `sizes` are those of the
file nodes that the handles of private files lead to. -/
def templateSize (sizes : FileRef → Option Int) : List FileRef → Option Int
  | [] => none
  | f :: rest =>
    match s.files f with
    | none => templateSize sizes rest
    | some file =>
      if file.hprivate then (sizes f).or (templateSize sizes rest)
      else some file.fingerprint.size

/-- What `dispatch` meets: the sizes of file nodes, whether a local file name is provided, the
size of the local file if it can be opened, and what the files say to a failure. -/
structure Attempt where
  sizes : FileRef → Option Int
  path : Bool
  opened : Option Int
  answer : FileRef → Option Bool

/-- The transfer once `dispatch` has set up its keys; `none` if no key is found. -/
def setup (tr : Transfer) (a : Attempt) : Option Transfer :=
  if tr.located then some tr
  else
    match tr.type with
    | .put => some { tr with located := a.path }
    | .get => (s.templateSize a.sizes tr.files).map fun size =>
        { tr with fingerprint := { tr.fingerprint with size := size }, located := a.path }

/-- The transfer with its slot, if the local file can be opened; the size of an upload is that of
the file. -/
def opened (tr : Transfer) (a : Attempt) : Option Transfer :=
  if tr.located then
    a.opened.map fun size =>
      match tr.type with
      | .put => { tr with fingerprint := { tr.fingerprint with size := size }, slot := true }
      | .get => { tr with slot := true }
  else none

/-- The part of `dispatch` about the transfer that it picks. -/
def dispatch (t : TransferRef) (a : Attempt) : Client :=
  match s.transfers t with
  | none => s
  | some tr =>
    if tr.slot then s
    else
      match s.setup tr a with
      | none => s
      | some tr =>
        match opened tr a with
        | some tr => s.setTransfer t tr
        | none => s.failedAs t tr .read a.answer

/-- What becomes of a file when a transfer completes: it is completed (and may delete itself), it
waits for another try, or it is given up with its pointer left as it is. -/
inductive Outcome where
  | completed (destructs : Bool)
  | waits
  | dropped
  deriving DecidableEq

/-- A call of `complete`: the local file of an upload, whether a download is found to be corrupt,
what the files say to a failure, and what becomes of them otherwise. -/
structure Call where
  fa : FileFingerprint.Source
  mismatch : Bool
  answer : FileRef → Option Bool
  outcome : FileRef → Outcome

/-- The files after `complete` has gone through the list. -/
def settleFiles (fs : List FileRef) (outcome : FileRef → Outcome) : Client :=
  { s with files := fun f =>
      (s.files f).bind fun file =>
        if f ∈ fs then
          match outcome f with
          | .completed destructs => if destructs then none else some { file with transfer := none }
          | .waits => some file
          | .dropped => some file
        else some file }

def uploaded (outcome : FileRef → Outcome) (f : FileRef) : Outcome :=
  match outcome f with
  | .completed destructs => .completed destructs
  | _ => .completed false

def complete (t : TransferRef) (call : Call) : Client :=
  match s.transfers t with
  | none => s
  | some tr =>
    if tr.slot = false then s
    else
      match tr.type with
      | .get =>
        if call.mismatch then s.failedAs t tr .write call.answer
        else
          let tr' := { tr with files := tr.files.filter fun f => call.outcome f = .waits }
          let settled := (s.settleFiles tr.files call.outcome).setTransfer t tr'
          if tr'.files = [] then settled.deleteTransfer t else settled
      | .put =>
        let gen := tr.fingerprint.genfingerprint call.fa true
        let tr := { tr with fingerprint := gen.1 }
        if gen.2 then s.failedAs t tr .read call.answer
        else
          ((s.settleFiles tr.files (uploaded call.outcome)).setTransfer t
            { tr with files := [] }).deleteTransfer t

end Client

inductive Event where
  | newFile (fingerprint : FileFingerprint) (filekey : Vector UInt32 4) (hprivate : Bool)
  | deleteFile (f : FileRef)
  | startxfer (d : Direction) (f : FileRef) (fa : Option FileFingerprint.Source)
  | stopxfer (f : FileRef)
  | dispatch (t : TransferRef) (a : Client.Attempt)
  | failed (t : TransferRef) (e : ApiError) (answer : FileRef → Option Bool)
  | complete (t : TransferRef) (call : Client.Call)

def step (s : Client) : Event → Client
  | .newFile fingerprint filekey hprivate =>
    { s.setFile s.nextFile ⟨⟨fingerprint, filekey⟩, hprivate, none⟩ with nextFile := s.nextFile + 1 }
  | .deleteFile f => s.deleteFile f
  | .startxfer d f fa => s.startxfer d f fa
  | .stopxfer f => s.stopxfer f
  | .dispatch t a => s.dispatch t a
  | .failed t e answer => s.failed t e answer
  | .complete t call => s.complete t call

/-- A live file with this key points to a transfer in the queue. -/
def Queued (s : Client) (d : Direction) (f : FileRef) (key : ℤ ×ₗ ℤ ×ₗ List ℕ) (t : TransferRef) :
    Prop :=
  t ∈ s.queue d ∧
    ∃ file, s.files f = some file ∧ file.transfer = some t ∧ file.fingerprint.key = key

/-- The fingerprint of the first transfer is less than that of the second. -/
def Precedes (s : Client) (t u : TransferRef) : Prop :=
  ∀ tr ur, s.transfers t = some tr → s.transfers u = some ur →
    tr.fingerprint.cmp ur.fingerprint = true

/-- Both queues are maps: their keys ascend, each entry is found under its own key, the entries
are the live transfers, each of them once, and files with equal fingerprints share a transfer. -/
structure Mapped (s : Client) : Prop where
  ascending : ∀ d, (s.queue d).Pairwise (Precedes s)
  found : ∀ d t tr, t ∈ s.queue d → s.transfers t = some tr → s.find d tr.fingerprint = some t
  entries : ∀ d t, t ∈ s.queue d ↔ ∃ tr, s.transfers t = some tr ∧ tr.type = d
  shared : ∀ d f g key t u, Queued s d f key t → Queued s d g key u → t = u

/-- A new key of a transfer compares with the other keys of its queue as the old one does. -/
def Fits (s : Client) (t : TransferRef) (tr : Transfer) (key : ℤ ×ₗ ℤ ×ₗ List ℕ) : Prop :=
  ∀ u ∈ s.queue tr.type,
    (s.keyOf u < s.keyOf t → s.keyOf u < key) ∧ (s.keyOf t < s.keyOf u → key < s.keyOf u)

/-- The steps that keep the queues maps: a transfer that stays in its queue with another
fingerprint fits where it is, and no file is queued with the fingerprint of a file on a transfer
that has another one by now. -/
def KeepsOrder (s : Client) : Event → Prop
  | .startxfer d f fa => ∀ file, s.files f = some file → file.transfer = none →
      ¬(d = .put ∧ (Client.prepared d fa file).isvalid = false) →
      ∀ g t, Queued s d g (Client.prepared d fa file).key t →
        s.keyOf t = (Client.prepared d fa file).key
  | .dispatch t a => ∀ tr, s.transfers t = some tr → tr.slot = false →
      ∀ tr', s.setup tr a = some tr' →
        match Client.opened tr' a with
        | some opened => Fits s t tr opened.fingerprint.key
        | none => Client.deferred tr' .read a.answer → Fits s t tr tr'.fingerprint.key
  | .complete t call => ∀ tr, s.transfers t = some tr → tr.slot = true → tr.type = .put →
      (tr.fingerprint.genfingerprint call.fa true).2 →
      Client.deferred tr .read call.answer →
        Fits s t tr (tr.fingerprint.genfingerprint call.fa true).1.key
  | _ => True

structure Core (s : Client) : Prop where
  ascending : ∀ d, Ascending s.keyOf (s.queue d)
  entries : ∀ d t, t ∈ s.queue d ↔ ∃ tr, s.transfers t = some tr ∧ tr.type = d
  shared : ∀ d f g key t u, Queued s d f key t → Queued s d g key u → t = u

structure Bounded (s : Client) : Prop where
  transfers : ∀ t tr, s.transfers t = some tr → t < s.nextTransfer
  pointers : ∀ f file t, s.files f = some file → file.transfer = some t → t < s.nextTransfer

section Frames

variable {s : Client} {t : TransferRef} {tr : Transfer}

theorem transfers_setTransfer (s : Client) (t : TransferRef) (tr : Transfer) :
    (s.setTransfer t tr).transfers = Function.update s.transfers t (some tr) := rfl

theorem files_setFile (s : Client) (f : FileRef) (file : File) :
    (s.setFile f file).files = Function.update s.files f (some file) := rfl

theorem keyOf_of_live (live : s.transfers t = some tr) : s.keyOf t = tr.fingerprint.key := by
  rw [Client.keyOf, live]
  rfl

theorem keyOf_setTransfer (s : Client) (t : TransferRef) (tr : Transfer) :
    (s.setTransfer t tr).keyOf = Function.update s.keyOf t tr.fingerprint.key := by
  funext u
  by_cases same : u = t
  · subst same
    simp [Client.keyOf, Client.setTransfer]
  · simp [Client.keyOf, Client.setTransfer, same]

theorem precedes_iff {u : TransferRef} {ur : Transfer} (first : s.transfers t = some tr)
    (second : s.transfers u = some ur) : Precedes s t u ↔ s.keyOf t < s.keyOf u := by
  rw [keyOf_of_live first, keyOf_of_live second, ← FileFingerprint.cmp_iff_key_lt]
  constructor
  · exact fun precedes => precedes tr ur first second
  · intro less tr' ur' first' second'
    obtain rfl := Option.some.inj (first.symm.trans first')
    obtain rfl := Option.some.inj (second.symm.trans second')
    exact less

/-- On live transfers the order of the keys is that of `FileFingerprintCmp`. -/
theorem ascending_iff {d : Direction}
    (entries : ∀ t, t ∈ s.queue d ↔ ∃ tr, s.transfers t = some tr ∧ tr.type = d) :
    Ascending s.keyOf (s.queue d) ↔ (s.queue d).Pairwise (Precedes s) := by
  have same : ∀ t ∈ s.queue d, ∀ u ∈ s.queue d, (Precedes s t u ↔ s.keyOf t < s.keyOf u) := by
    intro t first u second
    obtain ⟨tr, live, -⟩ := (entries t).mp first
    obtain ⟨ur, live', -⟩ := (entries u).mp second
    exact precedes_iff live live'
  constructor
  · exact List.Pairwise.imp_of_mem fun {a b} first second => (same a first b second).mpr
  · exact List.Pairwise.imp_of_mem fun {a b} first second => (same a first b second).mp

theorem Core.mapped (core : Core s) : Mapped s where
  ascending d := (ascending_iff (core.entries d)).mp (core.ascending d)
  found d t tr mem live := by
    have self := (core.ascending d).find_self mem
    rwa [keyOf_of_live live] at self
  entries := core.entries
  shared := core.shared

theorem Mapped.core (mapped : Mapped s) : Core s where
  ascending d := (ascending_iff (mapped.entries d)).mpr (mapped.ascending d)
  entries := mapped.entries
  shared := mapped.shared

/-- The order of a list depends on the keys of its elements only. -/
theorem ascending_congr {key key' : TransferRef → ℤ ×ₗ ℤ ×ₗ List ℕ} {order : List TransferRef}
    (same : ∀ u ∈ order, key' u = key u) : Ascending key' order ↔ Ascending key order := by
  constructor
  · intro ascending
    refine List.Pairwise.imp_of_mem (fun {a b} ha hb less => ?_) ascending
    rwa [same a ha, same b hb] at less
  · intro ascending
    refine List.Pairwise.imp_of_mem (fun {a b} ha hb less => ?_) ascending
    rwa [same a ha, same b hb]

/-- A transfer in the map is changed: the map stays one exactly if its key still fits. -/
theorem core_setTransfer (core : Core s) (live : s.transfers t = some tr) (tr' : Transfer)
    (type : tr'.type = tr.type) :
    Core (s.setTransfer t tr') ↔ Fits s t tr tr'.fingerprint.key := by
  have mem : t ∈ s.queue tr.type := (core.entries _ _).mpr ⟨tr, live, rfl⟩
  have order : Ascending (s.setTransfer t tr').keyOf (s.queue tr.type) ↔
      Fits s t tr tr'.fingerprint.key := by
    rw [keyOf_setTransfer, (core.ascending tr.type).rekey mem, Fits]
  constructor
  · exact fun after => order.mp (after.ascending tr.type)
  · intro fits
    refine ⟨fun d => ?_, fun d u => ?_, ?_⟩
    · by_cases same : d = tr.type
      · subst same
        exact order.mpr fits
      · refine (ascending_congr fun u there => ?_).mpr (core.ascending d)
        rw [keyOf_setTransfer]
        refine Function.update_of_ne ?_ _ _
        rintro rfl
        obtain ⟨ur, live', type'⟩ := (core.entries _ _).mp there
        obtain rfl := Option.some.inj (live.symm.trans live')
        exact same type'.symm
    · rw [Client.setTransfer]
      refine (core.entries d u).trans ?_
      by_cases same : u = t
      · subst same
        simp [live, type]
      · simp [same]
    · exact core.shared

/-- The key of a transfer fits where it is. -/
theorem fits_self (live : s.transfers t = some tr) : Fits s t tr tr.fingerprint.key := by
  intro u _
  rw [← keyOf_of_live live]
  exact ⟨id, id⟩

/-- A transfer that keeps its key stays where it is. -/
theorem core_kept (core : Core s) (live : s.transfers t = some tr) {tr' : Transfer}
    (type : tr'.type = tr.type) (fingerprint : tr'.fingerprint = tr.fingerprint) :
    Core (s.setTransfer t tr') := by
  rw [core_setTransfer core live tr' type, fingerprint]
  exact fits_self live

/-- Files that lose their pointers, and files without one, do not matter. -/
theorem core_files (core : Core s) {files : FileRef → Option File} {next : FileRef}
    (fewer : ∀ f file, files f = some file → file.transfer = none ∨ s.files f = some file) :
    Core { s with files := files, nextFile := next } := by
  have back : ∀ {d f key t}, Queued { s with files := files, nextFile := next } d f key t →
      Queued s d f key t := by
    rintro d f key t ⟨mem, file, there, points, same⟩
    rcases fewer f file there with none | old
    · rw [points] at none
      cases none
    · exact ⟨mem, file, old, points, same⟩
  exact ⟨core.ascending, core.entries,
    fun d f g key t u first second => core.shared d f g key t u (back first) (back second)⟩

theorem bounded_files (bounded : Bounded s) {files : FileRef → Option File} {next : FileRef}
    (fewer : ∀ f file, files f = some file → file.transfer = none ∨ s.files f = some file) :
    Bounded { s with files := files, nextFile := next } := by
  refine ⟨bounded.transfers, fun f file t there points => ?_⟩
  rcases fewer f file there with none | old
  · rw [points] at none
    cases none
  · exact bounded.pointers f file t old points

theorem bounded_setTransfer (bounded : Bounded s) (live : s.transfers t = some tr)
    (tr' : Transfer) : Bounded (s.setTransfer t tr') := by
  refine ⟨fun u ur there => ?_, bounded.pointers⟩
  by_cases same : u = t
  · subst same
    exact bounded.transfers u tr live
  · rw [transfers_setTransfer, Function.update_of_ne same] at there
    exact bounded.transfers u ur there

/-- The maps without the entry of a transfer. -/
theorem core_drop (core : Core s) (live : s.transfers t = some tr) :
    Core { s with
      transfers := Function.update s.transfers t none
      queue := Function.update s.queue tr.type ((s.queue tr.type).filter (· ≠ t)) } := by
  have elsewhere : ∀ d, d ≠ tr.type → t ∉ s.queue d := by
    intro d other there
    obtain ⟨ur, live', rfl⟩ := (core.entries d t).mp there
    obtain rfl := Option.some.inj (live.symm.trans live')
    exact other rfl
  have less : ∀ d, Function.update s.queue tr.type ((s.queue tr.type).filter (· ≠ t)) d =
      (s.queue d).filter (· ≠ t) := by
    intro d
    by_cases same : d = tr.type
    · rw [same, Function.update_self]
    · rw [Function.update_of_ne same]
      refine (List.filter_eq_self.mpr fun u there => ?_).symm
      refine decide_eq_true ?_
      rintro rfl
      exact elsewhere d same there
  refine ⟨fun d => ?_, fun d u => ?_, ?_⟩
  · dsimp only
    rw [less]
    have kept : Ascending s.keyOf ((s.queue d).filter (· ≠ t)) :=
      List.Pairwise.sublist List.filter_sublist (core.ascending d)
    refine (ascending_congr fun u there => ?_).mpr kept
    have other : u ≠ t := of_decide_eq_true (List.mem_filter.mp there).2
    simp only [Client.keyOf, Function.update_of_ne other]
  · dsimp only
    rw [less, List.mem_filter, core.entries]
    by_cases same : u = t
    · subst same
      simp
    · simp [same]
  · intro d f g key t₁ t₂ first second
    have back : ∀ u, u ∈ Function.update s.queue tr.type
        ((s.queue tr.type).filter (· ≠ t)) d → u ∈ s.queue d := by
      intro u there
      rw [less] at there
      exact (List.mem_filter.mp there).1
    exact core.shared d f g key t₁ t₂ ⟨back t₁ first.1, first.2⟩ ⟨back t₂ second.1, second.2⟩

theorem detach_fewer (s : Client) (fs : List FileRef) (f : FileRef) (file : File)
    (there : (s.detach fs).files f = some file) :
    file.transfer = none ∨ s.files f = some file := by
  obtain ⟨old, live, rfl⟩ := Option.map_eq_some_iff.mp there
  split_ifs
  · exact Or.inl rfl
  · exact Or.inr live

theorem deleteTransfer_eq (s : Client) (t : TransferRef) (tr : Transfer) :
    (s.setTransfer t tr).deleteTransfer t =
      { s with
        files := (s.detach tr.files).files
        transfers := Function.update s.transfers t none
        queue := Function.update s.queue tr.type ((s.queue tr.type).filter (· ≠ t)) } := by
  rw [Client.deleteTransfer, transfers_setTransfer, Function.update_self]
  dsimp only
  rw [Function.update_idem]
  rfl

/-- A deleted transfer takes its own entry along, whatever its key has become. -/
theorem core_delete (core : Core s) (live : s.transfers t = some tr) {tr' : Transfer}
    (type : tr'.type = tr.type) : Core ((s.setTransfer t tr').deleteTransfer t) := by
  rw [deleteTransfer_eq, type]
  exact core_files (core_drop core live) (detach_fewer s tr'.files)

theorem bounded_delete (bounded : Bounded s) (tr' : Transfer) :
    Bounded ((s.setTransfer t tr').deleteTransfer t) := by
  have files : Bounded { s with files := (s.detach tr'.files).files } :=
    bounded_files bounded (detach_fewer s tr'.files)
  rw [deleteTransfer_eq]
  refine ⟨fun u ur there => ?_, files.pointers⟩
  dsimp only at there
  by_cases same : u = t
  · rw [same, Function.update_self] at there
    cases there
  · rw [Function.update_of_ne same] at there
    exact bounded.transfers u ur there

/-- After a failure the transfer is gone, or stays where it is with the key that it has by then. -/
theorem core_failedAs (core : Core s) (live : s.transfers t = some tr) {tr' : Transfer}
    (type : tr'.type = tr.type) (e : ApiError) (answer : FileRef → Option Bool) :
    Core (s.failedAs t tr' e answer) ↔
      (Client.deferred tr' e answer → Fits s t tr tr'.fingerprint.key) := by
  rw [Client.failedAs]
  by_cases again : Client.deferred tr' e answer
  · rw [if_pos again]
    refine (core_setTransfer core live { tr' with failcount := tr'.failcount + 1, slot := false }
      type).trans ?_
    simp [again]
  · rw [if_neg again]
    exact ⟨fun _ wanted => absurd wanted again, fun _ => core_delete core live type⟩

theorem bounded_failedAs (bounded : Bounded s) (live : s.transfers t = some tr) (tr' : Transfer)
    (e : ApiError) (answer : FileRef → Option Bool) : Bounded (s.failedAs t tr' e answer) := by
  rw [Client.failedAs]
  split
  · exact bounded_setTransfer bounded live _
  · exact bounded_delete bounded _

end Frames

section Steps

variable {s : Client}

theorem update_fewer {f : FileRef} {file : Option File}
    (pointless : ∀ new, file = some new → new.transfer = none) (g : FileRef) (other : File)
    (there : Function.update s.files f file g = some other) :
    other.transfer = none ∨ s.files g = some other := by
  by_cases same : g = f
  · rw [same, Function.update_self] at there
    exact Or.inl (pointless other there)
  · rw [Function.update_of_ne same] at there
    exact Or.inr there

theorem stopxfer_keeps (core : Core s) (bounded : Bounded s) (f : FileRef) :
    Core (s.stopxfer f) ∧ Bounded (s.stopxfer f) := by
  rw [Client.stopxfer]
  split
  · exact ⟨core, bounded⟩
  · rename_i file live
    split
    · exact ⟨core, bounded⟩
    · rename_i t points
      have unpoint : ∀ new : File, some { file with transfer := none } = some new →
          new.transfer = none := by
        rintro new same
        rw [← Option.some.inj same]
      suffices left : ∀ u : Client, Core u ∧ Bounded u →
          Core (u.setFile f { file with transfer := none }) ∧
            Bounded (u.setFile f { file with transfer := none }) by
        apply left
        split
        · exact ⟨core, bounded⟩
        · rename_i tr transfer
          dsimp only
          split
          · exact ⟨core_delete core transfer rfl, bounded_delete bounded _⟩
          · refine ⟨core_kept core transfer ?_ ?_, bounded_setTransfer bounded transfer _⟩
            all_goals rfl
      rintro u ⟨core, bounded⟩
      exact ⟨core_files core (update_fewer unpoint), bounded_files bounded (update_fewer unpoint)⟩

theorem deleteFile_keeps (core : Core s) (bounded : Bounded s) (f : FileRef) :
    Core (s.deleteFile f) ∧ Bounded (s.deleteFile f) := by
  obtain ⟨core, bounded⟩ := stopxfer_keeps core bounded f
  have gone : ∀ new : File, none = some new → new.transfer = none := by
    intro new none
    cases none
  exact ⟨core_files core (update_fewer gone), bounded_files bounded (update_fewer gone)⟩

theorem setup_type {tr tr' : Transfer} {a : Client.Attempt} (keyed : s.setup tr a = some tr') :
    tr'.type = tr.type := by
  rw [Client.setup] at keyed
  split at keyed
  · rw [Option.some.inj keyed]
  · split at keyed
    · rw [← Option.some.inj keyed]
    · obtain ⟨size, -, rfl⟩ := Option.map_eq_some_iff.mp keyed
      rfl

theorem opened_type {tr opened : Transfer} {a : Client.Attempt}
    (opens : Client.opened tr a = some opened) : opened.type = tr.type := by
  rw [Client.opened] at opens
  split at opens
  · obtain ⟨size, -, rfl⟩ := Option.map_eq_some_iff.mp opens
    split <;> rfl
  · cases opens

theorem dispatch_exact (core : Core s) (bounded : Bounded s) (t : TransferRef)
    (a : Client.Attempt) :
    (Core (s.dispatch t a) ↔ KeepsOrder s (.dispatch t a)) ∧ Bounded (s.dispatch t a) := by
  rw [KeepsOrder, Client.dispatch]
  cases live : s.transfers t with
  | none => simp [core, bounded]
  | some tr =>
    simp only [Option.some.injEq, forall_eq']
    cases busy : tr.slot with
    | true => simp [core, bounded]
    | false =>
      cases keyed : s.setup tr a with
      | none => simp [core, bounded]
      | some tr' =>
        have type := setup_type keyed
        simp only [Bool.false_eq_true, if_false, Option.some.injEq, forall_eq', forall_const]
        cases opens : Client.opened tr' a with
        | none => exact ⟨core_failedAs core live type _ _, bounded_failedAs bounded live _ _ _⟩
        | some opened =>
          exact ⟨core_setTransfer core live opened ((opened_type opens).trans type),
            bounded_setTransfer bounded live _⟩

theorem settleFiles_fewer (fs : List FileRef) (outcome : FileRef → Client.Outcome) (f : FileRef)
    (file : File) (there : (s.settleFiles fs outcome).files f = some file) :
    file.transfer = none ∨ s.files f = some file := by
  obtain ⟨old, live, kept⟩ := Option.bind_eq_some_iff.mp there
  split at kept
  · split at kept
    · split at kept
      · cases kept
      · exact Or.inl (by rw [← Option.some.inj kept])
    · exact Or.inr (live.trans kept)
    · exact Or.inr (live.trans kept)
  · exact Or.inr (live.trans kept)

theorem complete_exact (core : Core s) (bounded : Bounded s) (t : TransferRef)
    (call : Client.Call) :
    (Core (s.complete t call) ↔ KeepsOrder s (.complete t call)) ∧ Bounded (s.complete t call) := by
  rw [KeepsOrder, Client.complete]
  cases live : s.transfers t with
  | none => simp [core, bounded]
  | some tr =>
    simp only [Option.some.injEq, forall_eq']
    cases busy : tr.slot with
    | false => simp [core, bounded]
    | true =>
      simp only [Bool.true_eq_false, if_false, forall_const]
      have settled : ∀ outcome, Core (s.settleFiles tr.files outcome) ∧
          Bounded (s.settleFiles tr.files outcome) := fun outcome =>
        ⟨core_files core (settleFiles_fewer _ _), bounded_files bounded (settleFiles_fewer _ _)⟩
      cases type : tr.type with
      | get =>
        simp only [reduceCtorEq, false_implies, iff_true]
        split
        · exact ⟨(core_failedAs core live rfl _ _).mpr fun _ => fits_self live,
            bounded_failedAs bounded live _ _ _⟩
        · obtain ⟨core', bounded'⟩ := settled call.outcome
          have live' : (s.settleFiles tr.files call.outcome).transfers t = some tr := live
          split
          · exact ⟨core_delete core' live' rfl, bounded_delete bounded' _⟩
          · refine ⟨core_kept core' live' ?_ ?_, bounded_setTransfer bounded' live' _⟩
            · rfl
            · rfl
      | put =>
        simp only [forall_const]
        split
        · rename_i changed
          refine ⟨?_, bounded_failedAs bounded live _ _ _⟩
          rw [core_failedAs core live type.symm]
          simp only [changed, forall_const]
          rfl
        · rename_i unchanged
          obtain ⟨core', bounded'⟩ := settled (Client.uploaded call.outcome)
          have live' : (s.settleFiles tr.files (Client.uploaded call.outcome)).transfers t =
            some tr := live
          refine ⟨⟨fun _ changed => absurd changed unchanged, fun _ => ?_⟩,
            bounded_delete bounded' _⟩
          refine core_delete core' live' ?_
          exact type.symm

/-- A file without a transfer is attached to one: then the files with its key must be there. -/
theorem core_attach (core : Core s) {d : Direction} {f : FileRef} {file : File}
    {t : TransferRef} (there : s.files f = some file) (free : file.transfer = none)
    (mem : t ∈ s.queue d) (key : FileFingerprint) :
    Core (s.setFile f { file with fingerprint := key, transfer := some t }) ↔
      ∀ g u, Queued s d g key.key u → u = t := by
  have here : Queued (s.setFile f { file with fingerprint := key, transfer := some t }) d f
      key.key t := ⟨mem, _, Function.update_self .., rfl, rfl⟩
  have others : ∀ {d g k u}, g ≠ f →
      (Queued (s.setFile f { file with fingerprint := key, transfer := some t }) d g k u ↔
        Queued s d g k u) := by
    intro d g k u other
    simp only [Queued, Client.setFile, Function.update_of_ne other]
  constructor
  · intro after g u queued
    have other : g ≠ f := by
      rintro rfl
      obtain ⟨-, file', there', points, -⟩ := queued
      obtain rfl := Option.some.inj (there.symm.trans there')
      rw [free] at points
      cases points
    exact after.shared d g f _ u t ((others other).mpr queued) here
  · intro only
    have self : ∀ {d' k u},
        Queued (s.setFile f { file with fingerprint := key, transfer := some t }) d' f k u →
          u = t ∧ k = key.key ∧ d' = d := by
      rintro d' k u ⟨mem', file', there', points, same⟩
      rw [files_setFile, Function.update_self] at there'
      obtain rfl := Option.some.inj there'
      obtain rfl := Option.some.inj points
      obtain ⟨tr, live, type⟩ := (core.entries d t).mp mem
      obtain ⟨tr', live', type'⟩ := (core.entries d' t).mp mem'
      obtain rfl := Option.some.inj (live.symm.trans live')
      exact ⟨rfl, same.symm, type'.symm.trans type⟩
    refine ⟨core.ascending, core.entries, fun d' g₁ g₂ k u₁ u₂ first second => ?_⟩
    by_cases same₁ : g₁ = f
    · subst same₁
      obtain ⟨rfl, rfl, rfl⟩ := self first
      by_cases same₂ : g₂ = g₁
      · subst same₂
        exact (self second).1.symm
      · exact (only g₂ u₂ ((others same₂).mp second)).symm
    · by_cases same₂ : g₂ = f
      · subst same₂
        obtain ⟨rfl, rfl, rfl⟩ := self second
        exact only g₁ u₁ ((others same₁).mp first)
      · exact core.shared d' g₁ g₂ k u₁ u₂ ((others same₁).mp first) ((others same₂).mp second)

theorem Bounded.fresh (bounded : Bounded s) : s.transfers s.nextTransfer = none := by
  cases live : s.transfers s.nextTransfer with
  | none => rfl
  | some tr => exact absurd (bounded.transfers _ _ live) (Nat.lt_irrefl _)

theorem Bounded.absent (bounded : Bounded s) (core : Core s) (d : Direction) :
    s.nextTransfer ∉ s.queue d := by
  intro there
  obtain ⟨tr, live, -⟩ := (core.entries d _).mp there
  rw [bounded.fresh] at live
  cases live

theorem mem_addTransfer (s : Client) (d : Direction) (f : FileRef) (key : FileFingerprint)
    (d' : Direction) (u : TransferRef) : u ∈ (s.addTransfer d f key).queue d' ↔
      u = s.nextTransfer ∧ d' = d ∨ u ∈ s.queue d' := by
  rw [Client.addTransfer]
  dsimp only
  by_cases same : d' = d
  · rw [same, Function.update_self, mem_insert]
    simp
  · rw [Function.update_of_ne same]
    simp [same]

/-- No file is queued for the new transfer yet. -/
theorem queued_addTransfer (bounded : Bounded s) (d : Direction) (f : FileRef)
    (key : FileFingerprint) :
    ∀ d' g k u, Queued (s.addTransfer d f key) d' g k u ↔ Queued s d' g k u := by
  intro d' g k u
  rw [Queued, Queued, mem_addTransfer]
  refine and_congr_left ?_
  rintro ⟨file, there, points, -⟩
  have old := bounded.pointers g file u there points
  exact or_iff_right fun new => absurd new.1 (Nat.ne_of_lt old)

/-- A new transfer gets its own entry. -/
theorem core_addTransfer (core : Core s) (bounded : Bounded s) {d : Direction} (f : FileRef)
    {key : FileFingerprint} (missing : s.find d key = none) :
    Core (s.addTransfer d f key) ∧ s.nextTransfer ∈ (s.addTransfer d f key).queue d ∧
      ∀ d' g k u, Queued (s.addTransfer d f key) d' g k u ↔ Queued s d' g k u := by
  have keys : (s.addTransfer d f key).keyOf = Function.update s.keyOf s.nextTransfer key.key :=
    keyOf_setTransfer s _ _
  have others : ∀ d', ∀ u ∈ s.queue d',
      Function.update s.keyOf s.nextTransfer key.key u = s.keyOf u := by
    intro d' u there
    refine Function.update_of_ne ?_ _ _
    rintro rfl
    exact bounded.absent core d' there
  have same := queued_addTransfer bounded d f key
  refine ⟨⟨fun d' => ?_, fun d' u => ?_, fun d' g g' k u u' => ?_⟩, ?_, same⟩
  · rw [keys]
    by_cases here : d' = d
    · have before := (ascending_congr (others d)).mpr (core.ascending d)
      have after := before.insert (r := s.nextTransfer) fun a there => by
        rw [Function.update_self, others d a there]
        exact (core.ascending d).find_none.mp missing a there
      rw [here, Client.addTransfer]
      dsimp only
      rwa [Function.update_self, keyOf_setTransfer]
    · rw [Client.addTransfer]
      dsimp only
      rw [Function.update_of_ne here]
      exact (ascending_congr (others d')).mpr (core.ascending d')
  · rw [mem_addTransfer, core.entries, Client.addTransfer]
    dsimp only
    rw [transfers_setTransfer]
    by_cases new : u = s.nextTransfer
    · subst new
      simp [bounded.fresh, eq_comm]
    · simp [new]
  · rw [same, same]
    exact core.shared d' g g' k u u'
  · exact (mem_addTransfer s d f key d _).mpr (Or.inl ⟨rfl, rfl⟩)

theorem bounded_addTransfer (bounded : Bounded s) (d : Direction) (f : FileRef)
    (key : FileFingerprint) : Bounded (s.addTransfer d f key) := by
  refine ⟨fun u ur there => ?_, fun g file u there points => ?_⟩
  · by_cases new : u = s.nextTransfer
    · rw [new]
      exact Nat.lt_succ_self _
    · rw [Client.addTransfer] at there
      dsimp only at there
      rw [transfers_setTransfer, Function.update_of_ne new] at there
      exact Nat.lt_succ_of_lt (bounded.transfers u ur there)
  · exact Nat.lt_succ_of_lt (bounded.pointers g file u there points)

theorem bounded_attach (bounded : Bounded s) {f : FileRef} {file : File} {t : TransferRef}
    (known : t < s.nextTransfer) (key : FileFingerprint) :
    Bounded (s.setFile f { file with fingerprint := key, transfer := some t }) := by
  refine ⟨bounded.transfers, fun g other u there points => ?_⟩
  by_cases same : g = f
  · rw [same, files_setFile, Function.update_self] at there
    obtain rfl := Option.some.inj there
    obtain rfl := Option.some.inj points
    exact known
  · rw [files_setFile, Function.update_of_ne same] at there
    exact bounded.pointers g other u there points

theorem startxfer_exact (core : Core s) (bounded : Bounded s) (d : Direction) (f : FileRef)
    (fa : Option FileFingerprint.Source) :
    (Core (s.startxfer d f fa) ↔ KeepsOrder s (.startxfer d f fa)) ∧
      Bounded (s.startxfer d f fa) := by
  rw [KeepsOrder, Client.startxfer]
  cases there : s.files f with
  | none => simp [core, bounded]
  | some file =>
    simp only [Option.some.injEq, forall_eq']
    cases free : file.transfer with
    | some t => simp [core, bounded]
    | none =>
      simp only [Option.isSome_none, Bool.false_eq_true, if_false, forall_const]
      generalize Client.prepared d fa file = key
      have unlinked : ∀ new : File,
          some (⟨⟨key, file.filekey⟩, file.hprivate, none⟩ : File) = some new →
            new.transfer = none := by
        rintro new same
        rw [← Option.some.inj same]
      have waits : Core (s.setFile f ⟨⟨key, file.filekey⟩, file.hprivate, none⟩) ∧
          Bounded (s.setFile f ⟨⟨key, file.filekey⟩, file.hprivate, none⟩) :=
        ⟨core_files core (update_fewer unlinked), bounded_files bounded (update_fewer unlinked)⟩
      by_cases invalid : d = .put ∧ key.isvalid = false
      · rw [if_pos invalid]
        exact ⟨⟨fun _ valid => absurd invalid valid, fun _ => waits.1⟩, waits.2⟩
      rw [if_neg invalid]
      simp only [invalid, not_false_eq_true, forall_const]
      cases found : s.find d key with
      | some t =>
        obtain ⟨mem, same⟩ := mem_of_find found
        obtain ⟨tr, live, type⟩ := (core.entries d t).mp mem
        simp only [live]
        have joined : Core (s.setTransfer t { tr with files := f :: tr.files }) :=
          core_kept core live rfl rfl
        refine ⟨(core_attach joined there free mem key).trans ⟨fun only g u queued => ?_,
          fun keys g u queued => ?_⟩, bounded_attach (bounded_setTransfer bounded live _)
            (bounded.transfers t tr live) key⟩
        · rw [only g u queued, same]
        · exact (core.ascending d).injective queued.1 mem ((keys g u queued).trans same.symm)
      | none =>
        obtain ⟨added, mem, queues⟩ := core_addTransfer core bounded f found
        refine ⟨(core_attach added there free mem key).trans ⟨fun only g u queued => ?_,
          fun keys g u queued => ?_⟩, bounded_attach (bounded_addTransfer bounded d f key)
            (Nat.lt_succ_self _) key⟩
        · have new := only g u ((queues d g key.key u).mpr queued)
          obtain ⟨-, other, live, points, -⟩ := queued
          exact absurd new (Nat.ne_of_lt (bounded.pointers g other u live points))
        · have old := (queues d g key.key u).mp queued
          exact absurd (keys g u old) ((core.ascending d).find_none.mp found u old.1)

/-- Each step leaves the queues maps exactly if it keeps their order. -/
theorem step_exact (core : Core s) (bounded : Bounded s) (e : Event) :
    (Core (step s e) ↔ KeepsOrder s e) ∧ Bounded (step s e) := by
  have always : ∀ u : Client, Core u ∧ Bounded u → (Core u ↔ True) ∧ Bounded u := fun u keeps =>
    ⟨iff_true_intro keeps.1, keeps.2⟩
  cases e with
  | newFile fingerprint filekey hprivate =>
    have pointless : ∀ new : File, some (⟨⟨fingerprint, filekey⟩, hprivate, none⟩ : File) = some new →
        new.transfer = none := by
      rintro new same
      rw [← Option.some.inj same]
    exact always _ ⟨core_files core (update_fewer pointless),
      bounded_files bounded (update_fewer pointless)⟩
  | deleteFile f => exact always _ (deleteFile_keeps core bounded f)
  | startxfer d f fa => exact startxfer_exact core bounded d f fa
  | stopxfer f => exact always _ (stopxfer_keeps core bounded f)
  | dispatch t a => exact dispatch_exact core bounded t a
  | failed t e answer =>
    refine always _ ?_
    rw [step, Client.failed]
    split
    · exact ⟨core, bounded⟩
    · rename_i tr live
      exact ⟨(core_failedAs core live rfl e answer).mpr fun _ => fits_self live,
        bounded_failedAs bounded live _ _ _⟩
  | complete t call => exact complete_exact core bounded t call

end Steps

theorem core_start : Core Client.start where
  ascending _ := List.Pairwise.nil
  entries d t := by simp [Client.start]
  shared d f g key t u first := absurd first.1 List.not_mem_nil

theorem bounded_start : Bounded Client.start where
  transfers t tr live := by cases live
  pointers f file t there := by cases there

/-- In every run from the start, the queues are maps in every state reached exactly if each step
keeps their order. -/
theorem always_mapped_iff (events : List Event) :
    Always step Mapped Client.start events ↔ Meets step KeepsOrder Client.start events := by
  refine always_iff_meets_of (fun s (inv : Core s ∧ Bounded s) => inv.1.mapped)
    (fun s e inv meets => ?_) (fun s e inv mapped => ?_) ⟨core_start, bounded_start⟩ events
  · obtain ⟨exact_step, bounded⟩ := step_exact inv.1 inv.2 e
    exact ⟨exact_step.mpr meets, bounded⟩
  · exact (step_exact inv.1 inv.2 e).1.mp mapped.core

/-- The fingerprint of a file of `size` bytes. -/
def sized (size : Int) : FileFingerprint := ⟨size, 0, Vector.replicate 4 0, true⟩

/-- Two uploads are queued; the file of the first has grown beyond the second when it is opened. -/
def grownRun : List Event :=
  [.newFile (sized 1) (Vector.replicate 4 0) false, .newFile (sized 2) (Vector.replicate 4 0) false,
    .startxfer .put 0 none, .startxfer .put 1 none,
    .dispatch 0 ⟨fun _ => none, true, some 3, fun _ => none⟩]

theorem grownRun_disorders : ¬Always step Mapped Client.start grownRun := by
  intro always
  have ascending := always.at_end.core.ascending .put
  have order : (run step Client.start grownRun).queue .put = [0, 1] := by decide +kernel
  have greater : ¬(run step Client.start grownRun).keyOf 0 <
      (run step Client.start grownRun).keyOf 1 := by
    decide +kernel
  rw [order] at ascending
  exact greater ((List.pairwise_cons.mp ascending).1 1 List.mem_cons_self)

end MegaSdk.Xfer.Queue
