import Mathlib.Algebra.BigOperators.Group.Finset.Piecewise
import Mathlib.Algebra.Order.BigOperators.Group.Finset
import Mathlib.Data.Finset.Sort
import MegaSdk.Nodes.Fingerprint
import MegaSdk.Sync.FsIds

/-!
# The bytes of a sync

`Sync::localbytes` is adjusted where `checkpath` finds a file, where `syncup` finds that a file
has changed since, and where a `LocalNode` is deleted. The lookups by path come with the event;
the lookup by file system id is the one of the client.
-/

namespace MegaSdk.Sync.LocalBytes

open FsIds Runs

abbrev LocalRef := FsIds.LocalRef

inductive LocalType where
  | file
  | folder
  deriving DecidableEq

/-- A `LocalNode`. That a scan has `counted` its size is not recorded by the code. -/
structure LocalItem where
  type : LocalType
  parent : Option LocalRef
  file : FileFingerprint
  counted : Bool
  deriving DecidableEq

/-- A file or folder that `fopen` has opened. -/
structure FileAccess where
  type : LocalType
  fsid : UInt64
  fsidvalid : Bool
  source : FileFingerprint.Source

/-- What the lookups by path find: the `LocalNode` of the path, the child of its last name, and
the address for a new one, with what its id field holds before it is set. -/
structure Found where
  isroot : Bool
  l : Option LocalRef
  parent : Option LocalRef
  cl : Option LocalRef
  unused : LocalRef
  unset : UInt64

/-- A `LocalNode` of the state cache, in its place. -/
structure Cached where
  ref : LocalRef
  type : LocalType
  parent : LocalRef
  file : FileFingerprint
  fsid : UInt64

/-- What `checkpath` does with an open file. -/
inductive Branch where
  | ignored
  | unchanged (l : LocalRef)
  | replaced (l : LocalRef) (moved : LocalRef)
  | changed (l : LocalRef)
  | present (l : LocalRef)
  | moved (l : LocalRef)
  | added
  deriving DecidableEq

/-- The sizes of all files together fit into `m_off_t`. -/
structure State where
  live : Finset LocalRef
  locals : LocalRef → LocalItem
  client : Client
  fullscan : Bool
  localbytes : Int

namespace State

def size (s : State) (l : LocalRef) : Int := (s.locals l).file.size

def isFile (s : State) (l : LocalRef) : Bool := (s.locals l).type = .file

def modify (s : State) (l : LocalRef) (f : LocalItem → LocalItem) : State :=
  { s with locals := Function.update s.locals l (f (s.locals l)) }

/-- The walk up from `k` meets `l`. -/
def isBelow (s : State) (l : LocalRef) : Nat → LocalRef → Bool
  | 0, k => k = l
  | fuel + 1, k => k = l || (s.locals k).parent.any (s.isBelow l fuel)

/-- A `LocalNode` and its descendants. -/
def destroyed (s : State) (l : LocalRef) : Finset LocalRef :=
  s.live.filter fun k => s.isBelow l s.live.card k

/-- `~LocalNode`, which deletes the children too. -/
def delete (s : State) (l : LocalRef) : State :=
  let destroyed := s.destroyed l
  { s with
    live := s.live \ destroyed
    client := (destroyed.sort (· ≤ ·)).foldl Client.destroy s.client
    localbytes :=
      s.localbytes - ∑ k ∈ destroyed, if s.isFile k ∧ s.size k > 0 then s.size k else 0 }

def fsid (s : State) (l : LocalRef) : Option UInt64 := (s.client.locals l).map FsNode.fsid

/-- The file has another id than the `LocalNode` of its path. -/
def overwrites (s : State) (l : LocalRef) (fa : FileAccess) : Bool :=
  fa.fsidvalid && s.fsid l ≠ some fa.fsid

def lookupFsid (s : State) (fa : FileAccess) : Option LocalRef :=
  if fa.fsidvalid then (s.client.fsidnode fa.fsid).map Prod.snd else none

/-- The `LocalNode` of a file or folder that is known already. An overwritten file is told from
an unchanged one by a time of -1. -/
def branchPresent (s : State) (l : LocalRef) (fa : FileAccess) : Branch :=
  if fa.type = .folder then .present l
  else
    let overwritten := s.overwrites l fa
    match if overwritten then s.lookupFsid fa else none with
    | some moved => .replaced l moved
    | none =>
      let mtime := if overwritten then -1 else (s.locals l).file.mtime
      if fa.source.mtime ≠ mtime ∨ fa.source.size ≠ s.size l then .changed l else .present l

/-- In a full scan a child of the same name and id takes the place of the one of the path. -/
def branch (s : State) (found : Found) (fa : FileAccess) : Branch :=
  let same := if s.fullscan then
      found.cl.filter fun cl => cl ∈ s.live ∧ s.fsid cl = some fa.fsid
    else none
  match same.filter fun l => !s.isFile l ||
      (s.size l = fa.source.size && (s.locals l).file.mtime = fa.source.mtime) with
  | some l => .unchanged l
  | none =>
    if found.isroot then .ignored
    else
      match same.or (found.l.filter fun l => l ∈ s.live) with
      | some l => s.branchPresent l fa
      | none =>
        match s.lookupFsid fa with
        | some moved => .moved moved
        | none => .added

def setfsid (s : State) (l : LocalRef) (fsid : UInt64) : State :=
  { s with client := s.client.setfsid l fsid }

/-- `LocalNode::setnameparent`, without the name. -/
def setparent (s : State) (l : LocalRef) (parent : Option LocalRef) : State :=
  s.modify l fun item => { item with parent := parent.or item.parent }

/-- `genfingerprint` of a `LocalNode`. -/
def regenerate (s : State) (l : LocalRef) (source : FileFingerprint.Source) : State :=
  s.modify l fun item => { item with file := (item.file.genfingerprint source false).1 }

def count (s : State) (l : LocalRef) : State := s.modify l fun item => { item with counted := true }

/-- `l->mtime = -1`. -/
def noteOverwrite (s : State) (l : LocalRef) (fa : FileAccess) : State :=
  if s.overwrites l fa then
    s.modify l fun item =>
      let file := { item.file with mtime := -1 }
      { item with file := file }
  else s

def addUnchanged (s : State) (l : LocalRef) : State :=
  if s.isFile l then { s.count l with localbytes := s.localbytes + s.size l } else s

def change (s : State) (l : LocalRef) (source : FileFingerprint.Source) : State :=
  let dsize := s.size l
  let changed := ((s.locals l).file.genfingerprint source false).2
  let s := (s.regenerate l source).count l
  { s with localbytes := if changed then s.localbytes - (dsize - s.size l) else s.localbytes }

def refresh (s : State) (l : LocalRef) (source : FileFingerprint.Source) : State :=
  if s.isFile l then
    let without := if s.size l > 0 then s.localbytes - s.size l else s.localbytes
    let s := (s.regenerate l source).count l
    { s with localbytes := if s.size l > 0 then without + s.size l else without }
  else s

/-- `new LocalNode` and `init`, at an unused address. -/
def init (s : State) (l : LocalRef) (item : LocalItem) (fsid : UInt64) : State :=
  if l ∈ s.live then s
  else
    { s with
      live := insert l s.live
      locals := Function.update s.locals l item
      client := s.client.init l fsid }

/-- A `FileFingerprint` without a file. -/
def noFile : FileFingerprint := ⟨-1, 0, Vector.replicate 4 0, false⟩

/-- `Sync::checkpath` of a path that can be opened. -/
def checkpath (s : State) (found : Found) (fa : FileAccess) : State :=
  match s.branch found fa with
  | .ignored => s
  | .unchanged l => s.addUnchanged l
  | .replaced l moved => (s.delete l).setparent moved found.parent
  | .changed l =>
    let s := s.noteOverwrite l fa
    let s := if s.overwrites l fa then s.setfsid l fa.fsid else s
    s.change l fa.source
  | .present l =>
    let s := match fa.type with
      | .file => s.noteOverwrite l fa
      | .folder => if fa.fsidvalid then s.setfsid l fa.fsid else s
    s.refresh l fa.source
  | .moved l => s.setparent l found.parent
  | .added =>
    if found.unused ∈ s.live then s
    else
      let s := s.init found.unused ⟨fa.type, found.parent, noFile, false⟩ found.unset
      let s := if fa.fsidvalid then s.setfsid found.unused fa.fsid else s
      s.refresh found.unused fa.source

/-- An element of the tree that `addstatecachechildren` builds. -/
def load (s : State) (c : Cached) : State :=
  if c.ref ∈ s.live then s
  else (s.init c.ref ⟨c.type, some c.parent, c.file, false⟩ c.fsid).setfsid c.ref c.fsid

def readstatecache (s : State) (cached : List Cached) : State :=
  { cached.foldl load s with fullscan := true }

/-- A file that `syncup` would send, and what is on disk. -/
def syncupFile (s : State) (ll : LocalRef) (fa : Option FileFingerprint.Source) : State :=
  match fa with
  | none => s
  | some source =>
    if ll ∈ s.live ∧ s.isFile ll ∧
        (source.size ≠ s.size ll ∨ source.mtime ≠ (s.locals ll).file.mtime) then
      let without := s.localbytes - s.size ll
      let s := s.regenerate ll source
      { s with localbytes := without + s.size ll }
    else s

def start : State where
  live := {0}
  locals _ := ⟨.folder, none, noFile, false⟩
  client := Client.start.init 0 0
  fullscan := true
  localbytes := 0

end State

/-- `fullscan` is set for a rescan and reset when it is done. -/
inductive Event where
  | checkpath (found : Found) (fa : Option FileAccess)
  | readstatecache (cached : List Cached)
  | syncup (ll : LocalRef) (fa : Option FileFingerprint.Source)
  | delete (l : LocalRef)
  | setFullscan (fullscan : Bool)

def step (s : State) : Event → State
  | .checkpath _ none => s
  | .checkpath found (some fa) => s.checkpath found fa
  | .readstatecache cached => s.readstatecache cached
  | .syncup ll fa => s.syncupFile ll fa
  | .delete l => s.delete l
  | .setFullscan fullscan => { s with fullscan := fullscan }

namespace State

/-- The bytes of the files that a scan has counted. -/
def total (s : State) : Int :=
  ∑ l ∈ s.live with s.isFile l ∧ (s.locals l).counted, max (s.size l) 0

end State

def Balanced (s : State) : Prop := s.localbytes = s.total

namespace State

/-- The size that `genfingerprint` leaves. -/
def newSize (source : FileFingerprint.Source) : Int := if source.crc.isSome then source.size else -1

/-- The files that a deletion takes have been counted, or are empty. -/
def DeletesCounted (s : State) (l : LocalRef) : Prop :=
  ∀ k ∈ s.destroyed l, s.isFile k → (s.locals k).counted = false → s.size k ≤ 0

/-- What `checkpath` adds and subtracts is the change of the size of a file. A size of -1 is added
like any other by some of its branches. -/
def CountsOnce (s : State) (fa : FileAccess) : Branch → Prop
  | .ignored => True
  | .unchanged l => s.isFile l → if (s.locals l).counted then s.size l = 0 else 0 ≤ s.size l
  | .replaced l _ => s.DeletesCounted l
  | .changed l =>
    if s.isFile l then
      min (newSize fa.source) 0 = if (s.locals l).counted then min (s.size l) 0 else s.size l
    else newSize fa.source = s.size l
  | .present l => s.isFile l → (s.locals l).counted = false → s.size l ≤ 0
  | .moved _ => True
  | .added => True

end State

/-- The steps after which the counter is still right. -/
def Sound (s : State) : Event → Prop
  | .checkpath _ none => True
  | .checkpath found (some fa) => s.CountsOnce fa (s.branch found fa)
  | .readstatecache _ => True
  | .syncup _ none => True
  | .syncup ll (some source) =>
    ll ∈ s.live → s.isFile ll →
      source.size ≠ s.size ll ∨ source.mtime ≠ (s.locals ll).file.mtime →
      if (s.locals ll).counted then min (State.newSize source) 0 = min (s.size ll) 0
      else State.newSize source = s.size ll
  | .delete l => s.DeletesCounted l
  | .setFullscan _ => True

namespace State

/-- What a `LocalNode` contributes. -/
def weight (item : LocalItem) : Int :=
  if item.type = .file ∧ item.counted then max item.file.size 0 else 0

theorem total_eq (s : State) : s.total = ∑ l ∈ s.live, weight (s.locals l) := by
  rw [total, Finset.sum_filter]
  simp only [weight, isFile, size, decide_eq_true_eq]

/-- The same objects with the same contributions. -/
theorem total_congr {s t : State} (live : t.live = s.live)
    (same : ∀ k, weight (t.locals k) = weight (s.locals k)) : t.total = s.total := by
  rw [total_eq, total_eq, live]
  exact Finset.sum_congr rfl fun k _ => same k

/-- `t` differs from `s` in `l` only. -/
structure Updates (s t : State) (l : LocalRef) : Prop where
  live : t.live = s.live
  type : (t.locals l).type = (s.locals l).type
  others : ∀ k ≠ l, t.locals k = s.locals k

section Total
variable {r s t : State} {l : LocalRef}

theorem Updates.trans (first : r.Updates s l) (second : s.Updates t l) : r.Updates t l where
  live := second.live.trans first.live
  type := second.type.trans first.type
  others k other := (second.others k other).trans (first.others k other)

theorem updates_modify (s : State) (l : LocalRef) {f : LocalItem → LocalItem}
    (type : ∀ item, (f item).type = item.type) : s.Updates (s.modify l f) l where
  live := rfl
  type := by
    change (Function.update s.locals l (f (s.locals l)) l).type = _
    rw [Function.update_self, type]
  others k other := by
    change Function.update s.locals l (f (s.locals l)) k = _
    rw [Function.update_of_ne other]

theorem Updates.bytes (updates : s.Updates t l) (localbytes : Int) :
    s.Updates { t with localbytes := localbytes } l :=
  ⟨updates.live, updates.type, updates.others⟩

theorem updates_count (s : State) (l : LocalRef) : s.Updates (s.count l) l := by
  rw [count]
  exact updates_modify s l fun _ => by rfl

theorem updates_regenerate (s : State) (l : LocalRef) (source : FileFingerprint.Source) :
    s.Updates (s.regenerate l source) l := by
  rw [regenerate]
  exact updates_modify s l fun _ => by rfl

theorem Updates.total (updates : s.Updates t l) (live : l ∈ s.live) :
    t.total = s.total - weight (s.locals l) + weight (t.locals l) := by
  rw [total_eq, total_eq, updates.live,
    ← Finset.add_sum_erase s.live (fun k => weight (s.locals k)) live,
    ← Finset.add_sum_erase s.live (fun k => weight (t.locals k)) live]
  have others : ∀ k ∈ s.live.erase l, weight (t.locals k) = weight (s.locals k) := fun k mem => by
    rw [updates.others k (Finset.ne_of_mem_erase mem)]
  rw [Finset.sum_congr rfl others]
  omega

/-- What an update of one object has to add to the counter. -/
theorem Updates.balanced_iff (updates : s.Updates t l) (live : l ∈ s.live) (balanced : Balanced s) :
    Balanced t ↔ t.localbytes - s.localbytes = weight (t.locals l) - weight (s.locals l) := by
  rw [Balanced] at balanced ⊢
  rw [updates.total live]
  omega

end Total

section Branches
variable {s : State} {l : LocalRef}

theorem weight_counted {item : LocalItem} (file : item.type = .file)
    (counted : item.counted = true) : weight item = max item.file.size 0 := by
  rw [weight, if_pos ⟨file, counted⟩]

theorem weight_uncounted {item : LocalItem} (uncounted : item.counted = false) :
    weight item = 0 := by
  rw [weight, if_neg (by simp [uncounted])]

theorem weight_folder {item : LocalItem} (folder : item.type ≠ .file) : weight item = 0 := by
  rw [weight, if_neg fun both => folder both.1]

theorem size_genfingerprint (f : FileFingerprint) (source : FileFingerprint.Source) :
    (f.genfingerprint source false).1.size = newSize source := by
  rw [FileFingerprint.genfingerprint, newSize]
  cases source.crc <;> rfl

theorem addUnchanged_iff (live : l ∈ s.live) (balanced : Balanced s) :
    Balanced (s.addUnchanged l) ↔
      (s.isFile l → if (s.locals l).counted then s.size l = 0 else 0 ≤ s.size l) := by
  rw [addUnchanged]
  cases file : s.isFile l with
  | false => simp [balanced]
  | true =>
    have type : (s.locals l).type = .file := by simpa [isFile] using file
    have updates := (updates_count s l).bytes (s.localbytes + s.size l)
    have item : ({ s.count l with localbytes := s.localbytes + s.size l } : State).locals l =
        { s.locals l with counted := true } := by simp [count, modify]
    have after : weight { s.locals l with counted := true } = max (s.size l) 0 :=
      weight_counted type rfl
    rw [if_pos rfl, updates.balanced_iff live balanced, item, after]
    cases counted : (s.locals l).counted with
    | true =>
      rw [weight_counted type counted]
      simp only [size, if_true, forall_const]
      omega
    | false =>
      rw [weight_uncounted counted]
      simp only [size, Bool.false_eq_true, if_false, forall_const]
      omega

theorem counted_regenerated (s : State) (l : LocalRef) (source : FileFingerprint.Source) :
    (((s.regenerate l source).count l).locals l).counted = true ∧
      ((s.regenerate l source).count l).size l = newSize source := by
  simp [regenerate, count, modify, State.size, size_genfingerprint]

theorem refresh_iff (live : l ∈ s.live) (balanced : Balanced s) (source : FileFingerprint.Source) :
    Balanced (s.refresh l source) ↔
      (s.isFile l → (s.locals l).counted = false → s.size l ≤ 0) := by
  have subtracted : ∀ b x : Int, (if x > 0 then b - x else b) = b - max x 0 := by
    intro b x
    split <;> omega
  have added : ∀ b x : Int, (if x > 0 then b + x else b) = b + max x 0 := by
    intro b x
    split <;> omega
  rw [refresh]
  cases file : s.isFile l with
  | false => simp [balanced]
  | true =>
    have updates := (updates_regenerate s l source).trans (updates_count (s.regenerate l source) l)
    obtain ⟨counted, size⟩ := counted_regenerated s l source
    have type : (s.locals l).type = .file := by simpa [isFile] using file
    have after := weight_counted (updates.type.trans type) counted
    rw [← State.size, size] at after
    rw [if_pos rfl, (updates.bytes _).balanced_iff live balanced]
    simp only [subtracted, added, size, after, forall_const]
    cases before : (s.locals l).counted with
    | true =>
      rw [weight_counted type before, State.size]
      simp only [Bool.true_eq_false, false_implies, iff_true]
      omega
    | false =>
      rw [weight_uncounted before, State.size]
      simp only [forall_const]
      omega

/-- The branch for changed files, once `genfingerprint` has said that something has changed. -/
theorem change_iff (live : l ∈ s.live) (balanced : Balanced s) (source : FileFingerprint.Source)
    (changed : ((s.locals l).file.genfingerprint source false).2 = true) :
    Balanced (s.change l source) ↔
      if s.isFile l then
        min (newSize source) 0 = if (s.locals l).counted then min (s.size l) 0 else s.size l
      else newSize source = s.size l := by
  have updates := (updates_regenerate s l source).trans (updates_count (s.regenerate l source) l)
  obtain ⟨counted, size⟩ := counted_regenerated s l source
  have same : ((s.regenerate l source).count l).localbytes = s.localbytes := rfl
  rw [change, (updates.bytes _).balanced_iff live balanced]
  simp only [changed, if_true, size, same]
  cases file : s.isFile l with
  | false =>
    have folder : (s.locals l).type ≠ .file := by simpa [isFile] using file
    rw [weight_folder (updates.type ▸ folder), weight_folder folder]
    simp only [Bool.false_eq_true, if_false]
    omega
  | true =>
    have type : (s.locals l).type = .file := by simpa [isFile] using file
    have after := weight_counted (updates.type.trans type) counted
    rw [← State.size, size] at after
    rw [after]
    cases before : (s.locals l).counted with
    | true =>
      rw [weight_counted type before, ← State.size]
      simp only [if_true]
      omega
    | false =>
      rw [weight_uncounted before]
      simp only [if_true, Bool.false_eq_true, if_false]
      omega

/-- `t` has the objects of `s` with their sizes. -/
structure SameSizes (s t : State) : Prop where
  live : t.live = s.live
  localbytes : t.localbytes = s.localbytes
  type : ∀ k, (t.locals k).type = (s.locals k).type
  counted : ∀ k, (t.locals k).counted = (s.locals k).counted
  size : ∀ k, t.size k = s.size k

theorem SameSizes.refl (s : State) : s.SameSizes s :=
  ⟨rfl, rfl, fun _ => rfl, fun _ => rfl, fun _ => rfl⟩

theorem SameSizes.balanced_iff {t : State} (same : s.SameSizes t) : Balanced t ↔ Balanced s := by
  have total : t.total = s.total := total_congr same.live fun k => by
    have size := same.size k
    rw [State.size, State.size] at size
    simp only [weight, same.type, same.counted, size]
  rw [Balanced, Balanced, same.localbytes, total]

theorem SameSizes.trans {r t : State} (first : r.SameSizes s) (second : s.SameSizes t) :
    r.SameSizes t where
  live := second.live.trans first.live
  localbytes := second.localbytes.trans first.localbytes
  type k := (second.type k).trans (first.type k)
  counted k := (second.counted k).trans (first.counted k)
  size k := (second.size k).trans (first.size k)

theorem sameSizes_modify (s : State) (l : LocalRef) {f : LocalItem → LocalItem}
    (same : ∀ item, (f item).type = item.type ∧ (f item).counted = item.counted ∧
      (f item).file.size = item.file.size) : s.SameSizes (s.modify l f) := by
  have at_ : ∀ k, (s.modify l f).locals k = s.locals k ∨
      k = l ∧ (s.modify l f).locals k = f (s.locals k) := by
    intro k
    by_cases here : k = l
    · subst here
      exact .inr ⟨rfl, by simp [modify]⟩
    · exact .inl (by simp [modify, here])
  refine ⟨rfl, rfl, fun k => ?_, fun k => ?_, fun k => ?_⟩
  · rcases at_ k with old | ⟨-, new⟩
    · rw [old]
    · rw [new, (same _).1]
  · rcases at_ k with old | ⟨-, new⟩
    · rw [old]
    · rw [new, (same _).2.1]
  · rcases at_ k with old | ⟨-, new⟩
    · rw [size, size, old]
    · rw [size, size, new, (same _).2.2]

theorem SameSizes.isFile {t : State} (same : s.SameSizes t) (k : LocalRef) :
    t.isFile k = s.isFile k := by
  rw [State.isFile, State.isFile, same.type]

theorem sameSizes_setfsid (s : State) (l : LocalRef) (fsid : UInt64) :
    s.SameSizes (s.setfsid l fsid) :=
  ⟨rfl, rfl, fun _ => rfl, fun _ => rfl, fun _ => rfl⟩

theorem sameSizes_setparent (s : State) (l : LocalRef) (parent : Option LocalRef) :
    s.SameSizes (s.setparent l parent) := by
  rw [setparent]
  exact sameSizes_modify s l fun _ => by exact ⟨rfl, rfl, rfl⟩

theorem sameSizes_noteOverwrite (s : State) (l : LocalRef) (fa : FileAccess) :
    s.SameSizes (s.noteOverwrite l fa) := by
  rw [noteOverwrite]
  split
  · exact sameSizes_modify s l fun _ => by exact ⟨rfl, rfl, rfl⟩
  · exact SameSizes.refl s

/-- Without a scan the new object does not count. -/
theorem balanced_init {item : LocalItem} (unused : l ∉ s.live) (uncounted : item.counted = false)
    (fsid : UInt64) : Balanced (s.init l item fsid) ↔ Balanced s := by
  have total : (s.init l item fsid).total = s.total := by
    rw [init, if_neg unused, total_eq, total_eq]
    change ∑ k ∈ insert l s.live, weight (Function.update s.locals l item k) = _
    rw [Finset.sum_insert unused, Function.update_self, weight_uncounted uncounted, zero_add]
    refine Finset.sum_congr rfl fun k mem => ?_
    have other : k ≠ l := fun here => unused (by rwa [← here])
    rw [Function.update_of_ne other]
  have bytes : (s.init l item fsid).localbytes = s.localbytes := by
    rw [init, if_neg unused]
  rw [Balanced, Balanced, total, bytes]

/-- What the destructor subtracts for an object beyond its contribution. -/
theorem overcharge (s : State) (k : LocalRef) :
    (if s.isFile k ∧ s.size k > 0 then s.size k else 0) - weight (s.locals k) =
      if s.isFile k ∧ (s.locals k).counted = false then max (s.size k) 0 else 0 := by
  cases file : s.isFile k with
  | false =>
    have folder : (s.locals k).type ≠ .file := by simpa [isFile] using file
    simp [weight_folder folder]
  | true =>
    have type : (s.locals k).type = .file := by simpa [isFile] using file
    have positive : (if s.size k > 0 then s.size k else 0) = max (s.size k) 0 := by
      split <;> omega
    simp only [true_and, positive]
    cases counted : (s.locals k).counted with
    | true =>
      rw [weight_counted type counted, size]
      simp
    | false =>
      rw [weight_uncounted counted]
      simp

/-- A deletion keeps the counter right if the files that it takes have been counted. -/
theorem delete_iff (balanced : Balanced s) (l : LocalRef) :
    Balanced (s.delete l) ↔ s.DeletesCounted l := by
  have split : ∑ k ∈ s.live \ s.destroyed l, weight (s.locals k) +
      ∑ k ∈ s.destroyed l, weight (s.locals k) = s.total := by
    rw [total_eq]
    exact Finset.sum_sdiff (Finset.filter_subset _ _)
  have gap : Balanced (s.delete l) ↔
      ∑ k ∈ s.destroyed l, ((if s.isFile k ∧ s.size k > 0 then s.size k else 0) -
        weight (s.locals k)) = 0 := by
    rw [Balanced] at balanced ⊢
    rw [total_eq, Finset.sum_sub_distrib]
    change s.localbytes - _ = ∑ k ∈ s.live \ s.destroyed l, weight (s.locals k) ↔ _
    omega
  rw [gap, Finset.sum_congr rfl fun k _ => s.overcharge k, Finset.sum_eq_zero_iff_of_nonneg,
    DeletesCounted]
  · refine forall₂_congr fun k _ => ?_
    rw [ite_eq_right_iff, and_imp]
    exact forall₂_congr fun _ _ => by omega
  · intro k _
    split
    · exact le_max_right _ _
    · exact le_rfl

end Branches

section Steps
variable {s : State} {found : Found} {fa : FileAccess} {l : LocalRef}

/-- Time or size differ from what is known, or the file has been overwritten. -/
def Differs (s : State) (l : LocalRef) (fa : FileAccess) : Prop :=
  fa.source.mtime ≠ ((s.noteOverwrite l fa).locals l).file.mtime ∨ fa.source.size ≠ s.size l

theorem branchPresent_cases (s : State) (l : LocalRef) (fa : FileAccess) :
    s.branchPresent l fa = .present l ∨ (∃ moved, s.branchPresent l fa = .replaced l moved) ∨
      s.branchPresent l fa = .changed l ∧ s.Differs l fa := by
  have mtime : ((s.noteOverwrite l fa).locals l).file.mtime =
      if s.overwrites l fa then -1 else (s.locals l).file.mtime := by
    rw [noteOverwrite]
    split
    · simp [modify]
    · rfl
  rw [Differs, mtime]
  cases type : fa.type with
  | folder => exact .inl (by simp [branchPresent, type])
  | file =>
    cases owner : if s.overwrites l fa then s.lookupFsid fa else none with
    | some moved => exact .inr (.inl ⟨moved, by simp [branchPresent, type, owner]⟩)
    | none =>
      by_cases differs : fa.source.mtime ≠
          (if s.overwrites l fa then -1 else (s.locals l).file.mtime) ∨ fa.source.size ≠ s.size l
      · exact .inr (.inr ⟨by simp only [branchPresent, type, owner, differs]; rfl, differs⟩)
      · exact .inl (by simp only [branchPresent, type, owner, differs]; rfl)

def Admits (s : State) (fa : FileAccess) : Branch → Prop
  | .unchanged l => l ∈ s.live
  | .changed l => l ∈ s.live ∧ s.Differs l fa
  | .present l => l ∈ s.live
  | _ => True

theorem admits_branchPresent (live : l ∈ s.live) (fa : FileAccess) :
    s.Admits fa (s.branchPresent l fa) := by
  rcases s.branchPresent_cases l fa with present | ⟨moved, replaced⟩ | ⟨changed, differs⟩
  · rw [present]
    exact live
  · rw [replaced]
    trivial
  · rw [changed]
    exact ⟨live, differs⟩

theorem admits_branch (s : State) (found : Found) (fa : FileAccess) :
    s.Admits fa (s.branch found fa) := by
  have alive : ∀ l, (if s.fullscan then
      found.cl.filter fun cl => cl ∈ s.live ∧ s.fsid cl = some fa.fsid
      else none) = some l → l ∈ s.live := by
    intro l same
    split at same
    · simp only [Option.filter_eq_some_iff, decide_eq_true_eq] at same
      exact same.2.1
    · cases same
  rw [branch]
  generalize (if s.fullscan then found.cl.filter fun cl => cl ∈ s.live ∧ s.fsid cl = some fa.fsid
    else none) = same at alive
  split
  · next l matched => exact alive l (Option.filter_eq_some_iff.mp matched).1
  · split
    · trivial
    · split
      · next l known =>
        refine admits_branchPresent ?_ fa
        rcases Option.or_eq_some_iff.mp known with first | ⟨-, second⟩
        · exact alive l first
        · simpa using (Option.filter_eq_some_iff.mp second).2
      · split
        · trivial
        · trivial

/-- Different times or sizes are noticed. -/
theorem genfingerprint_changed (f : FileFingerprint) (source : FileFingerprint.Source)
    (differs : source.mtime ≠ f.mtime ∨ source.size ≠ f.size) :
    (f.genfingerprint source false).2 = true := by
  rw [FileFingerprint.genfingerprint]
  cases source.crc with
  | none => rfl
  | some crc =>
    rcases differs with mtime | size
    · simp [Ne.symm mtime]
    · simp [Ne.symm size]

theorem changed_iff (balanced : Balanced s) (live : l ∈ s.live) (differs : s.Differs l fa) :
    let noted := s.noteOverwrite l fa
    let known := if noted.overwrites l fa then noted.setfsid l fa.fsid else noted
    Balanced (known.change l fa.source) ↔ s.CountsOnce fa (.changed l) := by
  intro noted known
  have locals : known.locals = noted.locals := by
    unfold known
    split <;> rfl
  have same : s.SameSizes known := by
    unfold known
    split
    · exact (s.sameSizes_noteOverwrite l fa).trans (sameSizes_setfsid _ l fa.fsid)
    · exact s.sameSizes_noteOverwrite l fa
  have noticed : ((known.locals l).file.genfingerprint fa.source false).2 = true := by
    refine genfingerprint_changed _ _ ?_
    have size := same.size l
    rw [locals]
    rw [State.size, locals] at size
    rw [size]
    exact differs
  have live' : l ∈ known.live := same.live ▸ live
  rw [change_iff live' (same.balanced_iff.mpr balanced) fa.source noticed, same.isFile, same.size,
    same.counted, CountsOnce]

theorem present_iff (balanced : Balanced s) (live : l ∈ s.live) {t : State} (same : s.SameSizes t)
    (source : FileFingerprint.Source) :
    Balanced (t.refresh l source) ↔ (s.isFile l → (s.locals l).counted = false → s.size l ≤ 0) := by
  have live' : l ∈ t.live := same.live ▸ live
  rw [refresh_iff live' (same.balanced_iff.mpr balanced) source, same.isFile, same.size,
    same.counted]

/-- A file that is new to the scan is counted once. -/
theorem balanced_added (balanced : Balanced s) (unused : l ∉ s.live) (type : LocalType)
    (parent : Option LocalRef) (unset : UInt64) {t : State}
    (same : (s.init l ⟨type, parent, noFile, false⟩ unset).SameSizes t)
    (source : FileFingerprint.Source) : Balanced (t.refresh l source) := by
  have added : Balanced (s.init l ⟨type, parent, noFile, false⟩ unset) :=
    (balanced_init unused (by rfl) unset).mpr balanced
  have live : l ∈ (s.init l ⟨type, parent, noFile, false⟩ unset).live := by
    simp [init, unused]
  refine (present_iff added live same source).mpr fun _ _ => ?_
  simp [init, unused, size, noFile]

theorem checkpath_iff (balanced : Balanced s) (found : Found) (fa : FileAccess) :
    Balanced (s.checkpath found fa) ↔ s.CountsOnce fa (s.branch found fa) := by
  have admits := s.admits_branch found fa
  rw [checkpath]
  cases taken : s.branch found fa with
  | ignored => exact iff_of_true balanced trivial
  | unchanged l =>
    rw [taken] at admits
    exact addUnchanged_iff admits balanced
  | replaced l moved => exact (sameSizes_setparent _ _ _).balanced_iff.trans (delete_iff balanced l)
  | changed l =>
    rw [taken] at admits
    exact changed_iff balanced admits.1 admits.2
  | present l =>
    rw [taken] at admits
    refine present_iff balanced admits ?_ fa.source
    split
    · exact s.sameSizes_noteOverwrite l fa
    · split
      · exact s.sameSizes_setfsid l fa.fsid
      · exact SameSizes.refl _
  | moved l => exact iff_of_true ((sameSizes_setparent s l _).balanced_iff.mpr balanced) trivial
  | added =>
    refine iff_of_true ?_ trivial
    dsimp only
    split
    · exact balanced
    · next unused =>
      refine balanced_added balanced unused fa.type found.parent found.unset ?_ fa.source
      split
      · exact sameSizes_setfsid _ _ fa.fsid
      · exact SameSizes.refl _

theorem balanced_load (balanced : Balanced s) (c : Cached) : Balanced (s.load c) := by
  rw [load]
  split
  · exact balanced
  · next unused =>
    refine (sameSizes_setfsid _ _ _).balanced_iff.mpr ?_
    exact (balanced_init unused (by rfl) c.fsid).mpr balanced

/-- What is read from the cache has not been counted. -/
theorem balanced_readstatecache (balanced : Balanced s) (cached : List Cached) :
    Balanced (s.readstatecache cached) := by
  have loaded : Balanced (cached.foldl load s) := by
    induction cached generalizing s with
    | nil => exact balanced
    | cons c rest ih => exact ih (balanced_load balanced c)
  exact loaded

theorem syncupFile_iff (balanced : Balanced s) (ll : LocalRef)
    (fa : Option FileFingerprint.Source) :
    Balanced (s.syncupFile ll fa) ↔ Sound s (.syncup ll fa) := by
  cases fa with
  | none => exact iff_of_true balanced trivial
  | some source =>
    rw [syncupFile, Sound]
    split
    · next stale =>
      obtain ⟨live, file, differs⟩ := stale
      have updates := updates_regenerate s ll source
      have type : (s.locals ll).type = .file := by simpa [isFile] using file
      have size : (s.regenerate ll source).size ll = newSize source := by
        simp [regenerate, modify, State.size, size_genfingerprint]
      have counted : ((s.regenerate ll source).locals ll).counted = (s.locals ll).counted := by
        simp [regenerate, modify]
      rw [(updates.bytes _).balanced_iff live balanced]
      simp only [live, file, differs, size, forall_const]
      cases before : (s.locals ll).counted with
      | true =>
        rw [before] at counted
        rw [weight_counted (updates.type.trans type) counted, weight_counted type before,
          ← State.size, ← State.size, size]
        simp only [if_true]
        omega
      | false =>
        rw [before] at counted
        rw [weight_uncounted counted, weight_uncounted before]
        simp only [Bool.false_eq_true, if_false]
        omega
    · next fresh =>
      exact iff_of_true balanced fun live file differs => absurd ⟨live, file, differs⟩ fresh

end Steps

end State

/-- The step lemma: from a right counter a step leads to a right one exactly if it counts every
file once. -/
theorem balanced_step_iff {s : State} (e : Event) (balanced : Balanced s) :
    Balanced (step s e) ↔ Sound s e := by
  cases e with
  | checkpath found fa =>
    cases fa with
    | none => exact iff_of_true balanced trivial
    | some fa => exact State.checkpath_iff balanced found fa
  | readstatecache cached =>
    exact iff_of_true (State.balanced_readstatecache balanced cached) trivial
  | syncup ll fa => exact State.syncupFile_iff balanced ll fa
  | delete l => exact State.delete_iff balanced l
  | setFullscan fullscan => exact iff_of_true balanced trivial

theorem balanced_start : Balanced State.start := by
  rw [Balanced]
  decide

/-- The counter is the number of counted bytes in every state of a run exactly if all its steps
are sound. -/
theorem always_balanced_iff (events : List Event) :
    Always step Balanced State.start events ↔ Meets step Sound State.start events :=
  always_iff_meets (fun _ e balanced => balanced_step_iff e balanced) balanced_start events

namespace Sample

def fiveBytes : FileAccess := ⟨.file, 7, true, ⟨100, 5, some (Vector.replicate 4 0)⟩⟩

/-- The path of a file in the root of the sync, before it is known and afterwards. -/
def newPath : Found := ⟨false, none, some 0, none, 1, 0⟩

def knownPath : Found := ⟨false, some 1, some 0, some 1, 2, 0⟩

/-- A file is found, and the next full scan finds it unchanged. -/
def rescanned : List Event :=
  [.checkpath newPath (some fiveBytes), .setFullscan true, .checkpath knownPath (some fiveBytes)]

end Sample

/-- The second scan adds the size again, and something is left when the file is deleted. -/
theorem rescanned_unbalanced :
    ¬Always step Balanced State.start Sample.rescanned ∧
      (run step State.start Sample.rescanned).localbytes = 10 ∧
      (run step State.start Sample.rescanned).total = 5 ∧
      (run step State.start (Sample.rescanned ++ [.delete 1])).live = {0} ∧
      (run step State.start (Sample.rescanned ++ [.delete 1])).localbytes = 5 := by
  have counted : (run step State.start Sample.rescanned).localbytes = 10 := by decide +kernel
  have total : (run step State.start Sample.rescanned).total = 5 := by decide +kernel
  refine ⟨fun always => ?_, counted, total, by decide +kernel, by decide +kernel⟩
  have balanced := always.at_end
  rw [Balanced, counted, total] at balanced
  cases balanced

end MegaSdk.Sync.LocalBytes
