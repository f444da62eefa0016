import MegaSdk.Lib.PairedPointers
import MegaSdk.Lib.Runs
import MegaSdk.Types

/-!
# The index of file system ids

`fsidnode` maps a file system id to the `LocalNode` that has it, and the `LocalNode` keeps an
iterator to its entry. An id may pass to another `LocalNode`, which takes over the entry and
revokes the iterator of the former owner.
-/

namespace MegaSdk.Sync.FsIds

open PairedPointers Runs

abbrev LocalRef := Nat

/-- The id of a `LocalNode` and its iterator, none for `end()`. -/
structure FsNode where
  fsid : UInt64
  fsid_it : Option Nat
  deriving DecidableEq

/-- The map, whose entries have numbers that are never used again, so that an iterator does not
designate an entry that was inserted after its own was erased. -/
structure Client where
  fsidnode : UInt64 → Option (Nat × LocalRef)
  locals : LocalRef → Option FsNode
  nextEntry : Nat

namespace Client

def start : Client := ⟨fun _ => none, fun _ => none, 0⟩

variable (s : Client)

/-- `fsidnode.erase(it)`. -/
def erase (it : Nat) : Client :=
  { s with fsidnode := fun f => (s.fsidnode f).filter fun e => e.1 ≠ it }

/-- `fsidnode.erase(fsid_it)`, unless it is `end()`. -/
def eraseIt (n : FsNode) : Client :=
  match n.fsid_it with
  | some it => s.erase it
  | none => s

/-- `fsid_it = end()` of another `LocalNode`. -/
def revoke (l : LocalRef) : Client :=
  let revoked := (s.locals l).map fun n => { n with fsid_it := none }
  { s with locals := Function.update s.locals l revoked }

/-- `fsidnode.insert` and what follows it. -/
def takeId (l : LocalRef) (newfsid : UInt64) : Client :=
  match s.fsidnode newfsid with
  | none =>
    { fsidnode := Function.update s.fsidnode newfsid (some (s.nextEntry, l))
      locals := Function.update s.locals l (some ⟨newfsid, some s.nextEntry⟩)
      nextEntry := s.nextEntry + 1 }
  | some (it, other) =>
    let s := { s with locals := Function.update s.locals l (some ⟨newfsid, some it⟩) }
    let s := s.revoke other
    { s with fsidnode := Function.update s.fsidnode newfsid (some (it, l)) }

def setfsid (l : LocalRef) (newfsid : UInt64) : Client :=
  match s.locals l with
  | none => s
  | some n =>
    if n.fsid_it.isSome ∧ newfsid = n.fsid then s
    else (s.eraseIt n).takeId l newfsid

/-- `LocalNode::init`, at an unused address. The id is not set, or it was read from the cache. -/
def init (l : LocalRef) (fsid : UInt64) : Client :=
  if (s.locals l).isSome then s
  else { s with locals := Function.update s.locals l (some ⟨fsid, none⟩) }

/-- `~LocalNode`, without the children. -/
def destroy (l : LocalRef) : Client :=
  match s.locals l with
  | none => s
  | some n =>
    let s := s.eraseIt n
    { s with locals := Function.update s.locals l none }

end Client

/-- A `LocalNode` is deleted with everything below it. -/
inductive Event where
  | init (l : LocalRef) (fsid : UInt64)
  | setfsid (l : LocalRef) (newfsid : UInt64)
  | delete (destroyed : List LocalRef)

def step (s : Client) : Event → Client
  | .init l fsid => s.init l fsid
  | .setfsid l newfsid => s.setfsid l newfsid
  | .delete destroyed => destroyed.foldl Client.destroy s

/-- Every entry belongs to the live `LocalNode` that has its id and an iterator to it, and every
such iterator designates an entry of its `LocalNode`. -/
def Indexed (s : Client) : Prop :=
  ∀ f it l, s.fsidnode f = some (it, l) ↔
    ∃ n, s.locals l = some n ∧ n.fsid_it = some it ∧ n.fsid = f

namespace Client

/-- The entry that a `LocalNode` holds: its key and its number. -/
def held (s : Client) (l : LocalRef) : Option (UInt64 × Nat) :=
  (s.locals l).bind fun n => n.fsid_it.map fun it => (n.fsid, it)

def ownerOf (s : Client) (entry : UInt64 × Nat) : Option LocalRef :=
  (s.fsidnode entry.1).bind fun e => if e.1 = entry.2 then some e.2 else none

variable {s : Client}

theorem ownerOf_eq_some {f : UInt64} {it : Nat} {l : LocalRef} :
    s.ownerOf (f, it) = some l ↔ s.fsidnode f = some (it, l) := by
  rw [ownerOf]
  cases s.fsidnode f with
  | none => simp
  | some e =>
    obtain ⟨it', l'⟩ := e
    simp

theorem held_eq_some {f : UInt64} {it : Nat} {l : LocalRef} :
    s.held l = some (f, it) ↔ ∃ n, s.locals l = some n ∧ n.fsid_it = some it ∧ n.fsid = f := by
  simp [held, Option.bind_eq_some_iff, and_comm]

theorem indexed_iff : Indexed s ↔ Paired s.held s.ownerOf := by
  constructor
  · rintro indexed l ⟨f, it⟩
    rw [held_eq_some, ownerOf_eq_some]
    exact (indexed f it l).symm
  · intro paired f it l
    rw [← ownerOf_eq_some, ← held_eq_some]
    exact (paired l (f, it)).symm

/-- The invariant: besides, the numbers of the entries are different and have been given. -/
structure Good (s : Client) : Prop where
  paired : Paired s.held s.ownerOf
  distinct : ∀ {f f' it l l'}, s.fsidnode f = some (it, l) → s.fsidnode f' = some (it, l') → f = f'
  bounded : ∀ {f it l}, s.fsidnode f = some (it, l) → it < s.nextEntry

theorem held_update (l : LocalRef) (n : Option FsNode) :
    held { s with locals := Function.update s.locals l n } =
      Function.update s.held l (n.bind fun n => n.fsid_it.map fun it => (n.fsid, it)) := by
  funext k
  by_cases same : k = l
  · subst same
    simp [held]
  · simp [held, same]

theorem held_revoke (other : LocalRef) :
    (s.revoke other).held = Function.update s.held other none := by
  rw [revoke, held_update]
  congr 1
  cases s.locals other <;> rfl

/-- Writing the owner of an entry, whether the entry is new or not. -/
theorem ownerOf_update {t : Client} {f : UInt64} {it : Nat} {l : LocalRef}
    (written : t.fsidnode = Function.update s.fsidnode f (some (it, l)))
    (fits : ∀ e, s.fsidnode f = some e → e.1 = it) :
    t.ownerOf = Function.update s.ownerOf (f, it) (some l) := by
  funext entry
  obtain ⟨g, j⟩ := entry
  by_cases key : g = f
  · subst key
    by_cases number : j = it
    · subst number
      simp [ownerOf, written]
    · have absent : s.ownerOf (g, j) = none := by
        cases at_g : s.fsidnode g with
        | none => simp [ownerOf, at_g]
        | some e => simp [ownerOf, at_g, fits e at_g, Ne.symm number]
      have other : (g, j) ≠ (g, it) := fun eq => number (Prod.mk.inj eq).2
      rw [Function.update_of_ne other, absent]
      simp [ownerOf, written, Ne.symm number]
  · have other : (g, j) ≠ (f, it) := fun eq => key (Prod.mk.inj eq).1
    simp [ownerOf, written, key, other]

/-- Erasing the entry of a `LocalNode` that loses its iterator clears both pointers. -/
theorem Good.detach (good : Good s) {l : LocalRef} {n : FsNode} (here : s.locals l = some n)
    {lost : Option FsNode} (unheld : (lost.bind fun n => n.fsid_it) = none) :
    Good { s.eraseIt n with locals := Function.update s.locals l lost } := by
  have cleared : (lost.bind fun n => n.fsid_it.map fun it => (n.fsid, it)) = none := by
    cases lost with
    | none => rfl
    | some m =>
      rw [Option.bind_some] at unheld ⊢
      rw [unheld, Option.map_none]
  have detached := good.paired.detach l
  cases iterator : n.fsid_it with
  | none =>
    have free : s.held l = none := by simp [held, here, iterator]
    rw [free, clearTarget] at detached
    have kept : s.eraseIt n = s := by simp [eraseIt, iterator]
    rw [kept]
    refine ⟨?_, good.distinct, good.bounded⟩
    rw [held_update, cleared]
    exact detached
  | some it =>
    have holds : s.held l = some (n.fsid, it) := by simp [held, here, iterator]
    have entry : s.fsidnode n.fsid = some (it, l) :=
      ownerOf_eq_some.mp ((good.paired l _).mp holds)
    have erased : s.eraseIt n = s.erase it := by simp [eraseIt, iterator]
    rw [erased]
    have entries : ∀ {f j k}, (s.erase it).fsidnode f = some (j, k) →
        s.fsidnode f = some (j, k) := by
      intro f j k found
      exact (Option.filter_eq_some_iff.mp found).1
    refine ⟨?_, fun first second => good.distinct (entries first) (entries second),
      fun found => good.bounded (entries found)⟩
    rw [holds, clearTarget] at detached
    have owners : ownerOf { s.erase it with locals := Function.update s.locals l lost } =
        Function.update s.ownerOf (n.fsid, it) none := by
      funext entry
      obtain ⟨f, j⟩ := entry
      apply Option.ext
      intro k
      by_cases same : (f, j) = (n.fsid, it)
      · rw [same, Function.update_self]
        simp [ownerOf, erase, entry, Option.filter]
      · rw [Function.update_of_ne same, ownerOf_eq_some, ownerOf_eq_some]
        refine ⟨entries, fun found => Option.filter_eq_some_iff.mpr ⟨found, ?_⟩⟩
        rw [decide_eq_true_eq]
        rintro rfl
        exact same (by rw [good.distinct found entry])
    rw [owners]
    have holders := held_update (s := s.erase it) l lost
    rw [cleared] at holders
    exact holders ▸ detached

/-- An id that nobody owns goes into a fresh entry. -/
theorem Good.takeId_free (good : Good s) {l : LocalRef} (unheld : s.held l = none)
    {newfsid : UInt64} (free : s.fsidnode newfsid = none) : Good (s.takeId l newfsid) := by
  have nobody : s.ownerOf (newfsid, s.nextEntry) = none := by simp [ownerOf, free]
  have attached := (good.paired.attach_iff l (newfsid, s.nextEntry)).mpr (.inl nobody)
  rw [unheld, clearTarget] at attached
  simp only [takeId, free]
  constructor
  · have owners : ownerOf ⟨Function.update s.fsidnode newfsid (some (s.nextEntry, l)),
        Function.update s.locals l (some ⟨newfsid, some s.nextEntry⟩), s.nextEntry + 1⟩ =
        Function.update s.ownerOf (newfsid, s.nextEntry) (some l) :=
      ownerOf_update rfl (by simp [free])
    rw [owners]
    have holders := held_update (s := s) l (some ⟨newfsid, some s.nextEntry⟩)
    exact holders ▸ attached
  · intro f f' it k k' first second
    simp only [Function.update_apply] at first second
    split at first <;> split at second
    · simp [*]
    · cases first
      exact absurd (good.bounded second) (lt_irrefl _)
    · cases second
      exact absurd (good.bounded first) (lt_irrefl _)
    · exact good.distinct first second
  · intro f it k found
    simp only [Function.update_apply] at found
    split at found
    · cases found
      exact Nat.lt_succ_self _
    · exact Nat.lt_succ_of_lt (good.bounded found)

/-- An id that has an owner takes the entry over. -/
theorem Good.takeId_owned (good : Good s) {l other : LocalRef} (unheld : s.held l = none)
    {newfsid : UInt64} {it : Nat} (owned : s.fsidnode newfsid = some (it, other)) :
    Good (s.takeId l newfsid) := by
  have holds : s.held other = some (newfsid, it) :=
    (good.paired other _).mpr (ownerOf_eq_some.mpr owned)
  have different : other ≠ l := by
    rintro rfl
    rw [holds] at unheld
    cases unheld
  have revoked := good.paired.detach other
  rw [holds, clearTarget] at revoked
  have attached := (revoked.attach_iff l (newfsid, it)).mpr (.inl (Function.update_self ..))
  rw [Function.update_of_ne (Ne.symm different), unheld, clearTarget, Function.update_idem]
    at attached
  simp only [takeId, owned]
  constructor
  · convert attached using 1
    · have holders := held_revoke (s := { s with
        locals := Function.update s.locals l (some ⟨newfsid, some it⟩) }) other
      rw [held_update, Function.update_comm (Ne.symm different)] at holders
      exact holders
    · exact ownerOf_update rfl (by simp [owned])
  · -- the entry only changes its owner
    have entries : ∀ {f j k}, Function.update s.fsidnode newfsid (some (it, l)) f = some (j, k) →
        ∃ k, s.fsidnode f = some (j, k) := by
      intro f j k found
      rw [Function.update_apply] at found
      split at found
      · cases found
        subst f
        exact ⟨_, owned⟩
      · exact ⟨k, found⟩
    intro f f' j k k' first second
    obtain ⟨_, first⟩ := entries first
    obtain ⟨_, second⟩ := entries second
    exact good.distinct first second
  · intro f j k found
    simp only [Function.update_apply] at found
    split at found
    · cases found
      exact good.bounded owned
    · exact good.bounded found

theorem Good.takeId (good : Good s) {l : LocalRef} (unheld : s.held l = none)
    (newfsid : UInt64) : Good (s.takeId l newfsid) := by
  cases owned : s.fsidnode newfsid with
  | none => exact good.takeId_free unheld owned
  | some entry => exact good.takeId_owned unheld owned

/-- What `l` had does not matter. -/
theorem takeId_update (l : LocalRef) (n : Option FsNode) (newfsid : UInt64) :
    takeId { s with locals := Function.update s.locals l n } l newfsid = s.takeId l newfsid := by
  cases owned : s.fsidnode newfsid with
  | none => simp [Client.takeId, owned]
  | some entry => simp [Client.takeId, revoke, owned]

theorem good_start : Good start where
  paired := fun _ _ => by simp [held, ownerOf, start]
  distinct := fun first => by simp [start] at first
  bounded := fun found => by simp [start] at found

theorem Good.init (good : Good s) (l : LocalRef) (fsid : UInt64) : Good (s.init l fsid) := by
  rw [Client.init]
  split
  · exact good
  · next unused =>
    have unheld : s.held l = none := by simp [held, Option.not_isSome_iff_eq_none.mp unused]
    refine ⟨?_, good.distinct, good.bounded⟩
    rw [held_update, Option.bind_some, Option.map_none, ← unheld, Function.update_eq_self]
    exact good.paired

theorem Good.setfsid (good : Good s) (l : LocalRef) (newfsid : UInt64) :
    Good (s.setfsid l newfsid) := by
  rw [Client.setfsid]
  split
  · exact good
  · next n here =>
    split
    · exact good
    · -- it loses its entry first
      have detached : Good { s.eraseIt n with locals := Function.update s.locals l none } :=
        good.detach here rfl
      have unheld : held { s.eraseIt n with locals := Function.update s.locals l none } l = none :=
        by simp [held]
      have locals : (s.eraseIt n).locals = s.locals := by
        rw [eraseIt]
        split <;> rfl
      rw [← takeId_update l none, locals]
      exact detached.takeId unheld newfsid

theorem Good.destroy (good : Good s) (l : LocalRef) : Good (s.destroy l) := by
  rw [Client.destroy]
  split
  · exact good
  · next n here =>
    have locals : (s.eraseIt n).locals = s.locals := by
      rw [eraseIt]
      split <;> rfl
    dsimp only
    rw [locals]
    exact good.detach here rfl

end Client

open Client

theorem good_step (s : Client) (e : Event) (good : Good s) : Good (step s e) := by
  cases e with
  | init l fsid => exact good.init l fsid
  | setfsid l newfsid => exact good.setfsid l newfsid
  | delete destroyed =>
    rw [step]
    induction destroyed generalizing s with
    | nil => exact good
    | cons l rest ih => exact ih (s.destroy l) (good.destroy l)

/-- Destroying a `LocalNode` leaves the entries of the others in place. -/
theorem destroy_keeps {s : Client} (good : Good s) {l k : LocalRef} (other : k ≠ l) {f : UInt64}
    {it : Nat} (entry : s.fsidnode f = some (it, k)) : (s.destroy l).fsidnode f = some (it, k) := by
  rw [Client.destroy]
  split
  · exact entry
  · next n here =>
    rw [Client.eraseIt]
    split
    · next own iterator =>
      refine Option.filter_eq_some_iff.mpr ⟨entry, ?_⟩
      rw [decide_eq_true_eq]
      rintro rfl
      have holds : s.held l = some (n.fsid, it) := by simp [held, here, iterator]
      have owned := ownerOf_eq_some.mp ((good.paired l _).mp holds)
      have key := good.distinct entry owned
      subst key
      rw [entry] at owned
      cases owned
      exact other rfl
    · exact entry

/-- In every reachable state the map and the iterators agree, so that no entry refers to a
destroyed `LocalNode`, and destroying one leaves the entries of all others in place. -/
theorem fsidnode_indexed (events : List Event) :
    Always step Indexed Client.start events ∧
      ∀ l k f it, k ≠ l → (run step Client.start events).fsidnode f = some (it, k) →
        ((run step Client.start events).destroy l).fsidnode f = some (it, k) := by
  have always := always_of_step good_step good_start events
  refine ⟨always.mono fun s good => indexed_iff.mpr good.paired, ?_⟩
  intro l k f it other entry
  exact destroy_keeps always.at_end other entry

/-- An id passes from one `LocalNode` to another, and the first of them is destroyed. -/
theorem fsidnode_indexed_reassigned :
    let events := [.init 0 7, .setfsid 0 7, .init 1 0, .setfsid 1 7]
    ((run step Client.start events).destroy 0).fsidnode 7 = some (0, 1) :=
  (fsidnode_indexed [.init 0 7, .setfsid 0 7, .init 1 0, .setfsid 1 7]).2 0 1 7 0
    (by decide) rfl

end MegaSdk.Sync.FsIds
