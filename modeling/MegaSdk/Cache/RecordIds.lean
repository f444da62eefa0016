import MegaSdk.Cache.StateCache
import MegaSdk.Crypto.Cbc
import MegaSdk.Lib.Runs
import Mathlib.Data.List.Nodup

/-!
# Record ids and encrypted records

`DbTable::put` and `DbTable::next` of db.cpp with `PaddedCBC` of utils.cpp. Ids are
assigned by a counter that a new session recovers from a scan of the table, in
whatever order the records come. The table is a map from ids to blobs here, and
what a blob decrypts to is the record that the plaintext table of the state cache
holds.
-/

namespace MegaSdk.Cache

open Crypto Runs

namespace PaddedCbc

/-- The byte that ends the data, and the one that fills the last block. -/
def endMark : UInt8 := 69
def filler : UInt8 := 80

/-- The padding of `encrypt`: the end mark, then up to the block size. -/
def pad (data : Bytes) : Bytes :=
  let marked := data ++ [endMark]
  marked ++ List.replicate ((marked.length + 15) / 16 * 16 - marked.length) filler

def encrypt (ecb : Block → Block) (data : Bytes) : Bytes := cbcEncrypt ecb (pad data)

/-- `find_last_of('E')`. -/
def findLast (data : Bytes) : Option Nat :=
  (data.reverse.findIdx? (· = endMark)).map fun i => data.length - 1 - i

def decrypt (ecbd : Block → Block) (data : Bytes) : Option Bytes :=
  if data.length % 16 ≠ 0 then none
  else
    let plain := cbcDecrypt ecbd data
    (findLast plain).map plain.take

/-- Behind the end mark there is nothing but filler, so the last mark is the one that `pad`
appended. -/
theorem findLast_pad (data : Bytes) : findLast (pad data) = some data.length := by
  unfold findLast pad
  dsimp only
  generalize ((data ++ [endMark]).length + 15) / 16 * 16 - (data ++ [endMark]).length = n
  have reversed : (data ++ [endMark] ++ List.replicate n filler).reverse =
      List.replicate n filler ++ endMark :: data.reverse := by simp
  have fill : (List.replicate n filler).findIdx? (fun b => decide (b = endMark)) = none := by
    rw [List.findIdx?_eq_none_iff]
    intro b mem
    rw [(List.mem_replicate.mp mem).2]
    rfl
  rw [reversed, List.findIdx?_append, fill, List.findIdx?_cons]
  simp

theorem blockSize_dvd_pad (data : Bytes) : blockSize ∣ (pad data).length := by
  simp only [pad, List.length_append, List.length_replicate, blockSize]
  omega

/-- Whatever the data is, it comes back. -/
theorem decrypt_encrypt {ecb ecbd : Block → Block} (inverts : ∀ b, ecbd (ecb b) = b)
    (data : Bytes) : decrypt ecbd (encrypt ecb data) = some data := by
  have whole := blockSize_dvd_pad data
  have aligned : (encrypt ecb data).length % 16 = 0 := by
    rw [encrypt, length_cbcEncrypt ecb whole]
    exact Nat.mod_eq_zero_of_dvd whole
  rw [decrypt, if_neg (not_not_intro aligned), encrypt, cbcDecrypt_encrypt inverts whole]
  dsimp only
  rw [findLast_pad, Option.map_some, pad, List.append_assoc, List.take_left]

end PaddedCbc

namespace DbTable

/-- `DbTable::put` of what a record serializes to, padded and encrypted. -/
def putSealed (ecb : Block → Block) (t : DbTable) (type dbid : Nat) (record : Option Bytes) :
    Nat × DbTable :=
  t.put type dbid (record.map (PaddedCbc.encrypt ecb))

/-- `DbTable::next` at a record: the counter catches up with its id, and all records but the
first are decrypted. -/
def nextRecord (ecbd : Block → Block) (t : DbTable) (id : Nat) (blob : Bytes) :
    DbTable × Option Bytes :=
  if id = 0 then (t, some blob)
  else
    ({ t with nextid := if id > t.nextid then id - id % 16 else t.nextid },
      PaddedCbc.decrypt ecbd blob)

/-- Calls of `DbTable::next` until one returns false, over the records in the order in which
the table lists them: the table and what the calls return. -/
def scan (ecbd : Block → Block) : DbTable → List Nat → DbTable × List (Nat × Bytes)
  | t, [] => (t, [])
  | t, id :: rest =>
    match t.records id with
    | none => scan ecbd t rest
    | some blob =>
      match t.nextRecord ecbd id blob with
      | (t, none) => (t, [])
      | (t, some data) =>
        let later := scan ecbd t rest
        (later.1, (id, data) :: later.2)

/-- The order of a full scan: every id that is present, once. -/
def Lists (t : DbTable) (order : List Nat) : Prop :=
  order.Nodup ∧ ∀ id, id ∈ order ↔ t.records id ≠ none

end DbTable

/-- A table over its sessions. `assigned` lists all ids that were given to records, and `last`
tells what was last serialized under an id. -/
structure Store where
  table : DbTable
  assigned : List Nat
  last : Nat → Option Bytes

inductive StoreEvent where
  /-- A record is put; a new one has no id yet. -/
  | put (type dbid : Nat) (record : Option Bytes)
  /-- The sequence number is put under index 0, in plain. -/
  | putScsn (scsn : Bytes)
  /-- The table is opened again and scanned. -/
  | reopen (order : List Nat)
  /-- The table is scanned once more. -/
  | rescan (order : List Nat)

namespace Store

def empty : Store := ⟨⟨fun _ => none, 0⟩, [], fun _ => none⟩

def step (ecb ecbd : Block → Block) (s : Store) : StoreEvent → Store
  | .put type dbid record =>
    let put := s.table.putSealed ecb type dbid record
    match record with
    | none => { s with table := put.2 }
    | some data =>
      { table := put.2
        assigned := if dbid = 0 then put.1 :: s.assigned else s.assigned
        last := Function.update s.last put.1 (some data) }
  | .putScsn scsn =>
    { s with table := s.table.store 0 scsn, last := Function.update s.last 0 (some scsn) }
  | .reopen order => { s with table := (DbTable.scan ecbd { s.table with nextid := 0 } order).1 }
  | .rescan order => { s with table := (DbTable.scan ecbd s.table order).1 }

/-- What the callers provide: types other than 0 in four bits, ids that records were given,
and full scans. -/
def Legal (s : Store) : StoreEvent → Prop
  | .put type dbid _ => 1 ≤ type ∧ type ≤ 15 ∧ (dbid = 0 ∨ dbid ∈ s.assigned)
  | .putScsn _ => True
  | .reopen order | .rescan order => s.table.Lists order

end Store

namespace DbTable
variable {ecb ecbd : Block → Block}

/-- Every record but the first is the encryption of what was last serialized under its id. -/
def Sealed (ecb : Block → Block) (t : DbTable) (last : Nat → Option Bytes) : Prop :=
  ∀ id, t.records id = if id = 0 then last 0 else (last id).map (PaddedCbc.encrypt ecb)

theorem nextRecord_records (t : DbTable) (id : Nat) (blob : Bytes) :
    (t.nextRecord ecbd id blob).1.records = t.records := by
  rw [nextRecord]
  split <;> rfl

theorem scan_records (t : DbTable) (order : List Nat) :
    (scan ecbd t order).1.records = t.records := by
  induction order generalizing t with
  | nil => rfl
  | cons id rest ih =>
    rw [scan]
    split
    · exact ih t
    · rename_i blob present
      have same : (t.nextRecord ecbd id blob).1.records = t.records := t.nextRecord_records id blob
      split
      · rename_i next
        rwa [next] at same
      · rename_i next
        rw [next] at same
        exact (ih _).trans same

def caughtUp (nextid id : Nat) : Nat :=
  if id ≠ 0 ∧ id > nextid then id - id % 16 else nextid

/-- A round of the scan at a sealed record. -/
theorem scan_cons (inverts : ∀ b, ecbd (ecb b) = b) {t : DbTable} {last : Nat → Option Bytes}
    (seals : t.Sealed ecb last) {id : Nat} (present : t.records id ≠ none) (rest : List Nat) :
    ∃ data, last id = some data ∧
      scan ecbd t (id :: rest) =
        let later := scan ecbd { t with nextid := caughtUp t.nextid id } rest
        (later.1, (id, data) :: later.2) := by
  obtain ⟨blob, here⟩ := Option.ne_none_iff_exists'.mp present
  have content := seals id
  rw [here] at content
  rw [scan, here]
  by_cases first : id = 0
  · rw [if_pos first] at content
    refine ⟨blob, by rw [first, ← content], ?_⟩
    simp [nextRecord, caughtUp, first]
  · rw [if_neg first] at content
    obtain ⟨data, same, rfl⟩ := Option.map_eq_some_iff.mp content.symm
    refine ⟨data, same, ?_⟩
    simp [nextRecord, caughtUp, first, PaddedCbc.decrypt_encrypt inverts]

/-- A scan returns every record as it was last serialized. -/
theorem scan_results (inverts : ∀ b, ecbd (ecb b) = b) {t : DbTable} {last : Nat → Option Bytes}
    (seals : t.Sealed ecb last) {order : List Nat} (present : ∀ id ∈ order, t.records id ≠ none) :
    (scan ecbd t order).2.map (fun r => (r.1, some r.2)) = order.map fun id => (id, last id) := by
  induction order generalizing t with
  | nil => rfl
  | cons id rest ih =>
    rw [List.forall_mem_cons] at present
    obtain ⟨data, same, round⟩ := scan_cons inverts seals present.1 rest
    rw [round]
    dsimp only
    have tail := @ih { t with nextid := caughtUp t.nextid id } seals present.2
    rw [List.map_cons, List.map_cons, same, tail]

/-- The counter after a scan is a multiple of sixteen with no id of the scan beyond its
sixteen, and not above any such number that it started below. -/
theorem scan_nextid (inverts : ∀ b, ecbd (ecb b) = b) {t : DbTable} {last : Nat → Option Bytes}
    (seals : t.Sealed ecb last) {order : List Nat} (present : ∀ id ∈ order, t.records id ≠ none)
    (aligned : t.nextid % 16 = 0) :
    (scan ecbd t order).1.nextid % 16 = 0 ∧ t.nextid ≤ (scan ecbd t order).1.nextid ∧
      (∀ id ∈ order, id < (scan ecbd t order).1.nextid + 16) ∧
      ∀ bound, bound % 16 = 0 → t.nextid ≤ bound → (∀ id ∈ order, id < bound + 16) →
        (scan ecbd t order).1.nextid ≤ bound := by
  induction order generalizing t with
  | nil => exact ⟨aligned, Nat.le_refl _, nofun, fun bound _ below _ => below⟩
  | cons id rest ih =>
    rw [List.forall_mem_cons] at present
    obtain ⟨data, same, round⟩ := scan_cons inverts seals present.1 rest
    have caught : caughtUp t.nextid id % 16 = 0 ∧ t.nextid ≤ caughtUp t.nextid id ∧
        id < caughtUp t.nextid id + 16 ∧ ∀ bound, bound % 16 = 0 → t.nextid ≤ bound →
          id < bound + 16 → caughtUp t.nextid id ≤ bound := by
      rw [caughtUp]
      split
      · refine ⟨by omega, by omega, by omega, fun bound _ _ _ => by omega⟩
      · refine ⟨aligned, Nat.le_refl _, by omega, fun bound _ below _ => below⟩
    obtain ⟨aligned', grown, inside, least⟩ :=
      @ih { t with nextid := caughtUp t.nextid id } seals present.2 caught.1
    rw [round]
    dsimp only at grown ⊢
    refine ⟨aligned', Nat.le_trans caught.2.1 grown, ?_, ?_⟩
    · rw [List.forall_mem_cons]
      exact ⟨by omega, inside⟩
    · intro bound whole below ids
      rw [List.forall_mem_cons] at ids
      exact least bound whole (caught.2.2.2 bound whole below ids.1) ids.2

/-- Putting a sealed record is putting the record itself into the table of plain records. -/
theorem sealed_put {t : DbTable} {last : Nat → Option Bytes} (seals : t.Sealed ecb last)
    {type dbid : Nat} (kind : t.next ||| type ≠ 0) (record : Option Bytes) :
    (t.putSealed ecb type dbid record).1 = (DbTable.put ⟨last, t.nextid⟩ type dbid record).1 ∧
      (t.putSealed ecb type dbid record).2.Sealed ecb
        (DbTable.put ⟨last, t.nextid⟩ type dbid record).2.records ∧
      (t.putSealed ecb type dbid record).2.nextid =
        (DbTable.put ⟨last, t.nextid⟩ type dbid record).2.nextid := by
  cases record with
  | none => exact ⟨rfl, seals, rfl⟩
  | some data =>
    have stored : ∀ {n id : Nat}, id ≠ 0 →
        (DbTable.store ⟨t.records, n⟩ id (PaddedCbc.encrypt ecb data)).Sealed ecb
          (DbTable.store ⟨last, n⟩ id data).records := by
      intro n id other i
      by_cases here : i = id
      · subst here
        simp [store, other]
      · simpa [store, here, Function.update_of_ne other.symm] using seals i
    by_cases new : dbid = 0
    · rw [putSealed, Option.map_some, put, put, if_pos new, if_pos new]
      exact ⟨rfl, stored kind, rfl⟩
    · rw [putSealed, Option.map_some, put, put, if_neg new, if_neg new]
      exact ⟨rfl, stored new, rfl⟩

/-- What a put leaves under each id. -/
theorem put_records (t : DbTable) (type dbid : Nat) (data : Bytes) :
    (t.put type dbid (some data)).2.records =
      Function.update t.records (t.put type dbid (some data)).1 (some data) := by
  rw [put]
  split <;> rfl

end DbTable

namespace Store
variable {ecb ecbd : Block → Block}

/-- The ids of a store are below the counter's next multiple of sixteen, and the table holds
what was last serialized under each of them. -/
structure Sound (ecb : Block → Block) (s : Store) : Prop where
  aligned : s.table.nextid % 16 = 0
  bounded : s.table.nextid ≤ 16 * s.assigned.length
  below : ∀ id ∈ s.assigned, id % 16 ≠ 0 ∧ id < s.table.nextid + 16
  distinct : s.assigned.Nodup
  written : ∀ id, id ≠ 0 → (s.last id ≠ none ↔ id ∈ s.assigned)
  seals : s.table.Sealed ecb s.last

theorem sound_empty : Sound ecb empty := by
  refine ⟨rfl, Nat.zero_le _, nofun, List.nodup_nil, fun id _ => ?_, fun id => ?_⟩
  · simp [empty]
  · simp [empty]

namespace Sound
variable {s : Store}

theorem present_iff (sound : Sound ecb s) {id : Nat} (other : id ≠ 0) :
    s.table.records id ≠ none ↔ id ∈ s.assigned := by
  rw [sound.seals id, if_neg other, ← sound.written id other, ne_eq, Option.map_eq_none_iff]

/-- The id that a new record is given, while ids are left. -/
theorem next_id (sound : Sound ecb s) {type : Nat} (kind : 1 ≤ type ∧ type ≤ 15)
    (room : s.assigned.length + 1 < 2 ^ 28) :
    s.table.next = s.table.nextid + 16 ∧
      s.table.next ||| type = s.table.nextid + 16 + type := by
  have bounded := sound.bounded
  have aligned := sound.aligned
  have next : s.table.next = s.table.nextid + 16 := Nat.mod_eq_of_lt (by omega)
  refine ⟨next, ?_⟩
  rw [next]
  exact or_type type (by omega) (by omega)

/-- A new id is not in use, and tells the type. -/
theorem fresh (sound : Sound ecb s) {type : Nat} (kind : 1 ≤ type ∧ type ≤ 15) :
    let id := s.table.nextid + 16 + type
    id ∉ s.assigned ∧ s.table.records id = none ∧ id &&& 15 = type := by
  have unassigned : s.table.nextid + 16 + type ∉ s.assigned := by
    intro mem
    have below := (sound.below _ mem).2
    omega
  refine ⟨unassigned, ?_, ?_⟩
  · rw [← not_ne_iff, sound.present_iff (by omega)]
    exact unassigned
  · have aligned := sound.aligned
    rw [show 15 = 2 ^ 4 - 1 from rfl, Nat.and_two_pow_sub_one_eq_mod]
    omega

theorem put (sound : Sound ecb s) {type dbid : Nat} {record : Option Bytes}
    (kind : 1 ≤ type ∧ type ≤ 15) (known : dbid = 0 ∨ dbid ∈ s.assigned)
    (room : (step ecb ecbd s (.put type dbid record)).assigned.length < 2 ^ 28) :
    Sound ecb (step ecb ecbd s (.put type dbid record)) := by
  cases record with
  | none =>
    exact ⟨sound.aligned, sound.bounded, sound.below, sound.distinct, sound.written, sound.seals⟩
  | some data =>
    have positive : s.table.next ||| type ≠ 0 := by
      intro zero
      exact absurd (Nat.or_eq_zero_iff.mp zero).2 (by omega)
    obtain ⟨id, seals, -⟩ := @DbTable.sealed_put ecb s.table s.last sound.seals type dbid
      positive (some data)
    rw [DbTable.put_records, ← id] at seals
    by_cases new : dbid = 0
    · subst new
      simp only [step, if_true, List.length_cons] at room
      obtain ⟨next, given⟩ := sound.next_id kind room
      have put : s.table.putSealed ecb type 0 (some data) = (s.table.nextid + 16 + type,
          { s.table with nextid := s.table.nextid + 16 }.store (s.table.nextid + 16 + type)
            (PaddedCbc.encrypt ecb data)) := by
        rw [DbTable.putSealed, Option.map_some, DbTable.put, if_pos rfl, given, next]
      simp only [step, if_true, put] at seals ⊢
      obtain ⟨unassigned, -, -⟩ := sound.fresh kind
      have aligned := sound.aligned
      have bounded := sound.bounded
      refine ⟨?_, ?_, ?_, List.nodup_cons.mpr ⟨unassigned, sound.distinct⟩, ?_, seals⟩
      · change (s.table.nextid + 16) % 16 = 0
        omega
      · change s.table.nextid + 16 ≤ 16 * (s.assigned.length + 1)
        omega
      · rw [List.forall_mem_cons]
        refine ⟨⟨by omega, ?_⟩, fun i mem => ⟨(sound.below i mem).1, ?_⟩⟩
        · change _ < s.table.nextid + 16 + 16
          omega
        · have below := (sound.below i mem).2
          change i < s.table.nextid + 16 + 16
          omega
      · intro i other
        by_cases here : i = s.table.nextid + 16 + type
        · simp [here]
        · dsimp only
          rw [Function.update_of_ne here, sound.written i other, List.mem_cons,
            or_iff_right here]
    · have mem := known.resolve_left new
      have put : s.table.putSealed ecb type dbid (some data) =
          (dbid, s.table.store dbid (PaddedCbc.encrypt ecb data)) := by
        rw [DbTable.putSealed, Option.map_some, DbTable.put, if_neg new]
      simp only [step, if_neg new, put] at seals ⊢
      refine ⟨sound.aligned, sound.bounded, sound.below, sound.distinct, ?_, seals⟩
      intro i other
      by_cases here : i = dbid
      · simp [here, mem]
      · dsimp only
        rw [Function.update_of_ne here, sound.written i other]

theorem putScsn (sound : Sound ecb s) (scsn : Bytes) :
    Sound ecb (step ecb ecbd s (.putScsn scsn)) := by
  refine ⟨sound.aligned, sound.bounded, sound.below, sound.distinct, ?_, ?_⟩
  · intro id other
    rw [step]
    dsimp only
    rw [Function.update_of_ne other]
    exact sound.written id other
  · intro id
    by_cases first : id = 0
    · simp [step, DbTable.store, first]
    · simpa [step, DbTable.store, first] using sound.seals id

/-- Scanning a table from a counter that is not too high makes the counter right. -/
theorem scanned (inverts : ∀ b, ecbd (ecb b) = b) (sound : Sound ecb s) {order : List Nat}
    {start : Nat} (whole : start % 16 = 0) (low : start ≤ 16 * s.assigned.length)
    (lists : s.table.Lists order) :
    Sound ecb { s with table := (DbTable.scan ecbd { s.table with nextid := start } order).1 } := by
  have bounded := sound.bounded
  have present : ∀ id ∈ order, s.table.records id ≠ none := fun id => (lists.2 id).mp
  obtain ⟨aligned, -, inside, least⟩ :=
    @DbTable.scan_nextid ecb ecbd inverts { s.table with nextid := start } s.last sound.seals order
      present whole
  refine ⟨aligned, ?_, ?_, sound.distinct, sound.written, ?_⟩
  · refine least _ (by omega) low fun id mem => ?_
    change id < 16 * s.assigned.length + 16
    by_cases first : id = 0
    · omega
    · have below := (sound.below id ((sound.present_iff first).mp (present id mem))).2
      omega
  · intro id mem
    have below := (sound.below id mem).1
    refine ⟨below, inside id ((lists.2 id).mpr ?_)⟩
    exact (sound.present_iff (by rintro rfl; exact below rfl)).mpr mem
  · intro id
    dsimp only
    rw [DbTable.scan_records]
    exact sound.seals id

/-- Every step of a session keeps a store sound, while ids are left. -/
theorem step (inverts : ∀ b, ecbd (ecb b) = b) (sound : Sound ecb s) {e : StoreEvent}
    (legal : s.Legal e) (room : (Store.step ecb ecbd s e).assigned.length < 2 ^ 28) :
    Sound ecb (Store.step ecb ecbd s e) := by
  cases e with
  | put type dbid record => exact sound.put ⟨legal.1, legal.2.1⟩ legal.2.2 room
  | putScsn scsn => exact sound.putScsn scsn
  | reopen order => exact sound.scanned inverts rfl (Nat.zero_le _) legal
  | rescan order => exact sound.scanned inverts sound.aligned sound.bounded legal

end Sound

theorem assigned_step (s : Store) (e : StoreEvent) :
    s.assigned.length ≤ (step ecb ecbd s e).assigned.length := by
  cases e with
  | put type dbid record =>
    cases record with
    | none => exact Nat.le_refl _
    | some data =>
      simp only [step]
      split
      · exact Nat.le_succ _
      · exact Nat.le_refl _
  | putScsn scsn => exact Nat.le_refl _
  | reopen order => exact Nat.le_refl _
  | rescan order => exact Nat.le_refl _

theorem assigned_run (s : Store) (events : List StoreEvent) :
    s.assigned.length ≤ (run (step ecb ecbd) s events).assigned.length := by
  induction events generalizing s with
  | nil => exact Nat.le_refl _
  | cons e rest ih => exact Nat.le_trans (assigned_step s e) (ih _)

/-- A store is sound after all sessions that assign fewer than 2^28 ids. -/
theorem sound_run (inverts : ∀ b, ecbd (ecb b) = b) {s : Store} (sound : Sound ecb s)
    {events : List StoreEvent} (legal : Meets (step ecb ecbd) Legal s events)
    (few : (run (step ecb ecbd) s events).assigned.length < 2 ^ 28) :
    Sound ecb (run (step ecb ecbd) s events) := by
  induction events generalizing s with
  | nil => exact sound
  | cons e rest ih =>
    have room := Nat.lt_of_le_of_lt (assigned_run (step ecb ecbd s e) rest) few
    exact ih (sound.step inverts legal.1 room) legal.2 few

/-- Over any sessions of a table, the ids of its records are distinct, the next new id is not in
use and tells its type, and a scan in any order returns for every id that was assigned what
was last serialized under it. -/
theorem distinct_and_kept (ecb ecbd : Block → Block) (inverts : ∀ b, ecbd (ecb b) = b)
    (events : List StoreEvent) (legal : Meets (step ecb ecbd) Legal empty events)
    (few : (run (step ecb ecbd) empty events).assigned.length < 2 ^ 28) :
    let s := run (step ecb ecbd) empty events
    s.assigned.Nodup ∧
      (∀ type record, 1 ≤ type → type ≤ 15 → s.assigned.length + 1 < 2 ^ 28 →
        let id := (s.table.putSealed ecb type 0 (some record)).1
        id ∉ s.assigned ∧ s.table.records id = none ∧ id &&& 15 = type) ∧
      ∀ order, s.table.Lists order → (∀ id ∈ s.assigned, id ∈ order) ∧
        (DbTable.scan ecbd s.table order).2.map (fun r => (r.1, some r.2)) =
          order.map fun id => (id, s.last id) := by
  intro s
  have sound : Sound ecb s := sound_run inverts sound_empty legal few
  refine ⟨sound.distinct, ?_, ?_⟩
  · intro type record least most room
    have given : (s.table.putSealed ecb type 0 (some record)).1 = s.table.nextid + 16 + type := by
      rw [DbTable.putSealed, Option.map_some, DbTable.put, if_pos rfl]
      exact (sound.next_id ⟨least, most⟩ room).2
    rw [given]
    exact sound.fresh ⟨least, most⟩
  · intro order lists
    refine ⟨?_, DbTable.scan_results inverts sound.seals fun id => (lists.2 id).mp⟩
    intro id mem
    have other : id ≠ 0 := by
      rintro rfl
      exact (sound.below 0 mem).1 rfl
    exact (lists.2 id).mpr ((sound.present_iff other).mpr mem)

/-- Two records of different types, a new session that sees the later one first, and an
update of the earlier one. -/
def twoRecords : List StoreEvent :=
  [.put 1 0 (some (ascii "node")), .put 2 0 (some (ascii "userE")), .reopen [34, 17],
    .put 1 17 (some (ascii "nodes"))]

theorem twoRecords_kept :
    (run (step id id) empty twoRecords).assigned = [34, 17] ∧
      (((run (step id id) empty twoRecords).table.putSealed id 1 0 (some [])).1 ∉ [34, 17] ∧
        (run (step id id) empty twoRecords).last 17 = some (ascii "nodes")) := by
  have lists : (run (step id id) empty (twoRecords.take 2)).table.Lists [34, 17] := by
    refine ⟨by decide, fun i => ?_⟩
    by_cases first : i = 17
    · subst first
      exact ⟨fun _ => nofun, fun _ => by decide⟩
    · by_cases second : i = 34
      · subst second
        exact ⟨fun _ => nofun, fun _ => by decide⟩
      · have absent : (run (step id id) empty (twoRecords.take 2)).table.records i = none := by
          simp [run, twoRecords, step, empty, DbTable.putSealed, DbTable.put, DbTable.next,
            DbTable.store, first, second]
        simp [first, second, absent]
  have legal : Meets (step id id) Legal empty twoRecords :=
    ⟨⟨by decide, by decide, Or.inl rfl⟩, ⟨by decide, by decide, Or.inl rfl⟩, lists,
      ⟨by decide, by decide, Or.inr (by decide)⟩, trivial⟩
  have kept := distinct_and_kept id id (fun _ => rfl) twoRecords legal (by decide)
  exact ⟨rfl, (kept.2.1 1 [] (by decide) (by decide) (by decide)).1, rfl⟩

end Store

end MegaSdk.Cache
