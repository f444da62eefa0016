import MegaSdk.Crypto.Cbc
import Mathlib.Logic.Equiv.Basic

/-!
# Fetching file attributes

fileattributefetch.cpp: the attributes of one cluster arrive in one response, first a header
for each of them with its handle and its position, then the encrypted attributes. `parse`
runs over what has arrived so far, decrypts in place and remembers in `completed` how many
bytes of the headers it has dealt with. Only the last call knows where the last attribute
ends.
-/

namespace MegaSdk.Xfer

open Crypto ByteOrder

structure FileAttributeFetch where
  nodehandle : UInt64
  type : UInt16
  fac : Int
  dispatched : Bool
  retries : UInt8
  tag : Int
  deriving DecidableEq, Repr

/-- The calls of the application, with `restag`. -/
inductive FaReport where
  | complete (node : UInt64) (type : UInt16) (data : Bytes) (restag : Int)
  | failed (node : UInt64) (type : UInt16) (retries : UInt8) (restag : Int)
  deriving DecidableEq, Repr

/-- What the client holds around a channel: the keys of its nodes, and whether the
application gives up on a failed fetch. -/
structure FaClient where
  nodekey : UInt64 → Option Block
  giveup : UInt64 → UInt16 → UInt8 → Bool
  aesd : Aes

/-- A `FileAttributeFetchChannel` with the data received for its request, the pending
fetches of the client and the calls of the application. -/
structure FaChannel where
  data : Bytes
  completed : Nat
  fafs : List (UInt64 × FileAttributeFetch)
  reports : List FaReport

inductive FaFault where
  | overrun
  deriving DecidableEq, Repr

/-- `sizeof(FaPos)`. -/
def faPosSize : Nat := 12

def faPos (data : Bytes) (offset : Nat) : Except FaFault (UInt64 × Nat) :=
  if offset + faPosSize ≤ data.length then
    .ok (UInt64.ofNat (ofLe ((data.drop offset).take 8)),
      ofLe ((data.drop (offset + 8)).take 4))
  else .error .overrun

/-- `faf_failed`: whether a pending fetch stays. -/
def failedFetch (client : FaClient) (fac : Int) (entry : UInt64 × FileAttributeFetch) :
    Option (UInt64 × FileAttributeFetch) :=
  let f := entry.2
  if f.fac ≠ fac then some entry
  else if f.dispatched && client.giveup f.nodehandle f.type f.retries then none
  else some (entry.1, { f with retries := f.retries + 1 })

def fafFailed (client : FaClient) (fac : Int) (c : FaChannel) : FaChannel :=
  { c with
    fafs := c.fafs.filterMap (failedFetch client fac)
    reports := c.reports ++ c.fafs.filterMap fun entry =>
      let f := entry.2
      if f.fac = fac && f.dispatched then some (.failed f.nodehandle f.type f.retries f.tag)
      else none }

def FaChannel.find (c : FaChannel) (h : UInt64) : Option FileAttributeFetch :=
  (c.fafs.find? fun entry => entry.1 = h).map Prod.snd

/-- Decryption in place, the call of the application, and the end of the fetch. -/
def deliver (client : FaClient) (c : FaChannel) (h : UInt64) (f : FileAttributeFetch)
    (key : Block) (fapos falen : Nat) : FaChannel :=
  let plain := cbcDecrypt (client.aesd key) ((c.data.drop fapos).take falen)
  { data := c.data.take fapos ++ plain ++ c.data.drop (fapos + falen)
    completed := c.completed + faPosSize
    fafs := c.fafs.filter fun entry => entry.1 ≠ h
    reports := c.reports ++ [.complete f.nodehandle f.type plain f.tag] }

/-- How a round of the loop of `parse` ends. -/
inductive FaFlow where
  | next | done | failed
  deriving DecidableEq, Repr

/-- The body of the loop of `parse`; `falen` is 32 bits wide. -/
def parseEntry (client : FaClient) (falen : Nat) (c : FaChannel) :
    Except FaFault (FaFlow × FaChannel) :=
  match faPos c.data c.completed with
  | .error fault => .error fault
  | .ok (h, fapos) =>
    match c.find h with
    | none => .ok (.failed, c)
    | some f =>
      match client.nodekey f.nodehandle with
      | none => .ok (.next, { c with completed := c.completed + faPosSize })
      | some key =>
        let falen := (falen + 2 ^ 32 - fapos) % 2 ^ 32
        if falen % blockSize ≠ 0 then .ok (.failed, c)
        else if fapos + falen ≤ c.data.length then
          .ok (.next, deliver client c h f key fapos falen)
        else .error .overrun

/-- `bod - (final ? 0 : sizeof(FaPos))`, which wraps around in 64 bits. -/
def faLimit (final : Bool) (bod : Nat) : Nat :=
  if final then bod
  else if faPosSize ≤ bod then bod - faPosSize
  else 2 ^ 64 - (faPosSize - bod)

/-- The condition of the loop of `parse` with the end of the next attribute: the position
in the next header, or the end of the data. -/
def parseRound (client : FaClient) (final : Bool) (bod : Nat) (c : FaChannel) :
    Except FaFault (FaFlow × FaChannel) :=
  if c.completed < faLimit final bod then
    if final then
      let falen := c.data.length % 2 ^ 32
      if falen ≤ c.data.length then parseEntry client falen c else .ok (.done, c)
    else
      match faPos c.data (c.completed + faPosSize) with
      | .error fault => .error fault
      | .ok (_, falen) =>
        if falen ≤ c.data.length then parseEntry client falen c else .ok (.done, c)
  else .ok (.done, c)

/-- The loop of `parse`. Each round deals with a header, so the data bounds their number. -/
def parseLoop (client : FaClient) (final : Bool) (bod : Nat) :
    Nat → FaChannel → Except FaFault (FaFlow × FaChannel)
  | 0, c => .ok (.done, c)
  | fuel + 1, c =>
    match parseRound client final bod c with
    | .ok (.next, c) => parseLoop client final bod fuel c
    | outcome => outcome

def parse (client : FaClient) (fac : Int) (final : Bool) (c : FaChannel) :
    Except FaFault FaChannel :=
  let incomplete := if final then fafFailed client fac c else c
  match faPos c.data 0 with
  | .error _ => .ok incomplete
  | .ok (_, bod) =>
    if c.data.length < bod then .ok incomplete
    else
      match parseLoop client final bod (c.data.length + 1) c with
      | .error fault => .error fault
      | .ok (.failed, c) => .ok (fafFailed client fac c)
      | .ok (_, c) => .ok (if final && c.completed ≠ bod then fafFailed client fac c else c)

/-- The arrival of a piece of the response, and the call that follows. -/
def receivePiece (client : FaClient) (fac : Int) (c : FaChannel) (piece : Bytes) :
    Except FaFault FaChannel :=
  parse client fac false { c with data := c.data ++ piece }

/-- The arrival of a whole response in pieces, and the final call. -/
def arrive (client : FaClient) (fac : Int) (c : FaChannel) (pieces : List Bytes) :
    Except FaFault FaChannel :=
  (pieces.foldlM (receivePiece client fac) c).bind (parse client fac true)

/-- An attribute in a response: the pending fetch, the key of its node and the encrypted
attribute. -/
structure FaItem where
  handle : UInt64
  fetch : FileAttributeFetch
  key : Block
  data : Bytes

/-- The encrypted attributes one after the other. -/
def faBodies (items : List FaItem) : Bytes := items.flatMap FaItem.data

/-- The headers of attributes that start at a position. -/
def faHeaders : Nat → List FaItem → Bytes
  | _, [] => []
  | pos, item :: rest =>
    leBytes 8 item.handle.toNat ++ leBytes 4 pos ++ faHeaders (pos + item.data.length) rest

def faResponse (items : List FaItem) : Bytes :=
  faHeaders (faPosSize * items.length) items ++ faBodies items

/-- A response that the client asked for: different handles, each of them pending for an
existing node, whole blocks, and positions of 32 bits. -/
structure FaWellFormed (client : FaClient) (fafs : List (UInt64 × FileAttributeFetch))
    (items : List FaItem) : Prop where
  nonempty : items ≠ []
  distinct : (items.map FaItem.handle).Nodup
  whole : ∀ item ∈ items, blockSize ∣ item.data.length
  pending : ∀ item ∈ items, (fafs.find? fun entry => entry.1 = item.handle) =
    some (item.handle, item.fetch)
  node : ∀ item ∈ items, client.nodekey item.fetch.nodehandle = some item.key
  small : (faResponse items).length < 2 ^ 32

/-- An attribute decrypted with the key of its own node. -/
def FaItem.plain (client : FaClient) (item : FaItem) : Bytes :=
  cbcDecrypt (client.aesd item.key) item.data

/-- The call of the application for an attribute. -/
def FaItem.report (client : FaClient) (item : FaItem) : FaReport :=
  .complete item.fetch.nodehandle item.fetch.type (item.plain client) item.fetch.tag

theorem length_faHeaders (pos : Nat) (items : List FaItem) :
    (faHeaders pos items).length = faPosSize * items.length := by
  induction items generalizing pos with
  | nil => rfl
  | cons item rest ih =>
    simp only [faHeaders, List.length_append, length_leBytes, ih, List.length_cons, faPosSize]
    omega

theorem headers_le (items : List FaItem) :
    faPosSize * items.length ≤ (faResponse items).length := by
  rw [faResponse, List.length_append, length_faHeaders]
  exact Nat.le_add_right _ _

theorem faHeaders_append (pos : Nat) (xs ys : List FaItem) :
    faHeaders pos (xs ++ ys) =
      faHeaders pos xs ++ faHeaders (pos + (faBodies xs).length) ys := by
  induction xs generalizing pos with
  | nil => rfl
  | cons x xs ih =>
    simp only [List.cons_append, faHeaders, ih, faBodies, List.flatMap_cons, List.length_append,
      List.append_assoc, Nat.add_assoc]

/-- A header is read where it stands. -/
theorem faPos_header (before after : Bytes) (h : UInt64) {pos : Nat} (small : pos < 2 ^ 32) :
    faPos (before ++ (leBytes 8 h.toNat ++ leBytes 4 pos ++ after)) before.length =
      .ok (h, pos) := by
  have room : before.length + faPosSize ≤
      (before ++ (leBytes 8 h.toNat ++ leBytes 4 pos ++ after)).length := by
    simp only [List.length_append, length_leBytes, faPosSize]
    omega
  have handle : ((before ++ (leBytes 8 h.toNat ++ leBytes 4 pos ++ after)).drop
      before.length).take 8 = leBytes 8 h.toNat := by
    rw [List.drop_left, List.append_assoc]
    exact List.take_left' (length_leBytes 8 _)
  have position : ((before ++ (leBytes 8 h.toNat ++ leBytes 4 pos ++ after)).drop
      (before.length + 8)).take 4 = leBytes 4 pos := by
    rw [← List.drop_drop, List.drop_left, List.append_assoc,
      List.drop_left' (length_leBytes 8 _)]
    exact List.take_left' (length_leBytes 4 _)
  rw [faPos, if_pos room, handle, position, ofLe_leBytes, ofLe_leBytes,
    Nat.mod_eq_of_lt (show h.toNat < 256 ^ 8 from h.toNat_lt),
    Nat.mod_eq_of_lt (show pos < 256 ^ 4 from small), UInt64.ofNat_toNat]

theorem take_prefix {data left front back : Bytes} (same : data ++ left = front ++ back)
    (long : front.length ≤ data.length) : ∃ tail, data = front ++ tail ∧ back = tail ++ left := by
  rcases List.append_eq_append_iff.mp same with ⟨t, rfl, rfl⟩ | ⟨t, rfl, rfl⟩
  · rw [List.length_append] at long
    obtain rfl : t = [] := List.eq_nil_of_length_eq_zero (by omega)
    exact ⟨[], by simp, rfl⟩
  · exact ⟨t, rfl, rfl⟩

/-- The attributes of `done` have been delivered, those of `todo` have not, and `left` has
not arrived yet. -/
structure FaProgress (client : FaClient) (fafs : List (UInt64 × FileAttributeFetch))
    (reports : List FaReport) (done todo : List FaItem) (left : Bytes) (c : FaChannel) : Prop where
  data : c.data ++ left = faHeaders (faPosSize * (done ++ todo).length) (done ++ todo) ++
    (done.flatMap (FaItem.plain client) ++ faBodies todo)
  completed : c.completed = faPosSize * done.length
  fafs : c.fafs = fafs.filter fun entry => entry.1 ∉ done.map FaItem.handle
  reports : c.reports = reports ++ done.map (FaItem.report client)

section Progress
variable {client : FaClient} {fafs : List (UInt64 × FileAttributeFetch)} {reports : List FaReport}
  {done todo : List FaItem} {left : Bytes} {c : FaChannel}

/-- The position at which the first attribute of `todo` starts. -/
def faStart (done todo : List FaItem) : Nat :=
  faPosSize * (done ++ todo).length + (faBodies done).length

theorem faStart_le {done todo : List FaItem} :
    faStart done todo ≤ (faResponse (done ++ todo)).length := by
  simp only [faStart, faResponse, List.length_append, length_faHeaders, faBodies,
    List.flatMap_append]
  omega

theorem faStart_next (done : List FaItem) (item : FaItem) (todo : List FaItem) :
    faStart (done ++ [item]) todo = faStart done (item :: todo) + item.data.length := by
  simp [faStart, faBodies]
  omega

theorem length_plain (client : FaClient) (formed : ∀ item ∈ done, blockSize ∣ item.data.length) :
    (done.flatMap (FaItem.plain client)).length = (faBodies done).length := by
  induction done with
  | nil => rfl
  | cons item done ih =>
    have first := length_cbcDecrypt (client.aesd item.key) (formed item List.mem_cons_self)
    have others := ih fun i mem => formed i (List.mem_cons_of_mem _ mem)
    simp only [faBodies] at others
    rw [faBodies, List.flatMap_cons, List.flatMap_cons, List.length_append, List.length_append,
      others, FaItem.plain, first]

/-- Decryption keeps all lengths. -/
theorem FaProgress.length (progress : FaProgress client fafs reports done todo left c)
    (formed : FaWellFormed client fafs (done ++ todo)) :
    c.data.length + left.length = (faResponse (done ++ todo)).length := by
  have plain := length_plain client fun i mem =>
    formed.whole i (List.mem_append_left todo mem)
  rw [← List.length_append, progress.data, faResponse]
  simp only [List.length_append, plain, faBodies, List.flatMap_append]

/-- Once all headers are there, each of them can be read. -/
theorem faPos_headers {data tail : Bytes} {items before after : List FaItem} {item : FaItem}
    (read : data = faHeaders (faPosSize * items.length) items ++ tail)
    (small : (faResponse items).length < 2 ^ 32) (split : items = before ++ item :: after) :
    faPos data (faPosSize * before.length) = .ok (item.handle, faStart before (item :: after)) := by
  have start : faStart before (item :: after) < 2 ^ 32 := by
    refine Nat.lt_of_le_of_lt faStart_le ?_
    rw [← split]
    exact small
  rw [read, split, faHeaders_append, faHeaders,
    ← length_faHeaders (faPosSize * (before ++ item :: after).length) before, List.append_assoc,
    List.append_assoc]
  exact faPos_header _ _ item.handle start

theorem FaProgress.header (progress : FaProgress client fafs reports done todo left c)
    (formed : FaWellFormed client fafs (done ++ todo))
    (headers : faPosSize * (done ++ todo).length ≤ c.data.length) {before after : List FaItem}
    {item : FaItem} (split : done ++ todo = before ++ item :: after) :
    faPos c.data (faPosSize * before.length) =
      .ok (item.handle, faStart before (item :: after)) := by
  obtain ⟨tail, data, -⟩ := take_prefix progress.data (by rwa [length_faHeaders])
  exact faPos_headers data formed.small split

/-- A fetch is pending until its attribute is delivered. -/
theorem FaWellFormed.find {item : FaItem} (formed : FaWellFormed client fafs (done ++ item :: todo))
    (left : c.fafs = fafs.filter fun entry => entry.1 ∉ done.map FaItem.handle) :
    c.find item.handle = some item.fetch := by
  have pending := formed.pending item (by simp)
  have fresh : item.handle ∉ done.map FaItem.handle := by
    intro mem
    obtain ⟨earlier, before, same⟩ := List.mem_map.mp mem
    have distinct := formed.distinct
    rw [List.map_append, List.nodup_append] at distinct
    exact distinct.2.2 _ (List.mem_map_of_mem before) item.handle (by simp) same
  have kept : (fafs.filter fun entry => entry.1 ∉ done.map FaItem.handle).find?
      (fun entry => entry.1 = item.handle) = fafs.find? fun entry => entry.1 = item.handle := by
    rw [List.find?_filter]
    congr 1
    funext entry
    by_cases same : entry.1 = item.handle
    · simp [same, fresh]
    · simp [same]
  rw [FaChannel.find, left, kept, pending, Option.map_some]

/-- Which fetches are pending after one more. -/
theorem pending_next (fafs : List (UInt64 × FileAttributeFetch)) (done : List FaItem)
    (item : FaItem) :
    (fafs.filter fun entry => entry.1 ∉ done.map FaItem.handle).filter
        (fun entry => entry.1 ≠ item.handle) =
      fafs.filter fun entry => entry.1 ∉ (done ++ [item]).map FaItem.handle := by
  rw [List.filter_filter]
  refine List.filter_congr fun entry _ => ?_
  by_cases same : entry.1 = item.handle
  · simp [same]
  · simp [same, -List.mem_map]

/-- Decryption in place changes the slice of the attribute and nothing else. -/
theorem data_deliver (client : FaClient) {c : FaChannel} {front body tail : Bytes}
    (data : c.data = front ++ body ++ tail) (h : UInt64) (f : FileAttributeFetch) (key : Block) :
    deliver client c h f key front.length body.length =
      { data := front ++ cbcDecrypt (client.aesd key) body ++ tail
        completed := c.completed + faPosSize
        fafs := c.fafs.filter fun entry => entry.1 ≠ h
        reports := c.reports ++
          [.complete f.nodehandle f.type (cbcDecrypt (client.aesd key) body) f.tag] } := by
  have slice : (c.data.drop front.length).take body.length = body := by
    rw [data, List.append_assoc, List.drop_left, List.take_left]
  have before : c.data.take front.length = front := by
    rw [data, List.append_assoc, List.take_left]
  have behind : c.data.drop (front.length + body.length) = tail := by
    rw [data, ← List.length_append, List.drop_left]
  rw [deliver, slice, before, behind]

/-- The round that deals with the next attribute, once it is there as a whole. -/
theorem FaProgress.entry {item : FaItem}
    (progress : FaProgress client fafs reports done (item :: todo) left c)
    (formed : FaWellFormed client fafs (done ++ item :: todo))
    (arrived : faStart (done ++ [item]) todo ≤ c.data.length) :
    ∃ c', parseEntry client (faStart (done ++ [item]) todo) c = .ok (.next, c') ∧
      c'.data.length = c.data.length ∧
      FaProgress client fafs reports (done ++ [item]) todo left c' := by
  have step := faStart_next done item todo
  have small : faStart (done ++ [item]) todo < 2 ^ 32 := by
    refine Nat.lt_of_le_of_lt faStart_le ?_
    rw [List.append_assoc]
    exact formed.small
  have whole : item.data.length % blockSize = 0 :=
    Nat.mod_eq_zero_of_dvd (formed.whole item (by simp))
  have header := progress.header formed (by simp [faStart] at arrived ⊢; omega) rfl
  rw [← progress.completed] at header
  have falen : (faStart (done ++ [item]) todo + 2 ^ 32 - faStart done (item :: todo)) % 2 ^ 32 =
      item.data.length := by omega
  have front : (faHeaders (faPosSize * (done ++ item :: todo).length) (done ++ item :: todo) ++
      done.flatMap (FaItem.plain client)).length = faStart done (item :: todo) := by
    rw [List.length_append, length_faHeaders,
      length_plain client fun i mem => formed.whole i (List.mem_append_left _ mem), faStart]
  have data := progress.data
  rw [faBodies, List.flatMap_cons, ← List.append_assoc, ← List.append_assoc] at data
  obtain ⟨tail, received, rest⟩ := take_prefix data (by
    rw [List.length_append, front]
    omega)
  refine ⟨deliver client c item.handle item.fetch item.key (faStart done (item :: todo))
    item.data.length, ?_, ?_, ?_⟩
  · simp only [parseEntry, header, formed.find progress.fafs, formed.node item (by simp), falen,
      whole, ne_eq, not_true_eq_false, if_false]
    exact if_pos (by omega)
  all_goals rw [← front, data_deliver client received]
  · have plain := length_cbcDecrypt (client.aesd item.key) (formed.whole item (by simp))
    simp only [received, List.length_append, plain]
  · have items : done ++ [item] ++ todo = done ++ item :: todo := by simp
    constructor
    · simp [items, faBodies, FaItem.plain, rest]
    · simp [progress.completed, Nat.mul_succ]
    · rw [progress.fafs]
      exact pending_next fafs done item
    · simp [progress.reports, FaItem.report, FaItem.plain]

theorem faLimit_false (n : Nat) : faLimit false (faPosSize * (n + 1)) = faPosSize * n := by
  have long : faPosSize ≤ faPosSize * (n + 1) := by
    rw [Nat.mul_succ]
    exact Nat.le_add_left _ _
  rw [faLimit, if_neg Bool.false_ne_true, if_pos long, Nat.mul_succ, Nat.add_sub_cancel]

/-- What a call while data is arriving leaves: the last attribute is not touched, and if
everything is there, all others are delivered. -/
theorem FaProgress.loop {todo : List FaItem}
    (progress : FaProgress client fafs reports done todo left c)
    (unfinished : todo ≠ []) (formed : FaWellFormed client fafs (done ++ todo))
    (headers : faPosSize * (done ++ todo).length ≤ c.data.length) {fuel : Nat}
    (enough : todo.length ≤ fuel) :
    ∃ done' todo' c', parseLoop client false (faPosSize * (done ++ todo).length) fuel c =
        .ok (.done, c') ∧ done' ++ todo' = done ++ todo ∧ todo' ≠ [] ∧
      (left = [] → todo'.length = 1) ∧ FaProgress client fafs reports done' todo' left c' := by
  induction todo generalizing done c fuel with
  | nil => exact absurd rfl unfinished
  | cons item todo ih =>
    obtain ⟨fuel, rfl⟩ : ∃ f, fuel = f + 1 := ⟨fuel - 1, by simp at enough; omega⟩
    cases todo with
    | nil =>
      refine ⟨done, [item], c, ?_, rfl, unfinished, fun _ => rfl, progress⟩
      have last : ¬c.completed < faLimit false (faPosSize * (done ++ [item]).length) := by
        rw [progress.completed, List.length_append, List.length_singleton, faLimit_false]
        exact Nat.lt_irrefl _
      simp only [parseLoop, parseRound, if_neg last]
    | cons next todo =>
      have split : done ++ item :: next :: todo = done ++ [item] ++ next :: todo := by simp
      have more : c.completed <
          faLimit false (faPosSize * (done ++ item :: next :: todo).length) := by
        rw [progress.completed, List.length_append, List.length_cons, ← Nat.add_assoc,
          faLimit_false, faPosSize, List.length_cons]
        omega
      have header := progress.header formed headers split
      rw [List.length_append, List.length_singleton, Nat.mul_succ, ← progress.completed] at header
      by_cases arrived : faStart (done ++ [item]) (next :: todo) ≤ c.data.length
      · obtain ⟨c', entry, length, progress'⟩ := progress.entry formed arrived
        obtain ⟨done', todo', c'', loop, same, nonempty, last, final⟩ := ih progress' (by simp)
          (by rwa [← split]) (by rw [← split, length]; exact headers)
          (Nat.le_of_succ_le_succ enough)
        refine ⟨done', todo', c'', ?_, same.trans split.symm, nonempty, last, final⟩
        rw [← split] at loop
        simp only [parseLoop, parseRound, Bool.false_eq_true, if_false, if_pos more, header,
          if_pos arrived, entry, loop]
      · refine ⟨done, item :: next :: todo, c, ?_, rfl, unfinished, fun all => ?_, progress⟩
        · simp only [parseLoop, parseRound, Bool.false_eq_true, if_false, if_pos more, header,
            if_neg arrived]
        · have whole := progress.length formed
          have start := @faStart_le (done ++ [item]) (next :: todo)
          rw [← split, ← whole, all] at start
          exact absurd start arrived

/-- The first header tells where the attributes start. -/
theorem FaProgress.bod (progress : FaProgress client fafs reports done todo left c)
    (formed : FaWellFormed client fafs (done ++ todo)) (some : faPosSize ≤ c.data.length) :
    ∃ h, faPos c.data 0 = .ok (h, faPosSize * (done ++ todo).length) := by
  have data := progress.data
  have small : faPosSize * (done ++ todo).length < 2 ^ 32 :=
    Nat.lt_of_le_of_lt (headers_le _) formed.small
  have nonempty := formed.nonempty
  generalize done ++ todo = items at data small nonempty
  cases items with
  | nil => exact absurd rfl nonempty
  | cons item rest =>
    rw [faHeaders, List.append_assoc] at data
    obtain ⟨tail, received, -⟩ := take_prefix data (by
      simpa only [List.length_append, length_leBytes, faPosSize] using some)
    refine ⟨item.handle, ?_⟩
    rw [received]
    exact faPos_header [] tail item.handle small

/-- A call while data is arriving. -/
theorem FaProgress.poll (progress : FaProgress client fafs reports done todo left c)
    (unfinished : todo ≠ []) (formed : FaWellFormed client fafs (done ++ todo)) (fac : Int) :
    ∃ done' todo' c', parse client fac false c = .ok c' ∧ done' ++ todo' = done ++ todo ∧
      todo' ≠ [] ∧ (left = [] → todo'.length = 1) ∧
      FaProgress client fafs reports done' todo' left c' := by
  have total := progress.length formed
  have headers := headers_le (done ++ todo)
  have waiting : c.data.length < faPosSize * (done ++ todo).length → left = [] →
      todo.length = 1 := by
    intro short all
    rw [all, List.length_nil] at total
    omega
  by_cases first : faPosSize ≤ c.data.length
  · obtain ⟨h, bod⟩ := progress.bod formed first
    by_cases short : c.data.length < faPosSize * (done ++ todo).length
    · refine ⟨done, todo, c, ?_, rfl, unfinished, waiting short, progress⟩
      simp only [parse, bod, if_pos short, Bool.false_eq_true, if_false]
    · have enough : todo.length ≤ c.data.length + 1 := by
        simp only [List.length_append, faPosSize] at short
        omega
      obtain ⟨done', todo', c', loop, same, nonempty, last, final⟩ :=
        progress.loop unfinished formed (Nat.le_of_not_lt short) enough
      refine ⟨done', todo', c', ?_, same, nonempty, last, final⟩
      simp only [parse, bod, if_neg short, loop, Bool.false_and, Bool.false_eq_true, if_false]
  · have short : c.data.length < faPosSize * (done ++ todo).length := by
      refine Nat.lt_of_lt_of_le (Nat.lt_of_not_le first) ?_
      have positive := List.length_pos_iff.mpr unfinished
      exact Nat.le_mul_of_pos_right _ (by rw [List.length_append]; omega)
    refine ⟨done, todo, c, ?_, rfl, unfinished, waiting short, progress⟩
    have missing : faPos c.data 0 = .error .overrun := by
      rw [faPos, Nat.zero_add, if_neg first]
    simp only [parse, missing, Bool.false_eq_true, if_false]

/-- What the final call reports of the attributes that are left: it does not look for their ends, so
that each of them gets all the bytes behind its position, decrypted with its key and with those of
the attributes before it. -/
def lastReports (client : FaClient) : Bytes → List FaItem → List FaReport
  | _, [] => []
  | rest, item :: todo =>
    let plain := cbcDecrypt (client.aesd item.key) rest
    .complete item.fetch.nodehandle item.fetch.type plain item.fetch.tag ::
      lastReports client (plain.drop item.data.length) todo

/-- The last of them gets its own bytes. -/
theorem lastReports_singleton (client : FaClient) (item : FaItem) :
    lastReports client (faBodies [item]) [item] = [item.report client] := by
  simp [lastReports, faBodies, FaItem.report, FaItem.plain]

/-- The state of the final call: all has arrived, `rest` is what stands in the place of the
attributes that are left. -/
structure FaLast (client : FaClient) (fafs : List (UInt64 × FileAttributeFetch))
    (done todo : List FaItem) (front rest : Bytes) (c : FaChannel) : Prop where
  data : c.data = faHeaders (faPosSize * (done ++ todo).length) (done ++ todo) ++ (front ++ rest)
  front : front.length = (faBodies done).length
  rest : rest.length = (faBodies todo).length
  completed : c.completed = faPosSize * done.length
  fafs : c.fafs = fafs.filter fun entry => entry.1 ∉ done.map FaItem.handle

theorem FaLast.length {front rest : Bytes} (last : FaLast client fafs done todo front rest c) :
    c.data.length = (faResponse (done ++ todo)).length := by
  rw [last.data, faResponse]
  simp only [List.length_append, last.front, last.rest, faBodies, List.flatMap_append]

theorem dvd_faBodies {items : List FaItem} (whole : ∀ item ∈ items, blockSize ∣ item.data.length) :
    blockSize ∣ (faBodies items).length := by
  induction items with
  | nil => exact Nat.dvd_zero _
  | cons item items ih =>
    rw [faBodies, List.flatMap_cons, List.length_append]
    exact Nat.dvd_add (whole item List.mem_cons_self) (ih fun i mem => whole i (.tail item mem))

/-- A round of the final call. -/
theorem FaLast.entry {item : FaItem} {front rest : Bytes}
    (last : FaLast client fafs done (item :: todo) front rest c)
    (formed : FaWellFormed client fafs (done ++ item :: todo)) :
    ∃ c', parseEntry client c.data.length c = .ok (.next, c') ∧
      c'.data.length = c.data.length ∧
      c'.reports = c.reports ++ [.complete item.fetch.nodehandle item.fetch.type
        (cbcDecrypt (client.aesd item.key) rest) item.fetch.tag] ∧
      FaLast client fafs (done ++ [item]) todo
        (front ++ (cbcDecrypt (client.aesd item.key) rest).take item.data.length)
        ((cbcDecrypt (client.aesd item.key) rest).drop item.data.length) c' := by
  have blocks : blockSize ∣ rest.length :=
    last.rest ▸ dvd_faBodies fun i inside => formed.whole i (List.mem_append_right _ inside)
  have plain := length_cbcDecrypt (client.aesd item.key) blocks
  have start : (faHeaders (faPosSize * (done ++ item :: todo).length) (done ++ item :: todo) ++
      front).length = faStart done (item :: todo) := by
    rw [List.length_append, length_faHeaders, last.front, faStart]
  have total : c.data.length = faStart done (item :: todo) + rest.length := by
    rw [last.data, ← List.append_assoc, List.length_append, start]
  have small : c.data.length < 2 ^ 32 := last.length ▸ formed.small
  have header := faPos_headers last.data formed.small rfl
  rw [← last.completed] at header
  have falen : (c.data.length + 2 ^ 32 - faStart done (item :: todo)) % 2 ^ 32 = rest.length := by
    omega
  have received : c.data = (faHeaders (faPosSize * (done ++ item :: todo).length)
      (done ++ item :: todo) ++ front) ++ rest ++ [] := by
    rw [List.append_nil, last.data, List.append_assoc]
  refine ⟨deliver client c item.handle item.fetch item.key (faStart done (item :: todo))
    rest.length, ?_, ?_⟩
  · simp only [parseEntry, header, formed.find last.fafs, formed.node item (by simp), falen,
      Nat.mod_eq_zero_of_dvd blocks, ne_eq, not_true_eq_false, if_false]
    exact if_pos (by omega)
  · rw [← start, data_deliver client received]
    have items : done ++ [item] ++ todo = done ++ item :: todo := by simp
    have long : item.data.length ≤ rest.length := by
      rw [last.rest, faBodies, List.flatMap_cons, List.length_append]
      exact Nat.le_add_right _ _
    refine ⟨?_, rfl, ?_, ?_, ?_, ?_, ?_⟩
    · simp only [received, List.length_append, plain]
    · simp [items]
    · simp [last.front, faBodies, plain, long]
    · have all := last.rest
      rw [faBodies, List.flatMap_cons, List.length_append] at all
      simp only [List.length_drop, plain, faBodies]
      omega
    · simp [last.completed, Nat.mul_succ]
    · dsimp only
      rw [last.fafs]
      exact pending_next fafs done item

/-- The loop of the final call. -/
theorem FaLast.loop {front rest : Bytes} (last : FaLast client fafs done todo front rest c)
    (formed : FaWellFormed client fafs (done ++ todo)) {fuel : Nat} (enough : todo.length < fuel) :
    ∃ c', parseLoop client true (faPosSize * (done ++ todo).length) fuel c = .ok (.done, c') ∧
      c'.completed = faPosSize * (done ++ todo).length ∧
      c'.reports = c.reports ++ lastReports client rest todo ∧
      c'.fafs = fafs.filter fun entry => entry.1 ∉ (done ++ todo).map FaItem.handle := by
  induction todo generalizing done front rest c fuel with
  | nil =>
    obtain ⟨fuel, rfl⟩ : ∃ f, fuel = f + 1 := ⟨fuel - 1, by omega⟩
    rw [List.append_nil]
    have passed : ¬c.completed < faLimit true (faPosSize * done.length) := by
      rw [last.completed, faLimit, if_pos rfl]
      exact Nat.lt_irrefl _
    refine ⟨c, ?_, last.completed, (List.append_nil _).symm, last.fafs⟩
    rw [parseLoop, parseRound, if_neg passed]
  | cons item todo ih =>
    obtain ⟨fuel, rfl⟩ : ∃ f, fuel = f + 1 := ⟨fuel - 1, by omega⟩
    obtain ⟨c', entry, length, reported, next⟩ := last.entry formed
    have items : done ++ [item] ++ todo = done ++ item :: todo := by simp
    obtain ⟨c'', rounds, completed, reports, pending⟩ :=
      ih next (items ▸ formed) (Nat.lt_of_succ_lt_succ enough)
    rw [items] at rounds completed pending
    have before : c.completed < faLimit true (faPosSize * (done ++ item :: todo).length) := by
      rw [last.completed, faLimit, if_pos rfl, faPosSize, List.length_append, List.length_cons]
      omega
    have small : c.data.length < 2 ^ 32 := last.length ▸ formed.small
    refine ⟨c'', ?_, completed, ?_, pending⟩
    · rw [parseLoop, parseRound, if_pos before, if_pos rfl, Nat.mod_eq_of_lt small,
        if_pos (Nat.le_refl _), entry]
      exact rounds
    · rw [reports, reported, lastReports, List.append_assoc, List.singleton_append]

/-- The final call, whatever was delivered before: it reports all attributes that are left, each
with everything behind its position. -/
theorem FaProgress.lastCall (progress : FaProgress client fafs reports done todo [] c)
    (formed : FaWellFormed client fafs (done ++ todo)) (fac : Int) :
    ∃ c', parse client fac true c = .ok c' ∧
      c'.reports = reports ++ done.map (FaItem.report client) ++
        lastReports client (faBodies todo) todo ∧
      c'.fafs = fafs.filter fun entry => entry.1 ∉ (done ++ todo).map FaItem.handle := by
  have total := progress.length formed
  have data := progress.data
  rw [List.append_nil] at data
  have last : FaLast client fafs done todo (done.flatMap (FaItem.plain client)) (faBodies todo) c :=
    ⟨data, length_plain client fun i mem => formed.whole i (List.mem_append_left _ mem), rfl,
      progress.completed, progress.fafs⟩
  have headers : faPosSize * (done ++ todo).length ≤ c.data.length := by
    rw [last.length]
    exact headers_le _
  have positive := List.length_pos_iff.mpr formed.nonempty
  obtain ⟨h, bod⟩ := progress.bod formed (Nat.le_trans (Nat.le_mul_of_pos_right _ positive) headers)
  have enough : todo.length < c.data.length + 1 := by
    rw [List.length_append, faPosSize] at headers
    omega
  obtain ⟨c', rounds, completed, reported, pending⟩ := last.loop formed enough
  refine ⟨c', ?_, ?_, pending⟩
  · simp only [parse, bod, if_neg (Nat.not_lt_of_le headers), rounds, completed, ne_eq,
      not_true_eq_false, decide_false, Bool.and_false, Bool.false_eq_true, if_false]
  · rw [reported, progress.reports]

/-- The calls while the response arrives in pieces. -/
theorem FaProgress.pieces {pieces : List Bytes}
    (progress : FaProgress client fafs reports done todo pieces.flatten c)
    (unfinished : todo ≠ []) (formed : FaWellFormed client fafs (done ++ todo)) (fac : Int) :
    ∃ done' todo' c', pieces.foldlM (receivePiece client fac) c = .ok c' ∧
      done' ++ todo' = done ++ todo ∧ todo' ≠ [] ∧ (pieces ≠ [] → todo'.length = 1) ∧
      FaProgress client fafs reports done' todo' [] c' := by
  induction pieces generalizing done todo c with
  | nil => exact ⟨done, todo, c, rfl, rfl, unfinished, fun some => absurd rfl some, progress⟩
  | cons piece pieces ih =>
    have arrived : FaProgress client fafs reports done todo pieces.flatten
        { c with data := c.data ++ piece } := by
      refine { progress with data := ?_ }
      rw [List.append_assoc, ← List.flatten_cons]
      exact progress.data
    obtain ⟨done₁, todo₁, c₁, call, same₁, unfinished₁, last₁, progress₁⟩ :=
      arrived.poll unfinished formed fac
    cases pieces with
    | nil =>
      refine ⟨done₁, todo₁, c₁, ?_, same₁, unfinished₁, fun _ => last₁ rfl, progress₁⟩
      rw [List.foldlM_cons, receivePiece, call]
      rfl
    | cons next pieces =>
      obtain ⟨done₂, todo₂, c₂, calls, same₂, unfinished₂, last₂, progress₂⟩ :=
        ih progress₁ unfinished₁ (by rwa [same₁])
      refine ⟨done₂, todo₂, c₂, ?_, same₂.trans same₁, unfinished₂,
        fun _ => last₂ (List.cons_ne_nil _ _), progress₂⟩
      rw [List.foldlM_cons, receivePiece, call]
      exact calls

end Progress

/-- However a well-formed response is cut into pieces, each attribute is delivered exactly
once, with its own slice decrypted with the key of its own node. -/
theorem arrive_delivers (client : FaClient) {fafs : List (UInt64 × FileAttributeFetch)}
    {items : List FaItem} (formed : FaWellFormed client fafs items) (reports : List FaReport)
    (fac : Int) {pieces : List Bytes} (whole : pieces.flatten = faResponse items) :
    ∃ c, arrive client fac ⟨[], 0, fafs, reports⟩ pieces = .ok c ∧
      c.reports = reports ++ items.map (FaItem.report client) ∧
      c.fafs = fafs.filter fun entry => entry.1 ∉ items.map FaItem.handle := by
  have start : FaProgress client fafs reports [] items pieces.flatten ⟨[], 0, fafs, reports⟩ := by
    constructor
    · simp [whole, faResponse]
    · rfl
    · simp
    · simp
  have arrived : pieces ≠ [] := by
    rintro rfl
    have headers := headers_le items
    have positive := List.length_pos_iff.mpr formed.nonempty
    rw [← whole, List.flatten_nil, List.length_nil, faPosSize] at headers
    omega
  obtain ⟨done, todo, c₁, calls, same, -, last, progress⟩ :=
    start.pieces formed.nonempty formed fac
  obtain ⟨item, rfl⟩ := List.length_eq_one_iff.mp (last arrived)
  rw [List.nil_append] at same
  subst same
  obtain ⟨c, call, reported, pending⟩ := progress.lastCall formed fac
  refine ⟨c, ?_, ?_, pending⟩
  · rw [arrive, calls]
    exact call
  · rw [reported, lastReports_singleton, List.map_append, List.append_assoc]
    rfl

/-- Two pending fetches for the nodes 1 and 2, whose keys are 00 01 .. 0f and 0f 0e .. 00;
AES is given by what it does on one block for each key. -/
def sampleClient : FaClient where
  nodekey n :=
    if n = 1 then some (Vector.ofFn fun i => UInt8.ofNat i)
    else if n = 2 then some (Vector.ofFn fun i => UInt8.ofNat (15 - i))
    else none
  giveup _ _ _ := false
  aesd key :=
    if key = Vector.ofFn (fun i => UInt8.ofNat i) then
      Equiv.swap (load (ascii "file attribute 1"))
        #v[22, 253, 206, 17, 67, 229, 103, 247, 138, 252, 182, 198, 26, 137, 93, 219]
    else
      Equiv.swap (load (ascii "file attribute 2"))
        #v[16, 202, 246, 88, 14, 104, 227, 97, 212, 191, 36, 37, 173, 70, 151, 38]

def sampleItems : List FaItem :=
  [{ handle := 71, fetch := ⟨1, 0, 5, true, 0, 3⟩, key := Vector.ofFn fun i => UInt8.ofNat i,
     data := [22, 253, 206, 17, 67, 229, 103, 247, 138, 252, 182, 198, 26, 137, 93, 219] },
   { handle := 72, fetch := ⟨2, 1, 5, true, 0, 4⟩,
     key := Vector.ofFn fun i => UInt8.ofNat (15 - i),
     data := [16, 202, 246, 88, 14, 104, 227, 97, 212, 191, 36, 37, 173, 70, 151, 38] }]

def sampleFafs : List (UInt64 × FileAttributeFetch) :=
  sampleItems.map fun item => (item.handle, item.fetch)

theorem arrive_delivers_two :
    ∃ c, arrive sampleClient 5 ⟨[], 0, sampleFafs, []⟩
        [(faResponse sampleItems).take 30, (faResponse sampleItems).drop 30] = .ok c ∧
      c.reports = [] ++ sampleItems.map (FaItem.report sampleClient) ∧
      c.fafs = sampleFafs.filter fun entry => entry.1 ∉ sampleItems.map FaItem.handle := by
  refine arrive_delivers sampleClient ⟨by decide, by decide, by decide, by decide, ?_, by decide⟩ []
    5 ?_
  · simp [sampleItems, sampleClient]
  · rw [List.flatten_cons, List.flatten_cons, List.flatten_nil, List.append_nil,
      List.take_append_drop]

/-- Without a call while the data arrived the final one gives every attribute but the last one the
bytes of those behind it, too. -/
theorem parse_lastCall (client : FaClient) {fafs : List (UInt64 × FileAttributeFetch)}
    {items : List FaItem} (formed : FaWellFormed client fafs items) (reports : List FaReport)
    (fac : Int) :
    ∃ c, parse client fac true ⟨faResponse items, 0, fafs, reports⟩ = .ok c ∧
      c.reports = reports ++ lastReports client (faBodies items) items ∧
      c.fafs = fafs.filter fun entry => entry.1 ∉ items.map FaItem.handle := by
  have start : FaProgress client fafs reports [] items [] ⟨faResponse items, 0, fafs, reports⟩ := by
    constructor
    · simp [faResponse]
    · rfl
    · simp
    · simp
  obtain ⟨c, call, reported, pending⟩ := start.lastCall formed fac
  refine ⟨c, call, ?_, pending⟩
  rw [reported, List.map_nil, List.append_nil]

example : (parse sampleClient 5 true ⟨faResponse sampleItems, 0, sampleFafs, []⟩).map
    (fun c => c.reports.map fun
      | .complete node _ data _ => (node, data.length)
      | .failed node _ _ _ => (node, 0)) = .ok [(1, 32), (2, 16)] := by decide +kernel

end MegaSdk.Xfer
