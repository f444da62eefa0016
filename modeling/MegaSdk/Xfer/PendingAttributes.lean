import MegaSdk.Base64
import MegaSdk.Cache.NodeRecord
import MegaSdk.Crypto.SymmCipher
import MegaSdk.Lib.OrderedPointers
import MegaSdk.Lib.Runs
import MegaSdk.Tree.ReadNodes
import Mathlib.Data.Prod.Lex

/-!
# File attributes of uploads

The images of a file are stored while the file is being uploaded. An attribute that has been stored
waits in `pendingfa` under the upload handle until a `CommandPutNodes` takes it along or the node
arrives; later ones find the node through `uhnh`.
-/

namespace MegaSdk.Xfer.Attach

open ByteOrder Runs OrderedPointers
open Cache (Handle)
open MegaSdk.Tree (NewNodeSource)

abbrev WideHandle := UInt64

/-- A node handle among the handles of eight bytes. -/
def wide (h : Handle) : WideHandle := UInt64.ofNat h.toNat

/-- `getuploadhandle`, which counts in the last byte in memory first. -/
def getuploadhandle (nextuh : WideHandle) : WideHandle :=
  UInt64.ofNat (ofLe (Crypto.incBytes (leBytes 8 nextuh.toNat).reverse).reverse)

/-- An `HttpReqCommandPutFA`. -/
structure PutFA where
  th : WideHandle
  type : UInt16
  tag : Int
  deriving DecidableEq

/-- An entry of `pendingfa`: upload handle and type, and the attribute handle with its tag. -/
structure PendingFA where
  th : WideHandle
  type : UInt16
  fah : WideHandle
  tag : Int
  deriving DecidableEq

def PendingFA.key (a : PendingFA) : ℕ ×ₗ ℕ := toLex (a.th.toNat, a.type.toNat)

/-- The order of `uhnh`. -/
def pairKey (p : WideHandle × Handle) : ℕ ×ₗ ℕ := toLex (p.1.toNat, p.2.toNat)

/-- The part of a `NewNode` that matters for file attributes. -/
structure NewNode where
  source : NewNodeSource
  uploadhandle : WideHandle
  deriving DecidableEq

/-- The text of an attribute, without the slash in front. -/
def attrText (type : UInt16) (fah : WideHandle) : Bytes :=
  ascii (Nat.repr type.toNat) ++ 42 :: Base64.btoa (leBytes 8 fah.toNat)

/-- Commands that carry file attributes: the new nodes with their `fa` arguments, and an attribute
for a node. -/
inductive Command where
  | putNodes (nodes : List (NewNode × Bytes))
  | attachFA (h : Handle) (type : UInt16) (fah : WideHandle) (tag : Int)
  deriving DecidableEq

/-- `curfa` says whether the first request of `newfa` is being made; `puts` are the new nodes of the
commands that wait for their result, and `reqs` is all that was ever added to the request queue. -/
structure Client where
  nextuh : WideHandle
  newfa : List PutFA
  curfa : Bool
  pendingfa : List PendingFA
  uhnh : List (WideHandle × Handle)
  nodes : Handle → Bool
  puts : List (List NewNode)
  reqs : List Command

/-- The types of the images that could be made, from the largest on. -/
def imagery (resized : UInt16 → Bool) : List UInt16 := [1, 0].filter resized

/-- The entries under a handle, from the lower bound on, and the map without them. -/
def attributesOf (h : WideHandle) (pendingfa : List PendingFA) : List PendingFA × List PendingFA :=
  let bound : ℕ ×ₗ ℕ := toLex (h.toNat, 0)
  let first := pendingfa.takeWhile fun a => a.key < bound
  let it := pendingfa.dropWhile fun a => a.key < bound
  (it.takeWhile fun a => a.th = h, first ++ it.dropWhile fun a => a.th = h)

/-- The body of the loop of `pendingattrstring`. -/
def appendAttr (fa : Bytes) (a : PendingFA) : Bytes :=
  fa ++ (47 :: attrText a.type a.fah).drop (if fa = [] then 1 else 0)

/-- `pendingattrstring`, for the attributes in its range. -/
def attrString (attributes : List PendingFA) : Bytes := attributes.foldl appendAttr []

namespace Client

def start : Client := ⟨0, [], false, [], [], fun _ => false, [], []⟩

variable (s : Client)

def nodebyhandle (h : WideHandle) : Option Handle :=
  if h.toNat < 2 ^ 48 ∧ s.nodes (BitVec.ofNat 48 h.toNat) then some (BitVec.ofNat 48 h.toNat)
  else none

/-- The handle that an upload has become, or the handle itself. -/
def uploaded (th : WideHandle) : WideHandle :=
  match s.uhnh.dropWhile fun p => pairKey p < toLex (th.toNat, 0) with
  | (uh, h) :: _ => if uh = th then wide h else th
  | [] => th

/-- `pendingfa[..] = ..`. -/
def queue (a : PendingFA) : List PendingFA :=
  OrderedPointers.insert PendingFA.key a (s.pendingfa.filter fun b => b.key ≠ a.key)

def putfa (tag : Int) (th : WideHandle) (s : Client) (type : UInt16) : Client :=
  { s with newfa := s.newfa ++ [⟨th, type, tag⟩], curfa := true }

/-- The part of `dispatch` that makes the imagery of an upload. -/
def dispatch (resized : UInt16 → Bool) (tag : Int) : Client :=
  let uh := getuploadhandle s.nextuh
  (imagery resized).foldl (putfa tag uh) { s with nextuh := uh }

/-- The part of `exec` for a request that ended in `REQ_SUCCESS`. -/
def stored (data : Bytes) : Client :=
  match s.curfa, s.newfa with
  | true, fa :: rest =>
    if data.length = 8 then
      let fah := UInt64.ofNat (ofLe data)
      let s := { s with newfa := rest, curfa := false }
      match (s.nodebyhandle (s.uploaded fa.th)).or (s.nodebyhandle fa.th) with
      | some n => { s with reqs := s.reqs ++ [.attachFA n fa.type fah fa.tag] }
      | none => { s with pendingfa := s.queue ⟨fa.th, fa.type, fah, fa.tag⟩ }
    else { s with curfa := false }
  | _, _ => s

/-- The loop of the constructor of `CommandPutNodes` over the new nodes, for one of them. -/
def putNode (args : List PendingFA × List (NewNode × Bytes)) (n : NewNode) :
    List PendingFA × List (NewNode × Bytes) :=
  if n.source = .newUpload then
    let (attributes, left) := attributesOf n.uploadhandle args.1
    (left, args.2 ++ [(n, attrString attributes)])
  else (args.1, args.2 ++ [(n, [])])

/-- `CommandPutNodes`. -/
def putNodes (nn : List NewNode) : Client :=
  let (left, nodes) := nn.foldl putNode (s.pendingfa, [])
  { s with pendingfa := left, puts := s.puts ++ [nn], reqs := s.reqs ++ [.putNodes nodes] }

/-- The part of `readnodes` for a record of a new node. -/
def readnode (s : Client) (n : NewNode × Handle) : Client :=
  let s := { s with nodes := Function.update s.nodes n.2 true }
  if n.1.source = .newUpload then
    let (attributes, left) := attributesOf n.1.uploadhandle s.pendingfa
    { s with
      pendingfa := left
      reqs := s.reqs ++ attributes.map fun a => .attachFA n.2 a.type a.fah a.tag
      uhnh := if (n.1.uploadhandle, n.2) ∈ s.uhnh then s.uhnh
        else OrderedPointers.insert pairKey (n.1.uploadhandle, n.2) s.uhnh }
  else s

/-- A node arrives for an upload handle: what waits under the handle is attached to it. -/
def adopt (uh : WideHandle) (h : Handle) : Client :=
  { s with
    nodes := Function.update s.nodes h true
    pendingfa := s.pendingfa.filter fun a => a.th ≠ uh
    reqs := s.reqs ++ (s.pendingfa.filter fun a => a.th = uh).map
      fun a => .attachFA h a.type a.fah a.tag
    uhnh := if (uh, h) ∈ s.uhnh then s.uhnh else OrderedPointers.insert pairKey (uh, h) s.uhnh }

/-- The result of a waiting `CommandPutNodes`: a record with an unknown handle for each new node. -/
def created (k : Nat) (handles : List Handle) : Client :=
  match s.puts[k]? with
  | none => s
  | some nn => (nn.zip handles).foldl readnode { s with puts := s.puts.eraseIdx k }

end Client

/-- What happens: `arrive` and `remove` are about other nodes. -/
inductive Event where
  | dispatch (resized : UInt16 → Bool) (tag : Int)
  | stored (data : Bytes)
  | failed
  | next
  | putNodes (nn : List NewNode)
  | created (k : Nat) (handles : List Handle)
  | arrive (h : Handle)
  | remove (h : Handle)

def step (s : Client) : Event → Client
  | .dispatch resized tag => s.dispatch resized tag
  | .stored data => s.stored data
  | .failed => { s with curfa := false }
  | .next => { s with curfa := !s.newfa.isEmpty }
  | .putNodes nn => s.putNodes nn
  | .created k handles => s.created k handles
  | .arrive h => { s with nodes := Function.update s.nodes h true }
  | .remove h => { s with nodes := Function.update s.nodes h false }

theorem attrText_ne_nil (type : UInt16) (fah : WideHandle) : attrText type fah ≠ [] :=
  List.append_ne_nil_of_right_ne_nil _ (List.cons_ne_nil _ _)

/-- The texts are separated by slashes. -/
theorem attrString_eq (attributes : List PendingFA) :
    attrString attributes =
      [(47 : UInt8)].intercalate (attributes.map fun a => attrText a.type a.fah) := by
  have tail : ∀ (more : List PendingFA) (fa : Bytes), fa ≠ [] →
      more.foldl appendAttr fa =
        [(47 : UInt8)].intercalate (fa :: more.map fun a => attrText a.type a.fah) := by
    intro more
    induction more with
    | nil =>
      intro fa _
      exact (List.intercalate_singleton ..).symm
    | cons a more ih =>
      intro fa some
      rw [List.foldl_cons, appendAttr, if_neg some, ih _ (List.append_ne_nil_of_left_ne_nil some _),
        List.map_cons, List.intercalate_cons_cons]
      cases more with
      | nil => simp
      | cons b more => simp [List.intercalate_cons_cons]
  cases attributes with
  | nil => rfl
  | cons a more => exact tail more _ (attrText_ne_nil a.type a.fah)

theorem to64_separate : ∀ c : UInt8, Base64.to64 c ≠ 47 ∧ Base64.to64 c ≠ 42 :=
  forall_byte (by decide +kernel)

theorem digit_of_mem {c : UInt8} {n : Nat} (mem : c ∈ ascii (Nat.repr n)) :
    ∃ d : Char, d ∈ (Nat.repr n).toList ∧ d.isDigit ∧ c = d.toNat.toUInt8 := by
  obtain ⟨d, there, rfl⟩ := List.mem_map.mp mem
  refine ⟨d, there, ?_, rfl⟩
  rw [Nat.toList_repr] at there
  exact Nat.isDigit_of_mem_toDigits (by decide) (by decide) there

theorem digit_range {d : Char} (digit : d.isDigit) : 48 ≤ d.toNat ∧ d.toNat ≤ 57 := by
  simp only [Char.isDigit, Bool.and_eq_true, decide_eq_true_eq] at digit
  exact ⟨UInt32.le_iff_toNat_le.mp digit.1, UInt32.le_iff_toNat_le.mp digit.2⟩

theorem separators_not_mem (n : Nat) :
    (47 : UInt8) ∉ ascii (Nat.repr n) ∧ (42 : UInt8) ∉ ascii (Nat.repr n) := by
  constructor
  all_goals
    intro mem
    obtain ⟨d, -, digit, same⟩ := digit_of_mem mem
    have range := digit_range digit
    have value := congrArg UInt8.toNat same
    simp at value
    omega

theorem slash_not_mem_attrText (type : UInt16) (fah : WideHandle) :
    (47 : UInt8) ∉ attrText type fah := by
  intro mem
  rcases List.mem_append.mp mem with digits | rest
  · exact (separators_not_mem _).1 digits
  · rcases List.mem_cons.mp rest with same | encoded
    · exact absurd same (by decide)
    · obtain ⟨d, same⟩ := Base64.mem_btoa encoded
      exact (to64_separate d).1 same.symm

/-- Decimal numbers are read back from their digits. -/
theorem ascii_repr_inj {m n : Nat} (same : ascii (Nat.repr m) = ascii (Nat.repr n)) : m = n := by
  have back : ∀ n,
      (ascii (Nat.repr n)).map (fun c => Char.ofNat c.toNat) = (Nat.repr n).toList := by
    intro n
    rw [ascii, List.map_map]
    refine (List.map_congr_left fun d mem => ?_).trans (List.map_id _)
    rw [Nat.toList_repr] at mem
    have range := digit_range (Nat.isDigit_of_mem_toDigits (by decide) (by decide) mem)
    have value : d.toNat.toUInt8.toNat = d.toNat := by
      simp
      omega
    rw [Function.comp, value, Char.ofNat_toNat]
    rfl
  have chars := congrArg (List.map fun c : UInt8 => Char.ofNat c.toNat) same
  rw [back, back, Nat.toList_repr, Nat.toList_repr] at chars
  have numbers := congrArg (fun digits => Nat.ofDigitChars 10 digits 0) chars
  simpa using numbers

theorem attrText_inj {type type' : UInt16} {fah fah' : WideHandle}
    (same : attrText type fah = attrText type' fah') : type = type' ∧ fah = fah' := by
  rw [attrText, attrText] at same
  have star : ∀ fah : WideHandle, (42 : UInt8) ∉ Base64.btoa (leBytes 8 fah.toNat) := by
    intro fah mem
    obtain ⟨d, encoded⟩ := Base64.mem_btoa mem
    exact (to64_separate d).2 encoded.symm
  obtain ⟨digits, -, encoded⟩ := (List.append_cons_inj_of_notMem (separators_not_mem _).2
    (star fah)).mp same
  refine ⟨UInt16.toNat_inj.mp (ascii_repr_inj digits), UInt64.toNat_inj.mp ?_⟩
  have bytes := congrArg (fun a => ofLe (Base64.atob a 8)) encoded
  have whole : ∀ fah : WideHandle, fah.toNat % 256 ^ 8 = fah.toNat := fun fah =>
    Nat.mod_eq_of_lt (show fah.toNat < 256 ^ 8 from fah.toNat_lt)
  rwa [Base64.atob_btoa _ (by simp), Base64.atob_btoa _ (by simp), ofLe_leBytes, ofLe_leBytes,
    whole, whole] at bytes

/-- An attribute string tells the types and handles of its attributes. -/
theorem attrString_inj {attributes attributes' : List PendingFA}
    (same : attrString attributes = attrString attributes') :
    attributes.map (fun a => (a.type, a.fah)) = attributes'.map fun a => (a.type, a.fah) := by
  have texts : ∀ attributes : List PendingFA, attributes ≠ [] → (attrString attributes).splitOn 47 =
      attributes.map fun a => attrText a.type a.fah := by
    intro attributes some
    rw [attrString_eq]
    refine List.splitOn_intercalate 47 (fun text mem => ?_) (by simpa using some)
    obtain ⟨a, -, rfl⟩ := List.mem_map.mp mem
    exact slash_not_mem_attrText a.type a.fah
  have empty : ∀ attributes : List PendingFA, attrString attributes = [] → attributes = [] := by
    intro attributes none
    by_contra some
    have split := texts attributes some
    rw [none] at split
    cases attributes with
    | nil => exact some rfl
    | cons a more =>
      rw [List.splitOn_nil, List.map_cons] at split
      exact attrText_ne_nil a.type a.fah (List.cons.inj split).1.symm
  by_cases none : attributes = []
  · subst none
    rw [empty attributes' same.symm]
  · have some : attributes' ≠ [] := by
      rintro rfl
      exact none (empty attributes same)
    have split := congrArg (List.splitOn 47) same
    rw [texts attributes none, texts attributes' some] at split
    have pairs : Function.Injective fun p : UInt16 × WideHandle => attrText p.1 p.2 := by
      intro p q equal
      exact Prod.ext (attrText_inj equal).1 (attrText_inj equal).2
    refine List.map_injective_iff.mpr pairs ?_
    rw [List.map_map, List.map_map]
    exact split

/-- The upload handle with a number: its bytes in network order. -/
def uploadHandle (k : Nat) : WideHandle := UInt64.ofNat (ofLe (beBytes 8 k))

theorem incBytes_leBytes (width k : Nat) :
    Crypto.incBytes (leBytes width k) = leBytes width (k + 1) := by
  induction width generalizing k with
  | zero => rfl
  | succ width ih =>
    have low : UInt8.ofNat k + 1 = UInt8.ofNat (k + 1) := by
      apply UInt8.toNat_inj.mp
      simp
    rw [leBytes, leBytes, Crypto.incBytes, low]
    split
    · rename_i nonzero
      have same : (k + 1) / 256 = k / 256 := by
        have digit : (k + 1) % 256 ≠ 0 := by
          intro zero
          apply nonzero
          apply UInt8.toNat_inj.mp
          simpa using zero
        omega
      rw [same]
    · rename_i zero
      have carry : (k + 1) / 256 = k / 256 + 1 := by
        have digit : (k + 1) % 256 = 0 := by
          have value := congrArg UInt8.toNat (not_not.mp zero)
          simpa using value
        omega
      rw [ih, carry, not_not.mp zero]

theorem toNat_uploadHandle (k : Nat) : (uploadHandle k).toNat = ofLe (beBytes 8 k) := by
  have bound := ofLe_lt (beBytes 8 k)
  rw [beBytes, List.length_reverse, length_leBytes] at bound
  exact UInt64.toNat_ofNat_of_lt' bound

theorem getuploadhandle_uploadHandle (k : Nat) :
    getuploadhandle (uploadHandle k) = uploadHandle (k + 1) := by
  have bytes := leBytes_ofLe (beBytes 8 k) 0
  rw [show (beBytes 8 k).length + 0 = 8 by simp [beBytes], List.replicate_zero,
    List.append_nil] at bytes
  rw [getuploadhandle, toNat_uploadHandle, bytes, beBytes, List.reverse_reverse, incBytes_leBytes]
  rfl

theorem uploadHandle_inj {j k : Nat} (first : j < 65536) (second : k < 65536)
    (same : uploadHandle j = uploadHandle k) : j = k := by
  have values := congrArg UInt64.toNat same
  rw [toNat_uploadHandle, toNat_uploadHandle] at values
  have bytes := congrArg (leBytes 8) values
  have left := leBytes_ofLe (beBytes 8 j) 0
  have right := leBytes_ofLe (beBytes 8 k) 0
  rw [show (beBytes 8 j).length + 0 = 8 by simp [beBytes], List.replicate_zero,
    List.append_nil] at left
  rw [show (beBytes 8 k).length + 0 = 8 by simp [beBytes], List.replicate_zero,
    List.append_nil] at right
  rw [left, right, beBytes, beBytes, List.reverse_inj] at bytes
  have numbers := congrArg ofLe bytes
  rw [ofLe_leBytes, ofLe_leBytes] at numbers
  omega

/-- The first upload handles are no node handles. -/
theorem uploadHandle_large {k : Nat} (positive : 0 < k) (small : k < 65536) :
    2 ^ 48 ≤ (uploadHandle k).toNat := by
  rw [toNat_uploadHandle]
  have high : k / 256 / 256 = 0 := by omega
  have bytes : beBytes 8 k = List.replicate 6 0 ++ [UInt8.ofNat (k / 256), UInt8.ofNat k] := by
    rw [beBytes, leBytes, leBytes, high, leBytes_zero]
    rfl
  have low : (UInt8.ofNat k).toNat = k % 256 := by simp
  have next : (UInt8.ofNat (k / 256)).toNat = k / 256 := by simp; omega
  rw [bytes]
  simp only [List.replicate, List.cons_append, List.nil_append, ofLe, low, next]
  simp
  omega

def nodesOf (s : Client) (uh : WideHandle) : List Handle :=
  (s.uhnh.filter fun p => p.1 = uh).map Prod.snd

section Scans
variable {s : Client} {pendingfa : List PendingFA} {h : Handle} {uh th : WideHandle}

theorem toNat_wide (h : Handle) : (wide h).toNat = h.toNat :=
  UInt64.toNat_ofNat_of_lt' (Nat.lt_trans h.isLt (by decide))

/-- A scan by handle does not touch the entries of other handles. -/
theorem attributesOf_eq (ascending : Ascending PendingFA.key pendingfa) (uh : WideHandle) :
    attributesOf uh pendingfa =
      (pendingfa.filter fun a => a.th = uh, pendingfa.filter fun a => a.th ≠ uh) := by
  have above : ∀ a ∈ pendingfa, a.th = uh → toLex (uh.toNat, 0) ≤ a.key := by
    rintro a - same
    rw [PendingFA.key, Prod.Lex.toLex_le_toLex]
    exact .inr ⟨by rw [same], Nat.zero_le _⟩
  have convex : ∀ a b : PendingFA, toLex (uh.toNat, 0) ≤ a.key → a.key ≤ b.key → b.th = uh →
      a.th = uh := by
    intro a b above le same
    rw [PendingFA.key, Prod.Lex.toLex_le_toLex] at above
    rw [PendingFA.key, PendingFA.key, Prod.Lex.toLex_le_toLex, same] at le
    dsimp only at above le
    apply UInt64.toNat_inj.mp
    omega
  obtain ⟨range, rest⟩ := ascending.sorted.range above convex
  rw [attributesOf]
  exact Prod.ext range rest

theorem uhnh_range (sorted : Sorted pairKey s.uhnh) (uh : WideHandle) :
    ((s.uhnh.dropWhile fun p => pairKey p < toLex (uh.toNat, 0)).takeWhile fun p => p.1 = uh) =
      s.uhnh.filter fun p => p.1 = uh := by
  refine (sorted.range (p := fun p => p.1 = uh) (k := toLex (uh.toNat, 0)) (fun a _ same => ?_)
    fun a b above le same => ?_).1
  · rw [pairKey, Prod.Lex.toLex_le_toLex]
    exact .inr ⟨by rw [same], Nat.zero_le _⟩
  · rw [pairKey, Prod.Lex.toLex_le_toLex] at above
    rw [pairKey, pairKey, Prod.Lex.toLex_le_toLex, same] at le
    dsimp only at above le
    apply UInt64.toNat_inj.mp
    omega

theorem uploaded_none (sorted : Sorted pairKey s.uhnh) (none : nodesOf s uh = []) :
    s.uploaded uh = uh := by
  have empty := (uhnh_range sorted uh).trans (List.map_eq_nil_iff.mp none)
  rw [Client.uploaded]
  split
  · rename_i first h rest bound
    rw [bound] at empty
    refine if_neg fun same => ?_
    rw [List.takeWhile_cons, if_pos (decide_eq_true same)] at empty
    cases empty
  · rfl

theorem uploaded_some (sorted : Sorted pairKey s.uhnh) {more : List Handle}
    (some : nodesOf s uh = h :: more) : s.uploaded uh = wide h := by
  obtain ⟨p, ps, filtered, rfl, -⟩ := List.map_eq_cons_iff.mp some
  have same : p.1 = uh := by
    have mem : p ∈ s.uhnh.filter fun p => p.1 = uh := filtered ▸ List.mem_cons_self
    simpa using (List.mem_filter.mp mem).2
  have range := (uhnh_range sorted uh).trans filtered
  rw [Client.uploaded]
  split
  · rename_i first h rest bound
    rw [bound, List.takeWhile_cons] at range
    split at range
    · obtain ⟨head, -⟩ := List.cons.inj range
      rw [if_pos (by rw [← same, ← head]), ← head]
    · cases range
  · rename_i bound
    rw [bound] at range
    cases range

theorem nodebyhandle_wide (live : s.nodes h = true) : s.nodebyhandle (wide h) = some h := by
  have same : BitVec.ofNat 48 (wide h).toNat = h := by
    rw [toNat_wide, BitVec.ofNat_toNat, BitVec.setWidth_eq]
  have small : (wide h).toNat < 2 ^ 48 := by
    rw [toNat_wide]
    exact h.isLt
  rw [Client.nodebyhandle, same, if_pos ⟨small, live⟩]

theorem nodebyhandle_large (large : 2 ^ 48 ≤ th.toNat) : s.nodebyhandle th = none :=
  if_neg fun small => absurd small.1 (not_lt.mpr large)

/-- A record of the node of an upload. -/
theorem readnode_upload {s : Client} (ascending : Ascending PendingFA.key s.pendingfa)
    {n : NewNode} (upload : n.source = .newUpload) (h : Handle) :
    s.readnode (n, h) = s.adopt n.uploadhandle h := by
  rw [Client.readnode, if_pos upload]
  dsimp only
  rw [attributesOf_eq ascending]
  rfl

end Scans

end MegaSdk.Xfer.Attach
