import MegaSdk.Nodes.Attributes
import MegaSdk.Nodes.FingerprintText
import MegaSdk.Xfer.ChunkCrypt
import MegaSdk.Lib.OrderedPointers
import MegaSdk.Lib.Runs

/-!
# The fingerprint index

`MegaClient::fingerprints` is a multiset of file nodes, ordered by the fingerprints in the nodes.
`Node::setfingerprint` takes a node out and puts it back; a completed download writes the
fingerprint of a node that is in the index.
-/

namespace MegaSdk.Nodes.Index

open ByteOrder RecordReader Crypto Runs OrderedPointers
open Cache (AttrMap)
open Sync (crcOf)

abbrev NodeRef := Nat

/-- A `Node`; `indexed` says whether its `fingerprint_it` points into the index, and `cipher` is the
key of its `SymmCipher`. -/
structure Node where
  type : NodeType
  fingerprint : FileFingerprint
  clienttimestamp : Int
  nodekey : Bytes
  cipher : Block
  attrs : AttrMap
  attrstring : Bytes
  indexed : Bool

/-- The fingerprint that `setfingerprint` derives from attributes or, if there is none, from the
key and the time stamp. -/
def Node.derived (n : Node) : FileFingerprint :=
  let f := match n.attrs.find? fun entry => entry.1 = Json.nameid (ascii "c") with
    | some (_, value) => (n.fingerprint.unserializefingerprint value).1
    | none => n.fingerprint
  if f.isvalid then f else { f with crc := crcOf n.nodekey, mtime := n.clienttimestamp }

/-- The constructor; `garbage` is what the checksums and the cipher hold at first. -/
def Node.new (type : NodeType) (size tm : Int) (garbage : Vector UInt32 4 × Block) : Node :=
  ⟨type, ⟨size, 0, garbage.1, false⟩, tm, [], garbage.2, [], [], false⟩

/-- The live nodes, and the index from its first element to its last. -/
structure Client where
  nodes : NodeRef → Option Node
  fingerprints : List NodeRef
  next : NodeRef

namespace Client

def start : Client := ⟨fun _ => none, [], 0⟩

variable (s : Client)

def keyOf (r : NodeRef) : ℤ ×ₗ ℤ ×ₗ List ℕ :=
  ((s.nodes r).map fun n => n.fingerprint.key).getD (toLex (0, toLex (0, [])))

def nodebyfingerprint (f : FileFingerprint) : Option NodeRef :=
  OrderedPointers.find s.keyOf f.key s.fingerprints

def setNode (r : NodeRef) (n : Node) : Client :=
  { s with nodes := Function.update s.nodes r (some n) }

def setfingerprint (r : NodeRef) : Client :=
  match s.nodes r with
  | none => s
  | some n =>
    if n.type = fileNode ∧ 16 ≤ n.nodekey.length then
      let erased := if n.indexed then s.fingerprints.filter (· ≠ r) else s.fingerprints
      let s := s.setNode r { n with fingerprint := n.derived, indexed := true }
      { s with fingerprints := OrderedPointers.insert s.keyOf r erased }
    else s

/-- `~Node`. -/
def deleteNode (r : NodeRef) : Client :=
  match s.nodes r with
  | none => s
  | some n =>
    { s with
      nodes := Function.update s.nodes r none
      fingerprints := if n.type = fileNode ∧ n.indexed then s.fingerprints.filter (· ≠ r)
        else s.fingerprints }

def newNode (n : Node) : Client := { s.setNode s.next n with next := s.next + 1 }

/-- The loop of `Transfer::complete` over the source nodes, for one of them. -/
def setMissing (fingerprint : FileFingerprint) (s : Client) (r : NodeRef) : Client :=
  match s.nodes r with
  | none => s
  | some n =>
    if n.fingerprint.isvalid then s
    else s.setNode r { n with
      fingerprint := fingerprint
      attrs := n.attrs.set (Json.nameid (ascii "c")) fingerprint.serializefingerprint }

end Client

/-- The fingerprint of a downloaded file, with the checksums of a `FileFingerprint` that was not
generated if it cannot be opened. -/
def downloaded (fa : Option FileFingerprint.Source) (garbage : Vector UInt32 4) : FileFingerprint :=
  let fingerprint : FileFingerprint := ⟨-1, 0, garbage, false⟩
  (fa.map fun fa => (fingerprint.genfingerprint fa false).1).getD fingerprint

/-- The file is not what the transfer was to fetch. -/
def mismatch (transfer : FileFingerprint) (fa : Option FileFingerprint.Source)
    (garbage : Vector UInt32 4) : Bool :=
  fa.isSome && transfer.isvalid && !(downloaded fa garbage).same transfer

/-- The key that `Node::setkey` takes over. -/
def Node.withKey (n : Node) (newkey : Option (Vector UInt8 32)) : Node :=
  let nodekey := match newkey with
    | some key => key.toList.take (if n.type = fileNode then 32 else 16)
    | none => n.nodekey
  { n with nodekey := nodekey, cipher := Xfer.setKey nodekey n.type }

section System
variable (aesd : Aes) (normalize : Bytes → Bytes)

namespace Client
variable (s : Client)

/-- `Node::setattr`; `rest` is the memory behind the decoded text. -/
def setattr (r : NodeRef) (rest : Bytes) : Except Json.Fault Client :=
  match s.nodes r with
  | none => .ok s
  | some n =>
    match decryptattr (aesd n.cipher) n.attrstring rest with
    | none => .ok s
    | some _ =>
      match Nodes.setattr (aesd n.cipher) normalize rest n.attrs n.attrstring with
      | .error fault => .error fault
      | .ok (attrs, attrstring) =>
        .ok ((s.setNode r { n with attrs := attrs, attrstring := attrstring }).setfingerprint r)

def setkey (r : NodeRef) (newkey : Option (Vector UInt8 32)) (rest : Bytes) :
    Except Json.Fault Client :=
  match s.nodes r with
  | none => .ok s
  | some n => (s.setNode r (n.withKey newkey)).setattr aesd normalize r rest

/-- `Node::unserialize`: files and folders have a key, and the attributes are in the clear. -/
def load (type : NodeType) (size tm : Int) (garbage : Vector UInt32 4 × Block)
    (key : Vector UInt8 32) (attrs : AttrMap) : Client :=
  let n := Node.new type size tm garbage
  let n := if type = fileNode ∨ type = folderNode then n.withKey (some key) else n
  (s.newNode { n with attrs := attrs }).setfingerprint s.next

/-- `Transfer::complete` for a download of the nodes `refs`. -/
def complete (transfer : FileFingerprint) (fa : Option FileFingerprint.Source)
    (garbage : Vector UInt32 4) (refs : List NodeRef) : Client :=
  if mismatch transfer fa garbage then s else refs.foldl (setMissing (downloaded fa garbage)) s

end Client

/-- What can happen to nodes. `update` is an update by the server, before the key and the attributes
are applied. -/
inductive Event where
  | newNode (type : NodeType) (size tm : Int) (garbage : Vector UInt32 4 × Block)
  | load (type : NodeType) (size tm : Int) (garbage : Vector UInt32 4 × Block)
      (key : Vector UInt8 32) (attrs : AttrMap)
  | update (r : NodeRef) (attrstring : Option Bytes) (tm : Option Int)
  | setkey (r : NodeRef) (newkey : Option (Vector UInt8 32)) (rest : Bytes)
  | setattr (r : NodeRef) (rest : Bytes)
  | setfingerprint (r : NodeRef)
  | complete (transfer : FileFingerprint) (fa : Option FileFingerprint.Source)
      (garbage : Vector UInt32 4) (refs : List NodeRef)
  | deleteNode (r : NodeRef)

/-- A text that is read beyond its memory ends the client in the state it is in. -/
def step (s : Client) : Event → Client
  | .newNode type size tm garbage => s.newNode (.new type size tm garbage)
  | .load type size tm garbage key attrs => s.load type size tm garbage key attrs
  | .update r attrstring tm =>
    match s.nodes r with
    | none => s
    | some n =>
      s.setNode r { n with
        attrstring := attrstring.getD n.attrstring
        clienttimestamp := tm.getD n.clienttimestamp }
  | .setkey r newkey rest => (s.setkey aesd normalize r newkey rest).toOption.getD s
  | .setattr r rest => (s.setattr aesd normalize r rest).toOption.getD s
  | .setfingerprint r => s.setfingerprint r
  | .complete transfer fa garbage refs => s.complete transfer fa garbage refs
  | .deleteNode r => s.deleteNode r

end System

def Node.Keyed (n : Node) : Prop := n.type = fileNode ∧ n.nodekey ≠ []

/-- The index is in order and has every live file with a key once and nothing else, so that a search
finds a node if there is one, and only live nodes. -/
structure Indexed (s : Client) : Prop where
  sorted : Sorted s.keyOf s.fingerprints
  nodup : s.fingerprints.Nodup
  entries : ∀ r, r ∈ s.fingerprints ↔ ∃ n, s.nodes r = some n ∧ n.Keyed
  found : ∀ f r n, s.nodes r = some n → n.Keyed → n.fingerprint.size = f.size →
    n.fingerprint.mtime = f.mtime → n.fingerprint.crc = f.crc → (s.nodebyfingerprint f).isSome
  live : ∀ f r, s.nodebyfingerprint f = some r → ∃ n, s.nodes r = some n ∧ n.Keyed ∧
    n.fingerprint.size = f.size ∧ n.fingerprint.mtime = f.mtime ∧ n.fingerprint.crc = f.crc

/-- The download writes the fingerprint of the node. -/
def Rewritten (s : Client) (refs : List NodeRef) (r : NodeRef) : Prop :=
  r ∈ refs ∧ ∀ n, s.nodes r = some n → n.fingerprint.isvalid = false

/-- A file gets its first key only together with attributes that decrypt; and the fingerprint of a
download fits, where it is written, between those that stay. -/
def KeepsIndex (aesd : Aes) (s : Client) : Event → Prop
  | .setkey r (some key) rest => ∀ n, s.nodes r = some n → n.type = fileNode → n.nodekey = [] →
      (decryptattr (aesd (Xfer.setKey key.toList fileNode)) n.attrstring rest).isSome
  | .complete transfer fa garbage refs => mismatch transfer fa garbage = false →
      ∀ a b, [a, b].Sublist s.fingerprints →
        (Rewritten s refs a → ¬Rewritten s refs b → (downloaded fa garbage).key ≤ s.keyOf b) ∧
        (¬Rewritten s refs a → Rewritten s refs b → s.keyOf a ≤ (downloaded fa garbage).key)
  | _ => True

/-- What holds of the index even while a node with a new key is not in it. -/
structure Core (s : Client) : Prop where
  sorted : Sorted s.keyOf s.fingerprints
  nodup : s.fingerprints.Nodup
  flags : ∀ r, r ∈ s.fingerprints ↔ ∃ n, s.nodes r = some n ∧ n.indexed = true
  kinds : ∀ r n, s.nodes r = some n → n.indexed = true → n.type = fileNode ∧ 16 ≤ n.nodekey.length
  keys : ∀ r n, s.nodes r = some n → n.type = fileNode → n.nodekey = [] ∨ 16 ≤ n.nodekey.length
  fresh : ∀ r n, s.nodes r = some n → r < s.next

/-- Every file with a key is in the index, but for those in `pending`. -/
def Complete (s : Client) (pending : NodeRef → Prop) : Prop :=
  ∀ r n, s.nodes r = some n → n.Keyed → ¬pending r → n.indexed = true

section Invariant
variable {s : Client} {r : NodeRef} {n : Node}

theorem keyOf_live (live : s.nodes r = some n) : s.keyOf r = n.fingerprint.key := by
  rw [Client.keyOf, live]
  rfl

theorem nodes_setNode : (s.setNode r n).nodes = Function.update s.nodes r (some n) := rfl

theorem keyOf_setNode_of_ne {a : NodeRef} (other : a ≠ r) :
    (s.setNode r n).keyOf a = s.keyOf a := by
  rw [Client.keyOf, Client.keyOf, nodes_setNode, Function.update_of_ne other]

/-- The invariant makes the index what it is for. -/
theorem Core.indexed (core : Core s) (complete : Complete s fun _ => False) : Indexed s := by
  have entries : ∀ r, r ∈ s.fingerprints ↔ ∃ n, s.nodes r = some n ∧ n.Keyed := by
    intro r
    rw [core.flags]
    refine exists_congr fun n => and_congr_right fun live => ⟨fun flag => ?_, fun keyed => ?_⟩
    · obtain ⟨type, long⟩ := core.kinds r n live flag
      refine ⟨type, fun empty => ?_⟩
      rw [empty] at long
      exact absurd long (by decide)
    · exact complete r n live keyed not_false
  refine ⟨core.sorted, core.nodup, entries, fun f r n live keyed size mtime crc => ?_,
    fun f r found => ?_⟩
  · have same := (FileFingerprint.key_eq_iff _ _).mpr ⟨size, mtime, crc⟩
    obtain ⟨a, found⟩ := core.sorted.find_isSome ((entries r).mpr ⟨n, live, keyed⟩)
    rw [keyOf_live live, same] at found
    rw [Client.nodebyfingerprint, found]
    rfl
  · obtain ⟨mem, same⟩ := mem_of_find found
    obtain ⟨n, live, keyed⟩ := (entries r).mp mem
    rw [keyOf_live live] at same
    exact ⟨n, live, keyed, (FileFingerprint.key_eq_iff _ _).mp same⟩

theorem setNode_cases {a : NodeRef} {m : Node} (there : (s.setNode r n).nodes a = some m) :
    a = r ∧ m = n ∨ a ≠ r ∧ s.nodes a = some m := by
  rw [nodes_setNode] at there
  by_cases same : a = r
  · rw [same, Function.update_self] at there
    exact .inl ⟨same, (Option.some.inj there).symm⟩
  · rw [Function.update_of_ne same] at there
    exact .inr ⟨same, there⟩

/-- A node is written, but not its fingerprint. -/
theorem core_setNode (core : Core s) (live : s.nodes r = some n) {n' : Node}
    (fingerprint : n'.fingerprint = n.fingerprint) (type : n'.type = n.type)
    (indexed : n'.indexed = n.indexed)
    (key : n'.type = fileNode → n'.nodekey = n.nodekey ∨ 16 ≤ n'.nodekey.length) :
    Core (s.setNode r n') where
  sorted := by
    refine core.sorted.congr fun a _ => ?_
    by_cases same : a = r
    · rw [same, keyOf_live live, keyOf_live (Function.update_self ..), fingerprint]
    · exact keyOf_setNode_of_ne same
  nodup := core.nodup
  flags a := by
    refine (core.flags a).trans ?_
    rw [nodes_setNode]
    by_cases same : a = r
    · rw [same, Function.update_self, live]
      simp [indexed]
    · rw [Function.update_of_ne same]
  kinds a m there flag := by
    rcases setNode_cases there with ⟨-, rfl⟩ | ⟨-, old⟩
    · obtain ⟨file, long⟩ := core.kinds r n live (indexed ▸ flag)
      have file' := type.trans file
      refine ⟨file', (key file').elim (fun same => ?_) id⟩
      rwa [same]
    · exact core.kinds a m old flag
  keys a m there file := by
    rcases setNode_cases there with ⟨-, rfl⟩ | ⟨-, old⟩
    · refine (key file).elim (fun same => ?_) .inr
      rw [same]
      exact core.keys r n live (type ▸ file)
    · exact core.keys a m old file
  fresh a m there := by
    rcases setNode_cases there with ⟨rfl, -⟩ | ⟨-, old⟩
    · exact core.fresh a n live
    · exact core.fresh a m old

/-- A new node is not in the index. -/
theorem core_new (core : Core s) (new : n.indexed = false)
    (key : n.type = fileNode → n.nodekey = [] ∨ 16 ≤ n.nodekey.length) :
    Core (s.newNode n) := by
  have unknown : s.nodes s.next = none := by
    cases there : s.nodes s.next with
    | none => rfl
    | some m => exact absurd (core.fresh _ m there) (lt_irrefl _)
  have others : ∀ a ∈ s.fingerprints, a ≠ s.next := by
    rintro a mem rfl
    obtain ⟨m, live, -⟩ := (core.flags s.next).mp mem
    rw [unknown] at live
    cases live
  refine ⟨core.sorted.congr fun a mem => keyOf_setNode_of_ne (others a mem), core.nodup,
    fun a => (core.flags a).trans ?_, fun a m there flag => ?_, fun a m there file => ?_,
    fun a m there => ?_⟩
  · rw [Client.newNode, nodes_setNode]
    by_cases same : a = s.next
    · rw [same, Function.update_self, unknown]
      simp [new]
    · rw [Function.update_of_ne same]
  · rcases setNode_cases there with ⟨-, rfl⟩ | ⟨-, old⟩
    · rw [new] at flag
      cases flag
    · exact core.kinds a m old flag
  · rcases setNode_cases there with ⟨-, rfl⟩ | ⟨-, old⟩
    · exact key file
    · exact core.keys a m old file
  · rcases setNode_cases there with ⟨rfl, -⟩ | ⟨-, old⟩
    · exact Nat.lt_succ_self _
    · exact Nat.lt_succ_of_lt (core.fresh a m old)

/-- The index without a node. -/
theorem mem_erased (core : Core s) (live : s.nodes r = some n) {a : NodeRef} :
    (a ∈ if n.indexed then s.fingerprints.filter (· ≠ r) else s.fingerprints) ↔
      a ∈ s.fingerprints ∧ a ≠ r := by
  split
  · simp
  · rename_i missing
    refine ⟨fun mem => ⟨mem, ?_⟩, And.left⟩
    rintro rfl
    obtain ⟨m, there, flag⟩ := (core.flags a).mp mem
    rw [live] at there
    obtain rfl := Option.some.inj there
    exact missing flag

theorem erased_sublist : (if n.indexed then s.fingerprints.filter (· ≠ r)
    else s.fingerprints).Sublist s.fingerprints := by
  split
  · exact List.filter_sublist
  · exact List.Sublist.refl _

theorem core_setfingerprint (core : Core s) (r : NodeRef) : Core (s.setfingerprint r) := by
  rw [Client.setfingerprint]
  cases live : s.nodes r with
  | none => exact core
  | some n =>
    dsimp only
    split
    case isFalse => exact core
    case isTrue file =>
      have mem := fun a => mem_erased core live (a := a)
      have sublist := erased_sublist (s := s) (r := r) (n := n)
      generalize (if n.indexed then s.fingerprints.filter (· ≠ r) else s.fingerprints) = erased
        at mem sublist
      have sorted : Sorted (s.setNode r { n with fingerprint := n.derived, indexed := true }).keyOf
          erased := by
        refine Sorted.congr (List.Pairwise.sublist sublist core.sorted) fun a there => ?_
        exact keyOf_setNode_of_ne ((mem a).mp there).2
      refine ⟨sorted.insert r, ?_, fun a => ?_, fun a m there flag => ?_, fun a m there type => ?_,
        fun a m there => ?_⟩
      · refine insert_perm.nodup_iff.mpr (List.nodup_cons.mpr ⟨fun there => ?_, ?_⟩)
        · exact ((mem r).mp there).2 rfl
        · exact core.nodup.sublist sublist
      · refine mem_insert.trans ?_
        rw [mem]
        by_cases same : a = r
        · refine iff_of_true (.inl same)
            ⟨{ n with fingerprint := n.derived, indexed := true }, ?_, rfl⟩
          rw [same]
          exact Function.update_self ..
        · simp [same, core.flags a, nodes_setNode]
      · rcases setNode_cases there with ⟨-, rfl⟩ | ⟨-, old⟩
        · exact file
        · exact core.kinds a m old flag
      · rcases setNode_cases there with ⟨-, rfl⟩ | ⟨-, old⟩
        · exact .inr file.2
        · exact core.keys a m old type
      · rcases setNode_cases there with ⟨rfl, -⟩ | ⟨-, old⟩
        · exact core.fresh a n live
        · exact core.fresh a m old

/-- `setfingerprint` brings in the node that was missing. -/
theorem complete_setfingerprint (core : Core s) (complete : Complete s (· = r)) :
    Complete (s.setfingerprint r) fun _ => False := by
  intro a m there keyed _
  rw [Client.setfingerprint] at there
  cases live : s.nodes r with
  | none =>
    rw [live] at there
    refine complete a m there keyed ?_
    rintro rfl
    rw [live] at there
    cases there
  | some n =>
    simp only [live] at there
    split at there
    case isTrue file =>
      rcases setNode_cases there with ⟨-, rfl⟩ | ⟨other, old⟩
      · rfl
      · exact complete a m old keyed other
    case isFalse missing =>
      by_cases same : a = r
      · rw [same, live] at there
        obtain rfl := Option.some.inj there
        rcases core.keys r n live keyed.1 with empty | long
        · exact absurd empty keyed.2
        · exact absurd ⟨keyed.1, long⟩ missing
      · exact complete a m there keyed same

theorem Complete.mono {p q : NodeRef → Prop} (complete : Complete s p) (more : ∀ r, p r → q r) :
    Complete s q := fun r n live keyed missing =>
  complete r n live keyed fun pending => missing (more r pending)

theorem complete_setNode {p : NodeRef → Prop} (complete : Complete s p)
    (indexed : n.Keyed → ¬p r → n.indexed = true) : Complete (s.setNode r n) p := by
  intro a m there keyed settled
  rcases setNode_cases there with ⟨rfl, rfl⟩ | ⟨-, old⟩
  · exact indexed keyed settled
  · exact complete a m old keyed settled

theorem core_deleteNode (core : Core s) (r : NodeRef) : Core (s.deleteNode r) := by
  rw [Client.deleteNode]
  cases live : s.nodes r with
  | none => exact core
  | some n =>
    have erase : (if n.type = fileNode ∧ n.indexed then s.fingerprints.filter (· ≠ r)
        else s.fingerprints) =
          if n.indexed then s.fingerprints.filter (· ≠ r) else s.fingerprints := by
      by_cases flag : n.indexed = true
      · simp [flag, (core.kinds r n live flag).1]
      · simp [flag]
    have mem := fun a => mem_erased core live (a := a)
    have sublist := erased_sublist (s := s) (r := r) (n := n)
    dsimp only
    rw [erase]
    generalize (if n.indexed then s.fingerprints.filter (· ≠ r) else s.fingerprints) = erased
      at mem sublist
    have gone : ∀ {a m}, Function.update s.nodes r none a = some m → s.nodes a = some m := by
      intro a m there
      by_cases same : a = r
      · rw [same, Function.update_self] at there
        cases there
      · rwa [Function.update_of_ne same] at there
    refine ⟨Sorted.congr (List.Pairwise.sublist sublist core.sorted) fun a there => ?_,
      core.nodup.sublist sublist, fun a => ?_, fun a m there => core.kinds a m (gone there),
      fun a m there => core.keys a m (gone there), fun a m there => core.fresh a m (gone there)⟩
    · rw [Client.keyOf, Client.keyOf]
      dsimp only
      rw [Function.update_of_ne ((mem a).mp there).2]
    · rw [mem]
      dsimp only
      by_cases same : a = r
      · rw [same, Function.update_self]
        simp
      · rw [Function.update_of_ne same, core.flags a]
        simp [same]

theorem complete_deleteNode (complete : Complete s fun _ => False) (r : NodeRef) :
    Complete (s.deleteNode r) fun _ => False := by
  intro a m there
  rw [Client.deleteNode] at there
  cases live : s.nodes r with
  | none =>
    rw [live] at there
    exact complete a m there
  | some n =>
    simp only [live] at there
    by_cases same : a = r
    · rw [same, Function.update_self] at there
      cases there
    · rw [Function.update_of_ne same] at there
      exact complete a m there

end Invariant

section Steps
variable {aesd : Aes} {normalize : Bytes → Bytes} {s s' : Client} {r : NodeRef} {n : Node}

/-- `setattr` keeps the index and brings in the node that was missing if its attributes decrypt. -/
theorem setattr_keeps (core : Core s) {p : NodeRef → Prop} (complete : Complete s p) {rest : Bytes}
    (settled : ∀ a n, s.nodes a = some n → p a →
      a = r ∧ (decryptattr (aesd n.cipher) n.attrstring rest).isSome)
    (done : s.setattr aesd normalize r rest = .ok s') :
    Core s' ∧ Complete s' fun _ => False := by
  have unchanged : (∀ a n, s.nodes a = some n → ¬p a) → s' = s →
      Core s' ∧ Complete s' fun _ => False := by
    rintro none rfl
    exact ⟨core, fun a n live keyed _ => complete a n live keyed (none a n live)⟩
  rw [Client.setattr] at done
  cases live : s.nodes r with
  | none =>
    rw [live] at done
    refine unchanged (fun a n there pending => ?_) (Except.ok.inj done).symm
    obtain ⟨rfl, -⟩ := settled a n there pending
    rw [live] at there
    cases there
  | some n =>
    simp only [live] at done
    cases decrypts : decryptattr (aesd n.cipher) n.attrstring rest with
    | none =>
      rw [decrypts] at done
      refine unchanged (fun a m there pending => ?_) (Except.ok.inj done).symm
      obtain ⟨rfl, decrypted⟩ := settled a m there pending
      rw [live] at there
      obtain rfl := Option.some.inj there
      rw [decrypts] at decrypted
      cases decrypted
    | some buf =>
      simp only [decrypts] at done
      split at done
      · cases done
      · rename_i attrs attrstring merged
        obtain rfl := Except.ok.inj done
        have written : Core (s.setNode r { n with attrs := attrs, attrstring := attrstring }) :=
          core_setNode core live rfl rfl rfl fun _ => .inl rfl
        refine ⟨core_setfingerprint written r, complete_setfingerprint written ?_⟩
        intro a m there keyed other
        rcases setNode_cases there with ⟨same, -⟩ | ⟨-, old⟩
        · exact absurd same other
        · exact complete a m old keyed fun pending => other (settled a m old pending).1

/-- The key of a file has 32 bytes. -/
theorem withKey_some (file : n.type = fileNode) (key : Vector UInt8 32) :
    (n.withKey (some key)).nodekey = key.toList := by
  simp [Node.withKey, file]

theorem withKey_cipher (file : n.type = fileNode) (key : Vector UInt8 32) :
    (n.withKey (some key)).cipher = Xfer.setKey key.toList fileNode := by
  rw [← withKey_some file key, ← file]
  rfl

theorem withKey_long (file : n.type = fileNode) (newkey : Option (Vector UInt8 32)) :
    (n.withKey newkey).nodekey = n.nodekey ∨ 16 ≤ (n.withKey newkey).nodekey.length := by
  cases newkey with
  | none => exact .inl rfl
  | some key =>
    rw [withKey_some file]
    exact .inr (by simp)

/-- A key without attributes leaves the node out of the index. -/
theorem setkey_undecrypted (live : s.nodes r = some n) {newkey : Option (Vector UInt8 32)}
    {rest : Bytes}
    (fails : decryptattr (aesd (n.withKey newkey).cipher) n.attrstring rest = none) :
    s.setkey aesd normalize r newkey rest = .ok (s.setNode r (n.withKey newkey)) := by
  have there : (s.setNode r (n.withKey newkey)).nodes r = some (n.withKey newkey) :=
    Function.update_self ..
  have fails' : decryptattr (aesd (n.withKey newkey).cipher) (n.withKey newkey).attrstring rest =
      none := fails
  simp only [Client.setkey, live, Client.setattr, there, fails']

theorem setkey_keeps (core : Core s) (complete : Complete s fun _ => False)
    {newkey : Option (Vector UInt8 32)} {rest : Bytes}
    (meets : KeepsIndex aesd s (.setkey r newkey rest))
    (done : s.setkey aesd normalize r newkey rest = .ok s') :
    Core s' ∧ Complete s' fun _ => False := by
  rw [Client.setkey] at done
  cases live : s.nodes r with
  | none =>
    rw [live] at done
    obtain rfl := Except.ok.inj done
    exact ⟨core, complete⟩
  | some n =>
    simp only [live] at done
    let p : NodeRef → Prop := fun a => a = r ∧ n.nodekey = [] ∧ (n.withKey newkey).Keyed
    have pending : Complete (s.setNode r (n.withKey newkey)) p := by
      refine complete_setNode (complete.mono fun _ => False.elim) fun keyed settled => ?_
      have old : n.nodekey ≠ [] := fun empty => settled ⟨rfl, empty, keyed⟩
      exact complete r n live ⟨keyed.1, old⟩ not_false
    have written : Core (s.setNode r (n.withKey newkey)) :=
      core_setNode core live rfl rfl rfl fun file => withKey_long (n := n) file newkey
    refine setattr_keeps written pending ?_ done
    rintro a m there ⟨rfl, empty, keyed⟩
    refine ⟨rfl, ?_⟩
    rcases setNode_cases there with ⟨-, rfl⟩ | ⟨other, -⟩
    · cases newkey with
      | none => exact absurd empty keyed.2
      | some key =>
        have decrypts := meets n live keyed.1 empty
        rwa [← withKey_cipher keyed.1] at decrypts
    · exact absurd rfl other

/-- What a loop over source nodes does to a node, which may be one of them. -/
structure Overwrites (fingerprint : FileFingerprint) (source : Prop) (n n' : Node) : Prop where
  type : n'.type = n.type
  nodekey : n'.nodekey = n.nodekey
  indexed : n'.indexed = n.indexed
  missing : source ∧ n.fingerprint.isvalid = false → n'.fingerprint = fingerprint
  kept : ¬(source ∧ n.fingerprint.isvalid = false) → n'.fingerprint = n.fingerprint

theorem Overwrites.refl (fingerprint : FileFingerprint) (source : Prop) (n : Node)
    (other : ¬(source ∧ n.fingerprint.isvalid = false)) : Overwrites fingerprint source n n :=
  ⟨rfl, rfl, rfl, fun missing => absurd missing other, fun _ => rfl⟩

theorem Overwrites.trans {fingerprint : FileFingerprint} {first later : Prop} {n n' n'' : Node}
    (now : Overwrites fingerprint first n n') (then' : Overwrites fingerprint later n' n'') :
    Overwrites fingerprint (first ∨ later) n n'' := by
  refine ⟨then'.type.trans now.type, then'.nodekey.trans now.nodekey,
    then'.indexed.trans now.indexed, fun missing => ?_, fun kept => ?_⟩
  · by_cases here : first ∧ n.fingerprint.isvalid = false
    · by_cases again : later ∧ n'.fingerprint.isvalid = false
      · exact then'.missing again
      · exact (then'.kept again).trans (now.missing here)
    · have same := now.kept here
      have next : later := missing.1.resolve_left fun source => here ⟨source, missing.2⟩
      refine then'.missing ⟨next, ?_⟩
      rw [same]
      exact missing.2
  · have same := now.kept fun here => kept ⟨.inl here.1, here.2⟩
    refine (then'.kept fun again => kept ⟨.inr again.1, ?_⟩).trans same
    rw [← same]
    exact again.2

/-- The same index over nodes that the loop has gone through. -/
structure Reworked (fingerprint : FileFingerprint) (refs : List NodeRef) (s s' : Client) :
    Prop where
  fingerprints : s'.fingerprints = s.fingerprints
  next : s'.next = s.next
  nodes : ∀ a, Option.Rel (Overwrites fingerprint (a ∈ refs)) (s.nodes a) (s'.nodes a)

theorem setMissing_reworked (fingerprint : FileFingerprint) (s : Client) (r : NodeRef) :
    Reworked fingerprint [r] s (s.setMissing fingerprint r) := by
  have untouched : ∀ a, (∀ n, s.nodes a = some n → a = r → n.fingerprint.isvalid = true) →
      Option.Rel (Overwrites fingerprint (a ∈ [r])) (s.nodes a) (s.nodes a) := by
    intro a valid
    cases there : s.nodes a with
    | none => exact .none
    | some m =>
      refine .some (Overwrites.refl _ _ m fun missing => ?_)
      rw [valid m there (List.mem_singleton.mp missing.1)] at missing
      cases missing.2
  rw [Client.setMissing]
  cases live : s.nodes r with
  | none =>
    refine ⟨rfl, rfl, fun a => untouched a ?_⟩
    rintro n there rfl
    rw [live] at there
    cases there
  | some n =>
    dsimp only
    split
    case isTrue valid =>
      refine ⟨rfl, rfl, fun a => untouched a ?_⟩
      rintro m there rfl
      rw [live] at there
      exact Option.some.inj there ▸ valid
    case isFalse invalid =>
      refine ⟨rfl, rfl, fun a => ?_⟩
      rw [nodes_setNode]
      by_cases same : a = r
      · rw [same, live, Function.update_self]
        refine .some ⟨rfl, rfl, rfl, fun _ => rfl, fun kept => absurd ⟨?_, ?_⟩ kept⟩
        · exact List.mem_singleton_self r
        · exact Bool.eq_false_iff.mpr invalid
      · rw [Function.update_of_ne same]
        exact untouched a fun _ _ here => absurd here same

/-- The loop over the source nodes writes the fingerprints of those that lack one. -/
theorem foldl_reworked (fingerprint : FileFingerprint) (refs : List NodeRef) (s : Client) :
    Reworked fingerprint refs s (refs.foldl (Client.setMissing fingerprint) s) := by
  induction refs generalizing s with
  | nil =>
    refine ⟨rfl, rfl, fun a => ?_⟩
    rw [List.foldl_nil]
    cases s.nodes a with
    | none => exact .none
    | some n => exact .some (Overwrites.refl _ _ n fun missing => List.not_mem_nil missing.1)
  | cons r refs ih =>
    have first := setMissing_reworked fingerprint s r
    have later := ih (s.setMissing fingerprint r)
    refine ⟨later.fingerprints.trans first.fingerprints, later.next.trans first.next, fun a => ?_⟩
    have now := first.nodes a
    have then' := later.nodes a
    rw [List.foldl_cons]
    generalize s.nodes a = before, (s.setMissing fingerprint r).nodes a = between,
      (refs.foldl (Client.setMissing fingerprint) (s.setMissing fingerprint r)).nodes a = after
      at now then' ⊢
    cases now with
    | none =>
      cases then'
      exact .none
    | some now =>
      cases then' with
      | some then' =>
        have both := now.trans then'
        rw [List.mem_singleton, ← List.mem_cons] at both
        exact .some both

theorem Reworked.live_iff {fingerprint : FileFingerprint} {refs : List NodeRef}
    (reworked : Reworked fingerprint refs s s') {a : NodeRef} {n' : Node}
    (there : s'.nodes a = some n') :
    ∃ n, s.nodes a = some n ∧ Overwrites fingerprint (a ∈ refs) n n' := by
  have related := reworked.nodes a
  rw [there] at related
  generalize s.nodes a = old at related
  cases related with
  | some related => exact ⟨_, rfl, related⟩

theorem Reworked.keyOf {fingerprint : FileFingerprint} {refs : List NodeRef}
    (reworked : Reworked fingerprint refs s s') {a : NodeRef} (live : s.nodes a = some n)
    [Decidable (Rewritten s refs a)] :
    s'.keyOf a = if Rewritten s refs a then fingerprint.key else s.keyOf a := by
  have related := reworked.nodes a
  rw [live] at related
  have iff : Rewritten s refs a ↔ a ∈ refs ∧ n.fingerprint.isvalid = false := by
    rw [Rewritten, live]
    simp
  generalize there : s'.nodes a = new at related
  cases related with
  | some related =>
    rw [keyOf_live there, keyOf_live live]
    split
    · rename_i hit
      rw [related.missing (iff.mp hit)]
    · rename_i missed
      rw [related.kept fun hit => missed (iff.mpr hit)]

/-- Written in place, the fingerprint keeps the index exactly if it fits. -/
theorem sorted_reworked {fingerprint : FileFingerprint} {refs : List NodeRef} (core : Core s)
    (reworked : Reworked fingerprint refs s s') :
    Sorted s'.keyOf s'.fingerprints ↔ ∀ a b, [a, b].Sublist s.fingerprints →
      (Rewritten s refs a → ¬Rewritten s refs b → fingerprint.key ≤ s.keyOf b) ∧
      (¬Rewritten s refs a → Rewritten s refs b → s.keyOf a ≤ fingerprint.key) := by
  classical
  have keys : ∀ a ∈ s.fingerprints,
      s'.keyOf a = if Rewritten s refs a then fingerprint.key else s.keyOf a := by
    intro a mem
    obtain ⟨n, live, -⟩ := (core.flags a).mp mem
    exact reworked.keyOf live
  rw [reworked.fingerprints, ← core.sorted.overwrite]
  exact ⟨fun sorted => sorted.congr fun a mem => (keys a mem).symm,
    fun sorted => sorted.congr keys⟩

theorem core_reworked {fingerprint : FileFingerprint} {refs : List NodeRef} (core : Core s)
    (reworked : Reworked fingerprint refs s s') (sorted : Sorted s'.keyOf s'.fingerprints) :
    Core s' where
  sorted := sorted
  nodup := by
    rw [reworked.fingerprints]
    exact core.nodup
  flags a := by
    rw [reworked.fingerprints, core.flags]
    have related := reworked.nodes a
    generalize s.nodes a = before, s'.nodes a = after at related ⊢
    cases related with
    | none => simp
    | some related => simp [related.indexed]
  kinds a n' there flag := by
    obtain ⟨n, live, related⟩ := reworked.live_iff there
    rw [related.type, related.nodekey]
    exact core.kinds a n live (related.indexed ▸ flag)
  keys a n' there file := by
    obtain ⟨n, live, related⟩ := reworked.live_iff there
    rw [related.nodekey]
    exact core.keys a n live (related.type ▸ file)
  fresh a n' there := by
    obtain ⟨n, live, -⟩ := reworked.live_iff there
    rw [reworked.next]
    exact core.fresh a n live

theorem complete_reworked {fingerprint : FileFingerprint} {refs : List NodeRef}
    (complete : Complete s fun _ => False) (reworked : Reworked fingerprint refs s s') :
    Complete s' fun _ => False := by
  intro a n' there keyed settled
  obtain ⟨n, live, related⟩ := reworked.live_iff there
  rw [related.indexed]
  refine complete a n live ⟨?_, ?_⟩ settled
  · rw [← related.type]
    exact keyed.1
  · rw [← related.nodekey]
    exact keyed.2

theorem load_keeps (core : Core s) (complete : Complete s fun _ => False) (type : NodeType)
    (size tm : Int) (garbage : Vector UInt32 4 × Block) (key : Vector UInt8 32) (attrs : AttrMap) :
    Core (s.load type size tm garbage key attrs) ∧
      Complete (s.load type size tm garbage key attrs) fun _ => False := by
  rw [Client.load]
  generalize made : (if type = fileNode ∨ type = folderNode then
    (Node.new type size tm garbage).withKey (some key) else Node.new type size tm garbage) = n
  have new : n.indexed = false := by
    rw [← made]
    split <;> rfl
  have long : n.type = fileNode → n.nodekey = [] ∨ 16 ≤ n.nodekey.length := by
    rw [← made]
    split
    · exact fun file => withKey_long (n := Node.new type size tm garbage) file (some key)
    · exact fun _ => .inl rfl
  have added : Core (s.newNode { n with attrs := attrs }) := core_new core new long
  refine ⟨core_setfingerprint added _, complete_setfingerprint added ?_⟩
  intro a m there keyed other
  rcases setNode_cases there with ⟨same, -⟩ | ⟨-, old⟩
  · exact absurd same other
  · exact complete a m old keyed not_false

/-- A step that meets the condition keeps the invariant. -/
theorem step_keeps (core : Core s) (complete : Complete s fun _ => False) (e : Event)
    (meets : KeepsIndex aesd s e) :
    Core (step aesd normalize s e) ∧ Complete (step aesd normalize s e) fun _ => False := by
  cases e with
  | newNode type size tm garbage =>
    refine ⟨core_new core rfl fun _ => .inl rfl, fun a m there keyed settled => ?_⟩
    rcases setNode_cases there with ⟨-, rfl⟩ | ⟨-, old⟩
    · exact absurd rfl keyed.2
    · exact complete a m old keyed settled
  | load type size tm garbage key attrs =>
    exact load_keeps core complete type size tm garbage key attrs
  | update r attrstring tm =>
    rw [step]
    cases live : s.nodes r with
    | none => exact ⟨core, complete⟩
    | some n =>
      exact ⟨core_setNode core live rfl rfl rfl fun _ => .inl rfl,
        complete_setNode complete fun keyed _ => complete r n live keyed not_false⟩
  | setkey r newkey rest =>
    rw [step]
    cases done : s.setkey aesd normalize r newkey rest with
    | error fault => exact ⟨core, complete⟩
    | ok s' => exact setkey_keeps core complete meets done
  | setattr r rest =>
    rw [step]
    cases done : s.setattr aesd normalize r rest with
    | error fault => exact ⟨core, complete⟩
    | ok s' => exact setattr_keeps core complete (fun _ _ _ pending => pending.elim) done
  | setfingerprint r =>
    exact ⟨core_setfingerprint core r,
      complete_setfingerprint core (complete.mono fun _ => False.elim)⟩
  | complete transfer fa garbage refs =>
    rw [step, Client.complete]
    split
    · exact ⟨core, complete⟩
    · rename_i accepted
      have reworked := foldl_reworked (downloaded fa garbage) refs s
      have sorted := (sorted_reworked core reworked).mpr (meets (Bool.eq_false_iff.mpr accepted))
      exact ⟨core_reworked core reworked sorted, complete_reworked complete reworked⟩
  | deleteNode r => exact ⟨core_deleteNode core r, complete_deleteNode complete r⟩

/-- A step after which the index is right meets the condition. -/
theorem step_needs (core : Core s) (e : Event) (indexed : Indexed (step aesd normalize s e)) :
    KeepsIndex aesd s e := by
  cases e with
  | setkey r newkey rest =>
    cases newkey with
    | none => trivial
    | some key =>
      intro n live file empty
      rw [Option.isSome_iff_ne_none]
      intro fails
      rw [← withKey_cipher file] at fails
      rw [step, setkey_undecrypted live fails] at indexed
      have keyed : (n.withKey (some key)).Keyed := by
        refine ⟨file, ?_⟩
        rw [withKey_some file]
        simp
      have mem := (indexed.entries r).mpr ⟨_, Function.update_self .., keyed⟩
      obtain ⟨m, there, flag⟩ := (core.flags r).mp mem
      obtain ⟨-, long⟩ := core.kinds r m there flag
      rw [live] at there
      obtain rfl := Option.some.inj there
      rw [empty] at long
      exact absurd long (by decide)
  | complete transfer fa garbage refs =>
    intro accepted
    rw [step, Client.complete, accepted] at indexed
    exact (sorted_reworked core (foldl_reworked _ refs s)).mp indexed.sorted
  | _ => trivial

end Steps

theorem core_start : Core Client.start where
  sorted := List.Pairwise.nil
  nodup := List.nodup_nil
  flags r := by simp [Client.start]
  kinds r n live := by cases live
  keys r n live := by cases live
  fresh r n live := by cases live

/-- In every run from the start, the index is in order and complete in every state reached exactly
if each step keeps it so. -/
theorem always_indexed_iff (aesd : Aes) (normalize : Bytes → Bytes) (events : List Event) :
    Always (step aesd normalize) Indexed Client.start events ↔
      Meets (step aesd normalize) (KeepsIndex aesd) Client.start events := by
  refine always_iff_meets_of
    (fun s (inv : Core s ∧ Complete s fun _ => False) => inv.1.indexed inv.2)
    (fun s e inv meets => step_keeps inv.1 inv.2 e meets)
    (fun s e inv indexed => step_needs inv.1 e indexed) ⟨core_start, ?_⟩ events
  intro r n live
  cases live

/-- A record of a file of one byte, without a fingerprint; its key starts with `first`. -/
def record (first : UInt8) : Event :=
  .load fileNode 1 5 (Vector.replicate 4 0, Vector.replicate 16 0)
    ((Vector.replicate 32 0).set 0 first) []

/-- Of two files of the same size and time the first is downloaded; nothing is decrypted. -/
def downloadRun : List Event :=
  [record 1, record 2,
    .complete ⟨1, 5, Vector.replicate 4 0, false⟩ (some ⟨5, 1, some #v[3, 0, 0, 0]⟩)
      (Vector.replicate 4 0) [0]]

theorem downloadRun_disorders :
    ¬Always (step (fun _ block => block) id) Indexed Client.start downloadRun := by
  intro always
  have sorted := always.at_end.sorted
  have order : (run (step (fun _ block => block) id) Client.start downloadRun).fingerprints =
      [0, 1] := by decide +kernel
  have greater : ¬(run (step (fun _ block => block) id) Client.start downloadRun).keyOf 0 ≤
      (run (step (fun _ block => block) id) Client.start downloadRun).keyOf 1 := by
    decide +kernel
  rw [order] at sorted
  exact greater ((List.pairwise_cons.mp sorted).1 1 List.mem_cons_self)

end MegaSdk.Nodes.Index
