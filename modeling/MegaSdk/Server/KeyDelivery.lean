import MegaSdk.Server.KeyRequests
import MegaSdk.Server.KeySelector
import MegaSdk.Server.RequestTexts

/-!
# Keys on their way to the owner of a share

The `cr` member of a command is read by `proccr` just as it was written: the handles of the shares
and of the nodes, and for every key its two indexes. The owner of the shares, who has the same share
keys, then gives every node the key that the sender has for it, and answers nothing.
-/

namespace MegaSdk.Server

open ByteOrder Crypto Json Nodes ParentForest
open MegaSdk.Tree hiding undef

/-- An entry with indexes into the two lists, and a key that fits into the buffer. -/
structure Fits (shares nodes : Nat) (e : CrEntry) : Prop where
  share : e.nsi < shares
  node : e.nni < nodes
  key : e.key.length ≤ 32

def selectorTuple (e : CrEntry) : SelectorTuple := (e.nsi, e.nni, some e.key)

section Linkage
variable {shares nodes : Nat} (few : shares ≤ 2 ^ 32 ∧ nodes ≤ 2 ^ 32)
include few

end Linkage

/-- A `cr` element with proper indexes and handles. -/
structure Proper (shares : List UInt64) (items : List Bytes) (entries : List CrEntry) : Prop where
  few : shares.length ≤ 2 ^ 32 ∧ items.length ≤ 2 ^ 32
  six : ∀ item ∈ items, item.length = 6
  fits : ∀ e ∈ entries, Fits shares.length items.length e

theorem ecbBlocks_inverse {cipher inverse : Block → Block} (inverts : ∀ b, inverse (cipher b) = b)
    (blocks : Nat) {data : Bytes} (whole : data.length = blocks * blockSize) :
    ecbBlocks inverse blocks (ecbBlocks cipher blocks data) = data := by
  induction blocks generalizing data with
  | zero =>
    rw [Nat.zero_mul] at whole
    rw [List.length_eq_zero_iff.mp whole]
    rfl
  | succ blocks ih =>
    have long : 16 ≤ data.length := by
      rw [whole, Nat.succ_mul]
      exact Nat.le_add_left _ _
    have rest : (data.drop blockSize).length = blocks * blockSize := by
      rw [List.length_drop, whole, Nat.succ_mul, Nat.add_sub_cancel]
    have first : ∀ b : Block, b.toList.length = blockSize := fun b => Vector.length_toList
    rw [ecbBlocks, ecbBlocks, load_toList_append, inverts, toList_load long,
      List.drop_left' (first _), ih rest, List.take_append_drop]

theorem ecbData_inverse {cipher inverse : Block → Block} (inverts : ∀ b, inverse (cipher b) = b)
    {data : Bytes} (whole : blockSize ∣ data.length) :
    ecbData inverse (ecbData cipher data) = data := by
  have blocks := Nat.div_mul_cancel whole
  have length : (ecbData cipher data).length = data.length :=
    (length_ecbBlocks cipher _ data).trans blocks
  rw [ecbData, length]
  exact ecbBlocks_inverse inverts _ blocks.symm

/-- Node keys have whole blocks. -/
theorem NodeKeys.whole (keys : NodeKeys) : blockSize ∣ keys.nodekey.length := by
  rcases keys.sized with none | sized
  · rw [none]
    exact Nat.dvd_zero _
  · rw [sized, keyLength]
    split <;> decide

/-- An entry under the handles of a share and a node that the receiver knows by `image`: it owns the
share with the same key, and the node is in it and has a key of the same length. -/
structure Delivers (aes : Aes) (sender receiver : KeyTree) (image : Ref → Ref)
    (shares nodes : NodeVector) (e : CrEntry) (s n : Ref) : Prop where
  share : shares[e.nsi]? = some (some (image s))
  node : nodes[e.nni]? = some (some (image n))
  key : e.key = sealedKey aes sender s n
  owned : (receiver.keys (image s)).inshare = false
  shared : (sender.keys s).sharekey.isSome
  sharekey : (receiver.keys (image s)).sharekey = (sender.keys s).sharekey
  below : receiver.isbelow (image n) (image s) = true
  length : (receiver.keys (image n)).nodekey.length = (sender.keys n).nodekey.length
  keyed : (sender.keys n).nodekey ≠ []

/-- The state after the keys of some nodes were set. -/
structure Delivered (sender receiver : KeyTree) (image : Ref → Ref) (done : List Ref)
    (s : CrState) : Prop where
  shape : SameShape receiver s.tree
  sharekeys : ∀ m, (s.tree.keys m).sharekey = (receiver.keys m).sharekey
  keys : ∀ n ∈ done, (s.tree.keys (image n)).nodekey = (sender.keys n).nodekey
  others : ∀ m, (∀ n ∈ done, image n ≠ m) → s.tree.keys m = receiver.keys m
  silent : s.crkeys = []

section Delivery
variable {aes aesd : Aes} {sender receiver : KeyTree} {image : Ref → Ref}
variable {shares nodes : NodeVector}

/-- A node whose key comes with the tuple is not answered. -/
theorem treat_silent {s : CrState} {sn n : Ref} (key : Bytes) :
    (treat aes aesd (readKey s (some key)) sn n).1.crkeys = s.crkeys := by
  have pending : (readKey s (some key)).setkey = some key.length := rfl
  rw [treat, pending]
  split
  · dsimp only
    split
    · rfl
    · rfl
  · rfl

/-- The owner's node gets the key that the sender has. -/
theorem Delivered.consider (inverse : ∀ key b, aesd key (aes key b) = b) {done : List Ref}
    {s : CrState} (delivered : Delivered sender receiver image done s) {e : CrEntry} {sn n : Ref}
    (delivers : Delivers aes sender receiver image shares nodes e sn n)
    (apart : ∀ m ∈ done, image m = image n → m = n) :
    ∃ s' treatment, Server.consider aes aesd (ownShares receiver shares) nodes
        (readKey s (some e.key)) e.nsi e.nni = .ok (s', treatment) ∧
      Delivered sender receiver image (done ++ [n]) s' := by
  have share : (ownShares receiver shares)[e.nsi]? = some (some (image sn)) := by
    have own : (receiver.keys (image sn)).sharekey.isSome := by
      rw [delivers.sharekey]
      exact delivers.shared
    rw [ownShares, List.getElem?_map, delivers.share]
    simp [delivers.owned, own]
  have below : s.tree.isbelow (image n) (image sn) = true := by
    rw [delivered.shape.isbelow]
    exact delivers.below
  have length : e.key.length = (sender.keys n).nodekey.length := by
    rw [delivers.key, sealedKey, ecbData, length_ecbBlocks]
    exact Nat.div_mul_cancel (NodeKeys.whole _)
  have accepted : accepts s.tree (image n) e.key = true := by
    rw [accepts, decide_eq_true_eq, delivered.shape.length, delivers.length, length]
  have keyed : e.key ≠ [] := by
    intro empty
    rw [empty] at length
    exact delivers.keyed (List.length_eq_zero_iff.mp length.symm)
  obtain ⟨-, -, tree⟩ := @treat_accepts aes aesd s (image sn) (image n) e.key below accepted keyed
  have samekey : Server.sharekey s.tree (image sn) = Server.sharekey sender sn := by
    rw [Server.sharekey, Server.sharekey, delivered.sharekeys, delivers.sharekey]
  have plain : ecbData (aesd (Server.sharekey s.tree (image sn))) e.key = (sender.keys n).nodekey := by
    rw [samekey, delivers.key]
    exact ecbData_inverse (inverse _) (NodeKeys.whole _)
  rw [plain, applyTreatment] at tree
  have old : (s.tree.keys (image n)).nodekey ≠ [] := by
    intro empty
    have zero := (delivered.shape.length (image n)).trans delivers.length
    rw [empty] at zero
    exact delivers.keyed (List.length_eq_zero_iff.mp zero.symm)
  have set : (((setNodekey s.tree (image n) (overlay (sender.keys n).nodekey
      (Vector.replicate 32 0))).keys (image n)).nodekey) = (sender.keys n).nodekey := by
    have sized := (s.tree.keys (image n)).sized.resolve_left old
    rw [delivered.shape.length, delivers.length] at sized
    rw [setNodekey]
    simp only [Function.update_self]
    rw [← sized]
    exact take_overlay (sized.le.trans (keyLength_le _)) _
  have elsewhere : ∀ m, m ≠ image n → (setNodekey s.tree (image n) (overlay (sender.keys n).nodekey
      (Vector.replicate 32 0))).keys m = s.tree.keys m := by
    intro m other
    rw [setNodekey]
    exact Function.update_of_ne other ..
  refine ⟨(treat aes aesd (readKey s (some e.key)) (image sn) (image n)).1,
    (treat aes aesd (readKey s (some e.key)) (image sn) (image n)).2, ?_, ⟨?_, ?_, ?_, ?_, ?_⟩⟩
  · unfold Server.consider
    rw [share, delivers.node]
  · rw [tree]
    have shape := sameShape_setNodekey s.tree old (overlay (sender.keys n).nodekey
      (Vector.replicate 32 0))
    exact ⟨fun m p => (shape.isbelow m p).trans (delivered.shape.isbelow m p),
      fun m => (shape.length m).trans (delivered.shape.length m)⟩
  · intro m
    rw [tree]
    by_cases here : m = image n
    · subst here
      rw [← delivered.sharekeys, setNodekey]
      simp only [Function.update_self]
    · rw [elsewhere m here, delivered.sharekeys]
  · intro m mem
    rw [tree]
    by_cases same : image m = image n
    · rcases List.mem_append.mp mem with old | new
      · rw [apart m old same, set]
      · rw [List.mem_singleton.mp new, set]
    · rw [elsewhere _ same]
      rcases List.mem_append.mp mem with old | new
      · exact delivered.keys m old
      · exact absurd (congrArg image (List.mem_singleton.mp new)) same
  · intro m outside
    rw [tree, elsewhere m (outside n (by simp)).symm]
    exact delivered.others m fun k mem => outside k (List.mem_append_left _ mem)
  · exact (treat_silent e.key).trans delivered.silent

/-- The loop over all tuples. -/
theorem Delivered.crTuples (inverse : ∀ key b, aesd key (aes key b) = b) {visited : List Ref}
    (apart : ∀ n ∈ visited, ∀ m ∈ visited, image n = image m → n = m) {entries : List CrEntry}
    {done : List Ref} {s : CrState} (known : ∀ n ∈ done, n ∈ visited)
    (delivered : Delivered sender receiver image done s)
    (each : ∀ e ∈ entries, ∃ sn, ∃ n ∈ visited,
      Delivers aes sender receiver image shares nodes e sn n) :
    ∃ s' treatments done', Server.crTuples aes aesd (ownShares receiver shares) nodes s
        (entries.map selectorTuple) = .ok (s', treatments) ∧
      Delivered sender receiver image done' s' ∧ (∀ n ∈ done', n ∈ visited) ∧
      (∀ n ∈ done, n ∈ done') ∧
      ∀ e ∈ entries, ∃ n ∈ done', nodes[e.nni]? = some (some (image n)) := by
  induction entries generalizing done s with
  | nil =>
    exact ⟨s, [], done, rfl, delivered, known, fun _ => id,
      fun e mem => absurd mem List.not_mem_nil⟩
  | cons e entries ih =>
    obtain ⟨⟨sn, n, there, delivers⟩, others⟩ := List.forall_mem_cons.mp each
    obtain ⟨s₁, treatment, considered, delivered₁⟩ := delivered.consider inverse delivers
      fun m mem => apart m (known m mem) n there
    have known₁ : ∀ m ∈ done ++ [n], m ∈ visited :=
      List.forall_mem_append.mpr ⟨known, by rwa [List.forall_mem_singleton]⟩
    obtain ⟨s', treatments, done', run, delivered', known', kept, last⟩ :=
      ih known₁ delivered₁ others
    refine ⟨s', treatment :: treatments, done', ?_, delivered', known',
      fun m mem => kept m (List.mem_append_left _ mem), List.forall_mem_cons.mpr ⟨?_, last⟩⟩
    · rw [List.map_cons, selectorTuple, Server.crTuples, considered]
      simp only [run, Except.map]
    · exact ⟨n, kept n (List.mem_append_right _ (List.mem_singleton_self n)), delivers.node⟩

end Delivery

/-- The value of the `cr` member with collected keys. -/
def ShareNodeKeys.text (t : KeyTree) (k : ShareNodeKeys) : Bytes :=
  crText (k.shares.map fun s => (t.keys s).nodehandle) k.items k.keys

section Emitted
variable {aes : Aes} {sender receiver : KeyTree} {nodebyhandle : Bytes → Option Ref}
variable {image : Ref → Ref} {visited owners : List Ref} {k : ShareNodeKeys}

end Emitted

end MegaSdk.Server
