import MegaSdk.Lib.Champions
import MegaSdk.Nodes.Fingerprint
import MegaSdk.Sync.Direction

/-!
# Remote children of one name

Several remote files may have one local name. `addchild` files the newest of them, among those the
largest, and among those the one with the greatest checksums as `memcmp` reads them, so that the
order of the children does not matter.
-/

namespace MegaSdk.Sync

open ByteOrder Champions

structure FileChild where
  name : Bytes
  ref : NodeRef
  file : FileFingerprint

/-- What `addchild` compares of it. -/
def FileChild.child (c : FileChild) : RemoteChild where
  id := c.ref
  mtime := c.file.mtime
  size := c.file.size
  crc := c.file.crc.toList.flatMap fun word => leBytes 4 word.toNat

/-- The child hash of `syncdown` and `syncup`. -/
def childTable (children : List FileChild) : ChildTable :=
  children.foldl (fun table c => addchild table c.name c.child) fun _ => none

/-- The order of versions: time, then size, then checksums bytewise. -/
def version (f : FileFingerprint) : ℤ ×ₗ ℤ ×ₗ List ℕ :=
  toLex (f.mtime, toLex (f.size, f.crcBytes))

def RemoteChild.rank (n : RemoteChild) : ℤ ×ₗ ℤ ×ₗ List ℕ :=
  toLex (n.mtime, toLex (n.size, n.crc.map UInt8.toNat))

theorem FileChild.length_crc (c : FileChild) : c.child.crc.length = 16 := by
  simp [FileChild.child, List.length_flatMap]

theorem memcmpGreater_iff {a b : Bytes} (length : a.length = b.length) :
    memcmpGreater a b = true ↔ b.map UInt8.toNat < a.map UInt8.toNat := by
  induction a generalizing b with
  | nil =>
    rw [List.length_eq_zero_iff.mp length.symm]
    simp [memcmpGreater]
  | cons x a ih =>
    cases b with
    | nil => cases length
    | cons y b =>
      rw [memcmpGreater, List.map_cons, List.map_cons, List.cons_lt_cons_iff]
      by_cases same : x = y
      · rw [if_pos same, ih (Nat.succ.inj length), same]
        simp
      · have differs : y.toNat ≠ x.toNat := fun eq => same (UInt8.toNat_inj.mp eq).symm
        rw [if_neg same, decide_eq_true_iff, UInt8.lt_iff_toNat_lt]
        simp [differs]

/-- The comparison is the strict order of versions, for checksums of one length. -/
theorem prefers_iff {n old : RemoteChild} (length : n.crc.length = old.crc.length) :
    prefers n old = true ↔ old.rank < n.rank := by
  rw [RemoteChild.rank, RemoteChild.rank, Prod.Lex.toLex_lt_toLex, Prod.Lex.toLex_lt_toLex,
    ← memcmpGreater_iff length]
  simp only [prefers, Bool.or_eq_true, Bool.and_eq_true, decide_eq_true_iff, gt_iff_lt]
  constructor
  · rintro ((newer | ⟨mtime, larger⟩) | ⟨⟨mtime, size⟩, greater⟩)
    · exact Or.inl newer
    · exact Or.inr ⟨mtime.symm, Or.inl larger⟩
    · exact Or.inr ⟨mtime.symm, Or.inr ⟨size.symm, greater⟩⟩
  · rintro (newer | ⟨mtime, larger | ⟨size, greater⟩⟩)
    · exact Or.inl (Or.inl newer)
    · exact Or.inl (Or.inr ⟨mtime.symm, larger⟩)
    · exact Or.inr ⟨⟨mtime.symm, size.symm⟩, greater⟩

theorem addchild_eq (table : ChildTable) (name : Bytes) (n : RemoteChild) :
    addchild table name n = file prefers table (childKey name) n := by
  funext key
  rw [addchild, file]
  split
  · cases table key <;> rfl
  · rfl

def filed (children : List FileChild) : List (Bytes × RemoteChild) :=
  children.map fun c => (childKey c.name, c.child)

theorem childTable_eq (children : List FileChild) :
    childTable children = tableOf prefers (filed children) := by
  simp only [childTable, tableOf, filed, List.foldl_map, addchild_eq]

theorem mem_filed {children : List FileChild} {key : Bytes} {n : RemoteChild} :
    (key, n) ∈ filed children ↔ ∃ c ∈ children, childKey c.name = key ∧ n = c.child := by
  simp [filed, eq_comm]

theorem champion_childTable (children : List FileChild) (key : Bytes) :
    Champion RemoteChild.rank (filed children) key (childTable children key) := by
  rw [childTable_eq]
  refine champion_tableOf (fun e mem old mem' => prefers_iff ?_) key
  obtain ⟨c, -, -, newer⟩ := mem_filed.mp mem
  obtain ⟨d, -, -, older⟩ := mem_filed.mp mem'
  rw [newer, older, c.length_crc, d.length_crc]

/-- A key of the table has a child of the greatest version filed under it. -/
def Winner (children : List FileChild) (key : Bytes) (n : RemoteChild) : Prop :=
  ∃ c ∈ children, childKey c.name = key ∧ n = c.child ∧
    ∀ d ∈ children, childKey d.name = key → version d.file ≤ version c.file

/-- The order in which the children are filed decides neither which names there are nor which
version each of them leads to: the table has the names of the children, each with a child of the
greatest version among those of the name. -/
theorem childTable_perm {children children' : List FileChild} (perm : children'.Perm children)
    (key : Bytes) :
    ((childTable children' key).isSome ↔ (childTable children key).isSome) ∧
      ((childTable children' key).isSome ↔ ∃ c ∈ children, childKey c.name = key) ∧
      ∀ n, childTable children' key = some n → Winner children key n := by
  have other := (champion_childTable children' key).perm (perm.map _)
  refine ⟨other.isSome_iff.trans (champion_childTable children key).isSome_iff.symm, ?_, ?_⟩
  · refine other.isSome_iff.trans ⟨?_, ?_⟩
    · rintro ⟨n, member⟩
      obtain ⟨c, mem, named, -⟩ := mem_filed.mp member
      exact ⟨c, mem, named⟩
    · rintro ⟨c, mem, named⟩
      exact ⟨c.child, mem_filed.mpr ⟨c, mem, named, rfl⟩⟩
  · intro n found
    rw [found] at other
    obtain ⟨member, greatest⟩ := other
    obtain ⟨c, mem, named, rfl⟩ := mem_filed.mp member
    refine ⟨c, mem, named, rfl, fun d mem' named' => ?_⟩
    exact greatest d.child (mem_filed.mpr ⟨d, mem', named', rfl⟩)

/-- A file, the same name with an escape, and a newer file of less size. -/
def clashing : List FileChild :=
  [⟨ascii "a:b", 1, ⟨9, 10, Vector.replicate 4 1, true⟩⟩,
    ⟨ascii "a%3ab", 2, ⟨9, 10, Vector.replicate 4 2, true⟩⟩,
    ⟨ascii "c", 3, ⟨4, 11, Vector.replicate 4 0, true⟩⟩]

theorem childTable_reversed :
    ((childTable clashing.reverse (ascii "a:b")).isSome ↔
        (childTable clashing (ascii "a:b")).isSome) ∧
      ((childTable clashing.reverse (ascii "a:b")).isSome ↔
        ∃ c ∈ clashing, childKey c.name = ascii "a:b") ∧
      ∀ n, childTable clashing.reverse (ascii "a:b") = some n → Winner clashing (ascii "a:b") n :=
  childTable_perm clashing.reverse_perm (ascii "a:b")

example : (childTable clashing (ascii "a:b")).map (·.id) = some 2 := by decide +kernel

namespace Heap

/-- The remote file of an entry that one of the loops over the children accepts. -/
def accepted (h : Heap) (accept : RemoteEntry → Bytes → Bool) (e : RemoteEntry) :
    Option FileChild :=
  match e.name, h.nodes e.ref with
  | some name, some n =>
    if accept e name && !n.data.syncdeleted && !e.undecrypted then
      some ⟨name, e.ref, n.data.file⟩
    else none
  | _, _ => none

theorem enlist_eq (h : Heap) (accept : RemoteEntry → Bytes → Bool) (table : ChildTable)
    (e : RemoteEntry) :
    h.enlist accept table e =
      ((h.accepted accept e).toList.foldl fun table c => addchild table c.name c.child) table := by
  rw [enlist, accepted]
  cases e.name with
  | none => rfl
  | some name =>
    cases h.nodes e.ref with
    | none => rfl
    | some n =>
      dsimp only
      split <;> rfl

theorem foldl_enlist (h : Heap) (accept : RemoteEntry → Bytes → Bool) (entries : List RemoteEntry) :
    entries.foldl (h.enlist accept) (fun _ => none) =
      childTable (entries.filterMap (h.accepted accept)) := by
  induction entries using List.reverseRecOn with
  | nil => rfl
  | append_singleton entries e ih =>
    rw [List.foldl_append, ih, List.filterMap_append, childTable, childTable, List.foldl_append,
      List.foldl_cons, List.foldl_nil, enlist_eq, List.filterMap_cons]
    cases h.accepted accept e <;> rfl

end Heap

end MegaSdk.Sync
