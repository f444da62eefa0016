import MegaSdk.Types
import Mathlib.Data.List.TakeWhile

/-!
# Paths of local nodes

`getlocalpath` climbs to the root of the sync and puts one name after the other in front;
`localnodebypath` walks down again, component by component, and stops at the first one that no
child has. The `LocalNode` at which it stops need not be a folder.
-/

namespace MegaSdk.Sync.Paths

universe u

/-- The `LocalNode`s of a sync. Siblings have different names, which are not empty and do not
contain the separator. -/
structure LocalTree (Local : Type u) where
  /-- `localseparator`. -/
  separator : UInt8
  root : Local
  type : Local → NodeType
  localname : Local → Bytes
  slocalname : Local → Bytes
  parent : Local → Option Local
  children : Local → Bytes → Option Local
  schildren : Local → Bytes → Option Local
  depth : Local → Nat
  drops : ∀ l p, parent l = some p → depth p < depth l
  rooted : ∀ l, parent l = none ↔ l = root
  linked : ∀ p name l, children p name = some l ↔ parent l = some p ∧ localname l = name
  slinked : ∀ p name l, schildren p name = some l →
    parent l = some p ∧ slocalname l = name ∧ name ≠ []
  named : ∀ l p, parent l = some p → localname l ≠ [] ∧ separator ∉ localname l
  folders : ∀ l p, parent l = some p → type p = folderNode

/-- What `localnodebypath` returns, with `*parent` and the residual path. -/
structure Lookup (Local : Type u) where
  found : Option Local
  parent : Option Local
  rpath : Bytes
  deriving DecidableEq

namespace LocalTree
variable {Local : Type u} (t : LocalTree Local)

/-- The loop of `getlocalpath`; `sdisable` is for the last name only. -/
def localpathFrom : Nat → Bool → Bytes → Local → Bytes
  | 0, _, path, _ => path
  | fuel + 1, sdisable, path, l =>
    let name := if sdisable = false ∧ t.slocalname l ≠ [] then t.slocalname l else t.localname l
    match t.parent l with
    | none => name ++ path
    | some p => localpathFrom fuel false (t.separator :: (name ++ path)) p

def getlocalpath (l : Local) (sdisable : Bool) : Bytes :=
  t.localpathFrom (t.depth l + 1) sdisable [] l

def child (l : Local) (name : Bytes) : Option Local := (t.children l name).or (t.schildren l name)

/-- The loop of `localnodebypath`: the bytes between `ptr` and `nptr`, and those from `nptr` on. -/
def walk (l : Local) (component : Bytes) : Bytes → Lookup Local
  | [] =>
    match t.child l component with
    | none => ⟨none, some l, component⟩
    | some next => ⟨some next, some l, []⟩
  | c :: rest =>
    if c = t.separator then
      match t.child l component with
      | none => ⟨none, some l, component ++ c :: rest⟩
      | some next => walk next [] rest
    else walk l (component ++ [c]) rest

def localnodebypath (l : Option Local) (localpath : Bytes) : Lookup Local :=
  match l with
  | some l => t.walk l [] localpath
  | none =>
    let start := t.localname t.root ++ [t.separator]
    if start <+: localpath then t.walk t.root [] (localpath.drop start.length)
    else ⟨none, none, []⟩

/-- No file system name differs from the long one. -/
def NoShortNames : Prop := ∀ l, t.slocalname l = []

variable {t} {l p : Local}

theorem child_eq (long : t.NoShortNames) (name : Bytes) : t.child l name = t.children l name := by
  have none : t.schildren l name = none := by
    rw [Option.eq_none_iff_forall_ne_some]
    intro k short
    obtain ⟨-, same, some⟩ := t.slinked l name k short
    exact some (same ▸ long k)
  rw [child, none, Option.or_none]

theorem child_some (long : t.NoShortNames) (edge : t.parent l = some p) :
    t.child p (t.localname l) = some l := by
  rw [child_eq long, t.linked]
  exact ⟨edge, rfl⟩

theorem child_none (long : t.NoShortNames) {name : Bytes} (absent : t.child p name = none) :
    ∀ k, t.parent k = some p → t.localname k ≠ name := by
  rintro k edge rfl
  rw [child_some long edge] at absent
  cases absent

theorem localpathFrom_eq (long : t.NoShortNames) (fuel : Nat) (enough : t.depth l < fuel)
    (sdisable : Bool) (path : Bytes) :
    t.localpathFrom fuel sdisable path l = t.getlocalpath l false ++ path := by
  induction fuel using Nat.strong_induction_on generalizing l sdisable path with
  | _ fuel ih =>
    obtain ⟨fuel, rfl⟩ : ∃ f, fuel = f + 1 := ⟨fuel - 1, by omega⟩
    rw [getlocalpath, localpathFrom, localpathFrom]
    simp only [long l, ne_eq, not_true_eq_false, and_false, if_false]
    cases above : t.parent l with
    | none => simp
    | some p =>
      have drops := t.drops l p above
      dsimp only
      rw [ih fuel (Nat.lt_succ_self _) (by omega) false, ih (t.depth l) (by omega) drops false]
      simp

theorem getlocalpath_root (long : t.NoShortNames) (sdisable : Bool) :
    t.getlocalpath t.root sdisable = t.localname t.root := by
  have top : t.parent t.root = none := (t.rooted _).mpr rfl
  simp [getlocalpath, localpathFrom, top, long t.root]

/-- A path is that of the parent with a separator and the name. -/
theorem getlocalpath_child (long : t.NoShortNames) (edge : t.parent l = some p) (sdisable : Bool) :
    t.getlocalpath l sdisable = t.getlocalpath p false ++ t.separator :: t.localname l := by
  rw [getlocalpath, localpathFrom]
  simp only [edge, long l, ne_eq, not_true_eq_false, and_false, if_false, List.append_nil]
  exact localpathFrom_eq long _ (t.drops l p edge) false _

/-- A name without separators becomes the component. -/
theorem walk_append {name : Bytes} (plain : t.separator ∉ name) (component rest : Bytes) :
    t.walk l component (name ++ rest) = t.walk l (component ++ name) rest := by
  induction name generalizing component with
  | nil => rw [List.nil_append, List.append_nil]
  | cons c name ih =>
    rw [List.mem_cons, not_or] at plain
    rw [List.cons_append, walk, if_neg (Ne.symm plain.1), ih plain.2, List.append_assoc]
    rfl

/-- The path of a `LocalNode` below the root leads to it. -/
theorem walk_getlocalpath (long : t.NoShortNames) (below : l ≠ t.root) :
    ∃ s, t.getlocalpath l false = t.localname t.root ++ t.separator :: s ∧
      t.walk t.root [] s = ⟨some l, t.parent l, []⟩ ∧
      ∀ rest, t.walk t.root [] (s ++ t.separator :: rest) = t.walk l [] rest := by
  obtain ⟨n, bound⟩ : ∃ n, t.depth l < n := ⟨_, Nat.lt_succ_self _⟩
  induction n generalizing l with
  | zero => cases bound
  | succ n ih =>
    cases edge : t.parent l with
    | none => exact absurd ((t.rooted l).mp edge) below
    | some p =>
      have plain := (t.named l p edge).2
      have found := child_some long edge
      have last : t.walk p [] (t.localname l) = ⟨some l, some p, []⟩ := by
        have step := walk_append plain [] [] (l := p)
        rw [List.append_nil, List.nil_append] at step
        rw [step, walk, found]
      have next : ∀ rest, t.walk p [] (t.localname l ++ t.separator :: rest) = t.walk l [] rest := by
        intro rest
        rw [walk_append plain, List.nil_append, walk, if_pos rfl, found]
      rw [getlocalpath_child long edge]
      by_cases top : p = t.root
      · subst top
        rw [getlocalpath_root long]
        exact ⟨_, rfl, last, next⟩
      · obtain ⟨s, path, -, through⟩ := ih top (Nat.lt_of_lt_of_le (t.drops l p edge)
          (Nat.le_of_lt_succ bound))
        refine ⟨s ++ t.separator :: t.localname l, ?_, ?_, fun rest => ?_⟩
        · rw [path, List.append_assoc, List.cons_append]
        · rw [through, last]
        · rw [List.append_assoc, List.cons_append, through, next]

def firstComponent (t : LocalTree Local) (rpath : Bytes) : Bytes :=
  rpath.takeWhile fun c => c ≠ t.separator

theorem firstComponent_append {component : Bytes} (plain : t.separator ∉ component)
    (rest : Bytes) : t.firstComponent (component ++ rest) = component ++ t.firstComponent rest := by
  rw [firstComponent, firstComponent, List.takeWhile_append_of_pos]
  intro c mem
  rw [decide_eq_true_eq]
  rintro rfl
  exact plain mem

/-- The walk ends at the `LocalNode` with the path, or where no child has the next name. -/
def Leads (t : LocalTree Local) (path : Bytes) (result : Lookup Local) : Prop :=
  (∃ k, t.getlocalpath k false = path ∧ result = ⟨some k, t.parent k, []⟩) ∨
    ∃ p residual, result = ⟨none, some p, residual⟩ ∧
      t.getlocalpath p false ++ t.separator :: residual = path ∧
      ∀ k, t.parent k = some p → t.localname k ≠ t.firstComponent residual

theorem walk_leads (long : t.NoShortNames) (l : Local) {component : Bytes}
    (plain : t.separator ∉ component) (rest : Bytes) :
    t.Leads (t.getlocalpath l false ++ t.separator :: (component ++ rest))
      (t.walk l component rest) := by
  induction rest generalizing l component with
  | nil =>
    rw [walk, List.append_nil]
    cases lookup : t.child l component with
    | none =>
      refine .inr ⟨l, component, rfl, rfl, ?_⟩
      have whole := firstComponent_append plain []
      rw [List.append_nil] at whole
      rw [whole]
      simpa [firstComponent] using child_none long lookup
    | some next =>
      rw [child_eq long, t.linked] at lookup
      obtain ⟨edge, rfl⟩ := lookup
      exact .inl ⟨next, getlocalpath_child long edge false, by rw [edge]⟩
  | cons c rest ih =>
    rw [walk]
    split
    · next separates =>
      subst separates
      cases lookup : t.child l component with
      | none =>
        refine .inr ⟨l, _, rfl, rfl, ?_⟩
        rw [firstComponent_append plain]
        simpa [firstComponent] using child_none long lookup
      | some next =>
        rw [child_eq long, t.linked] at lookup
        obtain ⟨edge, rfl⟩ := lookup
        have path := getlocalpath_child long edge false
        have leads := ih next (List.not_mem_nil (a := t.separator))
        rw [path] at leads
        simpa using leads
    · next inside =>
      have longer : t.separator ∉ component ++ [c] := by
        simpa [plain] using Ne.symm inside
      have leads := ih l longer
      rw [List.append_assoc] at leads
      exact leads

/-- Paths of `LocalNode`s are found, and any other path below the root is split at the
`LocalNode` where the names of the tree end. -/
theorem localnodebypath_inverts (t : LocalTree Local) (long : t.NoShortNames) :
    (∀ l sdisable, l ≠ t.root →
      t.localnodebypath none (t.getlocalpath l sdisable) = ⟨some l, t.parent l, []⟩) ∧
    ∀ path, t.localname t.root ++ [t.separator] <+: path →
      (∀ l, t.getlocalpath l false ≠ path) →
      ∃ p residual, t.localnodebypath none path = ⟨none, some p, residual⟩ ∧
        t.getlocalpath p false ++ t.separator :: residual = path ∧
        (∀ k, t.parent k = some p → t.localname k ≠ t.firstComponent residual) ∧
        ((∀ k, t.type k ≠ folderNode → ¬t.getlocalpath k false ++ [t.separator] <+: path) →
          t.type p = folderNode) := by
  constructor
  · intro l sdisable below
    obtain ⟨s, path, found, -⟩ := walk_getlocalpath long below
    have same : t.getlocalpath l sdisable = t.getlocalpath l false := by
      cases edge : t.parent l with
      | none => exact absurd ((t.rooted l).mp edge) below
      | some p => rw [getlocalpath_child long edge, getlocalpath_child long edge]
    have start : t.localname t.root ++ t.separator :: s =
        t.localname t.root ++ [t.separator] ++ s := by simp
    rw [same, path, start, localnodebypath, if_pos (List.prefix_append _ _), List.drop_left, found]
  · rintro path ⟨rest, rfl⟩ unused
    have leads := walk_leads long t.root List.not_mem_nil rest
    rw [getlocalpath_root long, List.nil_append, ← List.singleton_append, ← List.append_assoc]
      at leads
    rw [localnodebypath, if_pos (List.prefix_append _ _), List.drop_left]
    rcases leads with ⟨k, path, -⟩ | ⟨p, residual, result, path, absent⟩
    · exact absurd path (unused k)
    · refine ⟨p, residual, result, path, absent, fun foldersOnly => ?_⟩
      by_contra file
      exact foldersOnly p file ⟨residual, by rw [← path]; simp⟩

end LocalTree

def fileTree : LocalTree Bool where
  separator := 47
  root := false
  type := fun l => if l then fileNode else folderNode
  localname := fun l => if l then ascii "a" else ascii "r"
  slocalname := fun _ => []
  parent := fun l => if l then some false else none
  children := fun p name => if p = false ∧ name = ascii "a" then some true else none
  schildren := fun _ _ => none
  depth := fun l => if l then 1 else 0
  drops := by
    intro l p edge
    cases l <;> cases edge
    decide
  rooted := by decide
  linked := by
    intro p name l
    cases p <;> cases l <;> simp [eq_comm]
  slinked := by
    intro p name l impossible
    cases impossible
  named := by decide
  folders := by
    intro l p edge
    cases l <;> cases edge
    rfl

/-- A path that goes on behind the name of a file stops at the file. -/
theorem fileTree_stops_at_file : (∀ l, fileTree.getlocalpath l false ≠ ascii "r/a/x") ∧
    fileTree.localnodebypath none (ascii "r/a/x") = ⟨none, some true, ascii "x"⟩ ∧
    fileTree.type true ≠ folderNode := by decide

/-- The file is found by its path, and a missing sibling is not. -/
theorem localnodebypath_inverts_fileTree :
    fileTree.localnodebypath none (fileTree.getlocalpath true false) = ⟨some true, some false, []⟩ ∧
    ∃ p residual, fileTree.localnodebypath none (ascii "r/b/x") = ⟨none, some p, residual⟩ ∧
      fileTree.type p = folderNode := by
  obtain ⟨found, missing⟩ := LocalTree.localnodebypath_inverts fileTree (fun _ => rfl)
  obtain ⟨p, residual, result, -, -, folder⟩ := missing (ascii "r/b/x") (by decide) (by decide)
  exact ⟨found true false (by decide), p, residual, result, folder (by decide)⟩

end MegaSdk.Sync.Paths
