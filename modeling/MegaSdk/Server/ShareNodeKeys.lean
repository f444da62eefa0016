import MegaSdk.Server.KeyResponse
import MegaSdk.Lib.ByteOrder
import MegaSdk.Lib.Traversal
import MegaSdk.Tree.Acyclicity

/-!
# Share keys of a subtree

sharenodekeys.cpp and treeproc.cpp: the keys of the nodes that `proctree` visits are encrypted
with the keys of all shares at or above them. Shares and nodes are listed on the way, and every
key is stored under the indexes of both.
-/

namespace MegaSdk.Server

open ByteOrder Crypto Nodes ParentForest MegaSdk.Tree

/-- A tree with lists of children. Both ends of a link agree, and as the nodes are finitely
many, the depths are bounded. -/
structure KeyForest extends KeyTree where
  children : Ref → List Ref
  linked : ∀ n p, n ∈ children p ↔ parent n = some p
  once : ∀ p, (children p).Nodup
  bound : Nat
  shallow : ∀ n, depth n ≤ bound

namespace KeyForest
variable (f : KeyForest)

/-- A tree in memory has links that agree; without a cycle it is such a forest. -/
theorem of_heap {h : Heap} (wired : h.Wired) (acyclic : Acyclic h.parent) (keys : Ref → NodeKeys) :
    ∃ f : KeyForest, f.keys = keys ∧ f.parent = h.parent ∧ f.children = h.children := by
  obtain ⟨rank, drops, bounded⟩ := wired.bounded acyclic
  exact ⟨⟨⟨keys, h.parent, rank, drops⟩, h.children,
    fun n p => (wired.linked.mem_iff n p).symm, wired.linked.once, h.next, bounded⟩, rfl, rfl, rfl⟩

section Proctree
variable {σ : Type} (proc : Ref → σ → σ)

/-- `proctree` with a `TreeProc` that leaves the tree as it is; out of fuel it is `none`. -/
def proctreeFrom : Nat → Ref → σ → Option σ
  | 0, _, _ => none
  | fuel + 1, n, s =>
    (if (f.keys n).type = fileNode then some s
      else (f.children n).foldlM (fun s c => proctreeFrom fuel c s) s).map (proc n)

def proctree (n : Ref) (s : σ) : Option σ := f.proctreeFrom proc (f.bound + 1) n s

end Proctree

/-- The children that `proctree` goes to. -/
def entered (n : Ref) : List Ref := if (f.keys n).type = fileNode then [] else f.children n

theorem parent_of_entered {n c : Ref} (mem : c ∈ f.entered n) : f.parent c = some n := by
  unfold entered at mem
  split at mem
  · cases mem
  · exact (f.linked c n).mp mem

theorem nodup_entered (n : Ref) : (f.entered n).Nodup := by
  unfold entered
  split
  · exact List.nodup_nil
  · exact f.once n

/-- `proctree` calls `proc` for the nodes in postorder. -/
theorem proctreeFrom_eq {σ : Type} (proc : Ref → σ → σ) {fuel : Nat} {n : Ref}
    (enough : f.bound < f.depth n + fuel) (s : σ) :
    f.proctreeFrom proc fuel n s =
      some ((postorder f.entered fuel n).foldl (fun s m => proc m s) s) := by
  induction fuel generalizing n s with
  | zero =>
    have := f.shallow n
    omega
  | succ fuel ih =>
    have round : ∀ cs : List Ref, (∀ c ∈ cs, f.parent c = some n) → ∀ s,
        cs.foldlM (fun s c => f.proctreeFrom proc fuel c s) s =
          some ((cs.flatMap (postorder f.entered fuel)).foldl (fun s m => proc m s) s) := by
      intro cs
      induction cs with
      | nil => exact fun _ _ => rfl
      | cons c cs rest =>
        intro below s
        have lower := f.drops c n (below c List.mem_cons_self)
        rw [List.foldlM_cons, ih (by omega), List.flatMap_cons, List.foldl_append]
        exact rest (fun d mem => below d (List.mem_cons_of_mem c mem)) _
    rw [proctreeFrom, postorder, List.foldl_append, entered]
    split
    · rfl
    · rw [round _ fun c mem => (f.linked c n).mp mem]
      rfl

/-- The nodes that `proctree` visits, in order. -/
def visits (n : Ref) : List Ref := postorder f.entered (f.bound + 1) n

theorem proctree_eq {σ : Type} (proc : Ref → σ → σ) (n : Ref) (s : σ) :
    f.proctree proc n s = some ((f.visits n).foldl (fun s m => proc m s) s) :=
  f.proctreeFrom_eq proc (by omega) s

theorem mem_visits_iff {n m : Ref} : m ∈ f.visits n ↔ Reached f.entered n m :=
  mem_postorder_iff (fun _ _ => f.parent_of_entered) f.drops f.shallow (by omega)

theorem nodup_visits (n : Ref) : (f.visits n).Nodup :=
  nodup_postorder (fun _ _ => f.parent_of_entered) f.drops f.shallow f.nodup_entered (by omega)

end KeyForest

/-- The part of a `NodeCore` that key distribution reads. -/
structure NodeCore where
  nodehandle : UInt64
  nodekey : Bytes

def nodeCore (t : KeyTree) (n : Ref) : NodeCore := ⟨(t.keys n).nodehandle, (t.keys n).nodekey⟩

structure ShareNodeKeys where
  shares : List Ref
  items : List Bytes
  keys : List CrEntry
  deriving DecidableEq, Repr

/-- The `cr` element: handles of shares, items, and the text of the keys. -/
structure CrElement where
  shares : List UInt64
  items : List Bytes
  keys : Bytes
  deriving DecidableEq, Repr

/-- `keys` of `ShareNodeKeys`, with a comma in front of every entry. -/
def keysText (keys : List CrEntry) : Bytes :=
  keys.flatMap fun e => ascii "," ++ ascii (toString e.nsi) ++ ascii "," ++
    ascii (toString e.nni) ++ ascii ",\"" ++ Base64.btoa e.key ++ ascii "\""

/-- The keys are written as those in a response to a key request. -/
theorem drop_keysText (keys : List CrEntry) : (keysText keys).drop 1 = crkeysText keys := by
  have quoted : keys.flatMap (fun e => ascii "\"," ++ ascii (toString e.nsi) ++ ascii "," ++
      ascii (toString e.nni) ++ ascii ",\"" ++ Base64.btoa e.key) ++ ascii "\"" =
      ascii "\"" ++ keysText keys := by
    have split : ascii "\"," = ascii "\"" ++ ascii "," := by decide
    unfold keysText
    induction keys with
    | nil => rfl
    | cons e keys ih =>
      rw [List.flatMap_cons, List.append_assoc, ih, List.flatMap_cons, split]
      simp only [List.append_assoc]
  rw [crkeysText, quoted]
  rfl

namespace ShareNodeKeys

def empty : ShareNodeKeys := ⟨[], [], []⟩

def addshare (k : ShareNodeKeys) (sn : Ref) : ShareNodeKeys × Nat :=
  ({ k with shares := (addnode k.shares sn).1 }, (addnode k.shares sn).2)

/-- The body of the loop in `add`, with the flag `addnode`. -/
def emit (aes : Aes) (t : KeyTree) (n : NodeCore) (k : ShareNodeKeys × Bool) (sn : Ref) :
    ShareNodeKeys × Bool :=
  match (t.keys sn).sharekey with
  | none => k
  | some key =>
    let k := k.1.addshare sn
    ({ k.1 with keys := k.1.keys ++ [⟨k.2, k.1.items.length, ecbData (aes key) n.nodekey⟩] }, true)

/-- The loop in `add`. -/
def emitAbove (aes : Aes) (t : KeyTree) (n : NodeCore) (specific : Bool) :
    Nat → ShareNodeKeys × Bool → Ref → ShareNodeKeys × Bool
  | 0, k, _ => k
  | fuel + 1, k, sn =>
    if specific then emit aes t n k sn
    else
      match t.parent sn with
      | none => emit aes t n k sn
      | some p => emitAbove aes t n specific fuel (emit aes t n k sn) p

/-- `add` for a `NodeCore`; an item is the handle unless a token is given. -/
def add (aes : Aes) (t : KeyTree) (n : NodeCore) (sn : Ref) (specific : Bool) (item : Option Bytes)
    (k : ShareNodeKeys) : ShareNodeKeys :=
  let k := emitAbove aes t n specific (t.depth sn + 1) (k, false) sn
  if k.2 then { k.1 with items := k.1.items ++ [item.getD (leBytes 6 n.nodehandle.toNat)] }
  else k.1

/-- `add` for a `Node`. -/
def addNode (aes : Aes) (t : KeyTree) (n : Ref) (sn : Option Ref) (specific : Bool)
    (k : ShareNodeKeys) : ShareNodeKeys :=
  k.add aes t (nodeCore t n) (sn.getD n) specific none

def get (t : KeyTree) (k : ShareNodeKeys) : Option CrElement :=
  if k.keys = [] then none
  else
    some
      { shares := k.shares.map fun sn => (t.keys sn).nodehandle
        items := k.items
        keys := (keysText k.keys).drop 1 }

end ShareNodeKeys

/-- `TreeProcShareKeys::proc`. -/
def treeProcShareKeys (aes : Aes) (t : KeyTree) (sn : Option Ref) (n : Ref) (k : ShareNodeKeys) :
    ShareNodeKeys :=
  k.addNode aes t n sn sn.isSome

def sharesAbove (t : KeyTree) (specific : Bool) (sn : Ref) : List Ref :=
  if specific then [sn] else upward t.parent (t.depth sn + 1) sn

theorem mem_sharesAbove_iff {t : KeyTree} {sn a : Ref} :
    a ∈ sharesAbove t false sn ↔ AtOrAbove t.parent a sn :=
  mem_upward_iff t.drops (Nat.lt_succ_self _)

theorem nodup_sharesAbove (t : KeyTree) (specific : Bool) (sn : Ref) :
    (sharesAbove t specific sn).Nodup := by
  cases specific with
  | true => exact List.nodup_singleton sn
  | false => exact nodup_upward t.drops (Nat.lt_succ_self _)

namespace ShareNodeKeys
variable {aes : Aes} {t : KeyTree}

theorem emitAbove_eq (n : NodeCore) (specific : Bool) (fuel : Nat) (k : ShareNodeKeys × Bool)
    (sn : Ref) :
    emitAbove aes t n specific (fuel + 1) k sn =
      (if specific then [sn] else upward t.parent (fuel + 1) sn).foldl (emit aes t n) k := by
  induction fuel generalizing k sn with
  | zero =>
    rw [emitAbove, upward]
    cases specific with
    | true => rfl
    | false => cases t.parent sn <;> rfl
  | succ fuel ih =>
    rw [emitAbove, upward]
    cases specific with
    | true => rfl
    | false =>
      cases t.parent sn with
      | none => rfl
      | some p =>
        rw [if_neg Bool.false_ne_true, if_neg Bool.false_ne_true, List.foldl_cons]
        exact (ih _ p).trans (by rw [if_neg Bool.false_ne_true])

def keyed (t : KeyTree) (shares : List Ref) : List Ref :=
  shares.filter fun s => (t.keys s).sharekey.isSome

def locate (k : ShareNodeKeys) (e : CrEntry) : Option Ref × Nat × Bytes :=
  (k.shares[e.nsi]?, e.nni, e.key)

/-- What rounds of the loop do: one key for each of `shares` that has a share key, with the
index of the item that comes next. -/
structure Emits (aes : Aes) (t : KeyTree) (n : NodeCore) (shares : List Ref)
    (k k' : ShareNodeKeys × Bool) : Prop where
  items : k'.1.items = k.1.items
  flag : k'.2 = (k.2 || !(keyed t shares).isEmpty)
  kept : k.1.shares <+: k'.1.shares
  distinct : k.1.shares.Nodup → k'.1.shares.Nodup
  emitted : ∃ new, k'.1.keys = k.1.keys ++ new ∧ new.map k'.1.locate =
    (keyed t shares).map fun s => (some s, k.1.items.length, ecbData (aes (sharekey t s)) n.nodekey)

/-- An index keeps its share. -/
theorem locate_of_prefix {k k' : ShareNodeKeys} (kept : k.shares <+: k'.shares) {e : CrEntry}
    {s : Ref} (found : (k.locate e).1 = some s) : k'.locate e = k.locate e := by
  obtain ⟨more, same⟩ := kept
  have bound := (List.getElem?_eq_some_iff.mp found).1
  rw [locate, ← same, List.getElem?_append_left bound]
  rfl

theorem emits_none (n : NodeCore) (k : ShareNodeKeys × Bool) : Emits aes t n [] k k :=
  ⟨rfl, (Bool.or_false _).symm, List.prefix_rfl, id, [], (List.append_nil _).symm, rfl⟩

theorem emits_emit (n : NodeCore) (k : ShareNodeKeys × Bool) (sn : Ref) :
    Emits aes t n [sn] k (emit aes t n k sn) := by
  unfold emit
  cases share : (t.keys sn).sharekey with
  | none =>
    have without : keyed t [sn] = [] := by simp [keyed, share]
    refine ⟨rfl, ?_, List.prefix_rfl, id, [], (List.append_nil _).symm, ?_⟩
    · rw [without]
      exact (Bool.or_false _).symm
    · rw [without]
      rfl
  | some key =>
    obtain ⟨place, ⟨more, kept⟩, distinct⟩ := addnode_spec k.1.shares sn
    have own : keyed t [sn] = [sn] := by simp [keyed, share]
    refine ⟨rfl, ?_, ⟨more, kept.symm⟩, distinct, _, rfl, ?_⟩
    · rw [own]
      exact (Bool.or_true _).symm
    · rw [own, List.map_singleton, List.map_singleton]
      have same : sharekey t sn = key := by rw [sharekey, share, Option.getD_some]
      rw [same]
      exact congrArg (fun s => [(s, k.1.items.length, ecbData (aes key) n.nodekey)]) place

theorem Emits.trans {n : NodeCore} {shares more : List Ref} {k k' k'' : ShareNodeKeys × Bool}
    (first : Emits aes t n shares k k') (second : Emits aes t n more k' k'') :
    Emits aes t n (shares ++ more) k k'' := by
  obtain ⟨new, keys, located⟩ := first.emitted
  obtain ⟨new', keys', located'⟩ := second.emitted
  have both : keyed t (shares ++ more) = keyed t shares ++ keyed t more := List.filter_append ..
  refine ⟨second.items.trans first.items, ?_, first.kept.trans second.kept,
    second.distinct ∘ first.distinct, new ++ new', ?_, ?_⟩
  · rw [second.flag, first.flag, both, Bool.or_assoc]
    cases keyed t shares <;> rfl
  · rw [keys', keys, List.append_assoc]
  · have same : new.map k''.1.locate = new.map k'.1.locate := by
      refine List.map_congr_left fun e mem => ?_
      have there := List.mem_map_of_mem (f := k'.1.locate) mem
      rw [located] at there
      obtain ⟨s, -, found⟩ := List.mem_map.mp there
      exact locate_of_prefix second.kept (congrArg Prod.fst found).symm
    rw [List.map_append, same, located, located', first.items, both, List.map_append]

/-- The loop emits the keys of all shares on its way. -/
theorem emits_foldl (n : NodeCore) (shares : List Ref) (k : ShareNodeKeys × Bool) :
    Emits aes t n shares k (shares.foldl (emit aes t n) k) := by
  induction shares generalizing k with
  | nil => exact emits_none n k
  | cons sn shares ih => exact (emits_emit n k sn).trans (ih _)

/-- What `add` does: one key for each share with a key on the way up, under the index of a new
item; without such shares nothing is added. -/
structure Adds (aes : Aes) (t : KeyTree) (n : NodeCore) (shares : List Ref) (item : Bytes)
    (k k' : ShareNodeKeys) : Prop where
  items : k'.items = k.items ++ if shares = [] then [] else [item]
  kept : k.shares <+: k'.shares
  distinct : k.shares.Nodup → k'.shares.Nodup
  emitted : ∃ new, k'.keys = k.keys ++ new ∧ new.map k'.locate =
    shares.map fun s => (some s, k.items.length, ecbData (aes (sharekey t s)) n.nodekey)

theorem add_spec (n : NodeCore) (sn : Ref) (specific : Bool) (item : Option Bytes)
    (k : ShareNodeKeys) :
    Adds aes t n (keyed t (sharesAbove t specific sn))
      (item.getD (leBytes 6 n.nodehandle.toNat)) k (k.add aes t n sn specific item) := by
  have emits := @emits_foldl aes t n (sharesAbove t specific sn) (k, false)
  unfold add
  rw [emitAbove_eq]
  change Emits aes t n _ _ ((if specific then [sn] else _).foldl _ _) at emits
  generalize (if specific then [sn] else upward t.parent (t.depth sn + 1) sn).foldl
    (emit aes t n) (k, false) = r at emits ⊢
  obtain ⟨new, keys, located⟩ := emits.emitted
  dsimp only
  by_cases none : keyed t (sharesAbove t specific sn) = []
  · have flag : r.2 = false := by rw [emits.flag, none]; rfl
    rw [flag, if_neg Bool.false_ne_true]
    refine ⟨?_, emits.kept, emits.distinct, new, keys, located⟩
    rw [if_pos none, List.append_nil]
    exact emits.items
  · have flag : r.2 = true := by
      rw [emits.flag, Bool.false_or, List.isEmpty_eq_false_iff.mpr none]
      rfl
    rw [flag, if_pos rfl]
    refine ⟨?_, emits.kept, emits.distinct, new, keys, located⟩
    rw [if_neg none]
    exact congrArg (· ++ [item.getD (leBytes 6 n.nodehandle.toNat)]) emits.items

/-- The shares with keys that a node is in; with a share given, only that one. -/
def sharesOf (t : KeyTree) (sn : Option Ref) (n : Ref) : List Ref :=
  keyed t (sharesAbove t sn.isSome (sn.getD n))

def carriers (t : KeyTree) (sn : Option Ref) (done : List Ref) : List Ref :=
  done.filter fun n => !(sharesOf t sn n).isEmpty

def sharePairs (t : KeyTree) (sn : Option Ref) (done : List Ref) : List (Ref × Ref) :=
  done.flatMap fun n => (sharesOf t sn n).map fun s => (s, n)

def itemOf (t : KeyTree) (n : Ref) : Bytes := leBytes 6 (t.keys n).nodehandle.toNat

/-- A key with the share and the node under its indexes. -/
def resolve (k : ShareNodeKeys) (owners : List Ref) (e : CrEntry) :
    Option Ref × Option Ref × Bytes :=
  (k.shares[e.nsi]?, owners[e.nni]?, e.key)

structure Emitted (aes : Aes) (t : KeyTree) (sn : Option Ref) (done : List Ref)
    (k : ShareNodeKeys) : Prop where
  shares : k.shares.Nodup
  items : k.items = (carriers t sn done).map (itemOf t)
  entries : k.keys.map (k.resolve (carriers t sn done)) =
    (sharePairs t sn done).map fun pair => (some pair.1, some pair.2, sealedKey aes t pair.1 pair.2)

theorem emitted_empty (sn : Option Ref) : Emitted aes t sn [] empty := ⟨List.nodup_nil, rfl, rfl⟩

/-- Keys that are there keep their share and their node. -/
theorem Emitted.kept {sn : Option Ref} {done more : List Ref} {k k' : ShareNodeKeys}
    (emitted : Emitted aes t sn done k) (kept : k.shares <+: k'.shares) :
    k.keys.map (k'.resolve (carriers t sn (done ++ more))) =
      k.keys.map (k.resolve (carriers t sn done)) := by
  obtain ⟨new, same⟩ := kept
  have owners : carriers t sn (done ++ more) = carriers t sn done ++ carriers t sn more :=
    List.filter_append ..
  refine List.map_congr_left fun e mem => ?_
  have resolved := List.mem_map_of_mem (f := k.resolve (carriers t sn done)) mem
  rw [emitted.entries] at resolved
  obtain ⟨pair, -, found⟩ := List.mem_map.mp resolved
  have share : k.shares[e.nsi]? = some pair.1 := congrArg Prod.fst found.symm
  have owner : (carriers t sn done)[e.nni]? = some pair.2 := congrArg (fun r => r.2.1) found.symm
  rw [resolve, resolve, owners, ← same,
    List.getElem?_append_left (List.getElem?_eq_some_iff.mp share).1,
    List.getElem?_append_left (List.getElem?_eq_some_iff.mp owner).1]

/-- Every call of `proc` emits the keys of its node. -/
theorem Emitted.proc {sn : Option Ref} {done : List Ref} {k : ShareNodeKeys}
    (emitted : Emitted aes t sn done k) (n : Ref) :
    Emitted aes t sn (done ++ [n]) (treeProcShareKeys aes t sn n k) := by
  have adds : Adds aes t (nodeCore t n) (sharesOf t sn n) (itemOf t n) k
      (treeProcShareKeys aes t sn n k) := add_spec (nodeCore t n) (sn.getD n) sn.isSome none k
  have owners : carriers t sn (done ++ [n]) =
      carriers t sn done ++ if sharesOf t sn n = [] then [] else [n] := by
    rw [carriers, List.filter_append, List.filter_cons, List.filter_nil, ← carriers]
    cases sharesOf t sn n <;> rfl
  have count : (carriers t sn done).length = k.items.length := by
    rw [emitted.items, List.length_map]
  refine ⟨adds.distinct emitted.shares, ?_, ?_⟩
  · rw [adds.items, emitted.items, owners, List.map_append]
    split <;> rfl
  · obtain ⟨new, keys, located⟩ := adds.emitted
    have last : new.map ((treeProcShareKeys aes t sn n k).resolve (carriers t sn (done ++ [n]))) =
        (sharesOf t sn n).map fun s => (some s, some n, sealedKey aes t s n) := by
      have step := congrArg
        (List.map fun l => (l.1, (carriers t sn (done ++ [n]))[l.2.1]?, l.2.2)) located
      rw [List.map_map, List.map_map] at step
      refine step.trans (List.map_congr_left fun s mem => ?_)
      have owner : (carriers t sn (done ++ [n]))[k.items.length]? = some n := by
        rw [owners, if_neg (List.ne_nil_of_mem mem), ← count, List.getElem?_concat_length]
      exact congrArg (fun o => (some s, o, sealedKey aes t s n)) owner
    rw [keys, List.map_append, emitted.kept adds.kept, emitted.entries, last, sharePairs,
      sharePairs, List.flatMap_append, List.flatMap_singleton, List.map_append, List.map_map]
    rfl

/-- The keys after a whole traversal. -/
theorem emitted_foldl (sn : Option Ref) {done : List Ref} (rest : List Ref) {k : ShareNodeKeys}
    (emitted : Emitted aes t sn done k) :
    Emitted aes t sn (done ++ rest)
      (rest.foldl (fun k m => treeProcShareKeys aes t sn m k) k) := by
  induction rest generalizing done k with
  | nil => rwa [List.append_nil]
  | cons n rest ih =>
    have later := ih (emitted.proc n)
    rwa [List.append_assoc] at later

/-- The `cr` element has one key for each of the visited nodes and each share with a key at or
above it. The items belong to `owners`. -/
structure OneKeyEach (aes : Aes) (t : KeyTree) (visited owners : List Ref) (k : ShareNodeKeys) :
    Prop where
  shares : k.shares.Nodup
  distinct : owners.Nodup
  items : k.items = owners.map (itemOf t)
  resolves : ∀ e ∈ k.keys, ∃ s n, k.shares[e.nsi]? = some s ∧ owners[e.nni]? = some n ∧
    n ∈ visited ∧ AtOrAbove t.parent s n ∧ (t.keys s).sharekey.isSome ∧ e.key = sealedKey aes t s n
  once : ∀ n ∈ visited, ∀ s, AtOrAbove t.parent s n → (t.keys s).sharekey.isSome →
    (k.keys.countP fun e => k.shares[e.nsi]? = some s ∧ owners[e.nni]? = some n) = 1
  element : ∀ c ∈ k.get t, c.shares = k.shares.map (fun s => (t.keys s).nodehandle) ∧
    c.items = k.items ∧ c.keys = (keysText k.keys).drop 1
  missing : k.get t = none ↔
    ∀ n ∈ visited, ∀ s, AtOrAbove t.parent s n → (t.keys s).sharekey = none

theorem mem_sharesOf_iff {n s : Ref} :
    s ∈ sharesOf t none n ↔ AtOrAbove t.parent s n ∧ (t.keys s).sharekey.isSome := by
  rw [sharesOf, keyed, List.mem_filter]
  exact and_congr_left fun _ => mem_sharesAbove_iff

theorem mem_sharePairs_iff {sn : Option Ref} {done : List Ref} {n s : Ref} :
    (s, n) ∈ sharePairs t sn done ↔ n ∈ done ∧ s ∈ sharesOf t sn n := by
  rw [sharePairs, List.mem_flatMap]
  constructor
  · rintro ⟨m, mem, there⟩
    obtain ⟨s', share, same⟩ := List.mem_map.mp there
    cases same
    exact ⟨mem, share⟩
  · exact fun both => ⟨n, both.1, List.mem_map.mpr ⟨s, both.2, rfl⟩⟩

theorem nodup_sharePairs (sn : Option Ref) {done : List Ref} (distinct : done.Nodup) :
    (sharePairs t sn done).Nodup := by
  refine List.nodup_flatMap.mpr ⟨fun n _ => ?_, ?_⟩
  · exact ((nodup_sharesAbove t _ _).filter _).map fun _ _ same => congrArg Prod.fst same
  · refine distinct.imp fun {n m} apart pair first second => apart ?_
    obtain ⟨_, -, same⟩ := List.mem_map.mp first
    obtain ⟨_, -, other⟩ := List.mem_map.mp second
    exact congrArg Prod.snd (same.trans other.symm)

/-- Every key stands for a pair. -/
theorem Emitted.resolves {visited : List Ref} {k : ShareNodeKeys}
    (emitted : Emitted aes t none visited k) {e : CrEntry} (mem : e ∈ k.keys) :
    ∃ s n, k.shares[e.nsi]? = some s ∧ (carriers t none visited)[e.nni]? = some n ∧
      n ∈ visited ∧ AtOrAbove t.parent s n ∧ (t.keys s).sharekey.isSome ∧
      e.key = sealedKey aes t s n := by
  have resolved := List.mem_map_of_mem (f := k.resolve (carriers t none visited)) mem
  rw [emitted.entries] at resolved
  obtain ⟨⟨s, n⟩, pair, found⟩ := List.mem_map.mp resolved
  obtain ⟨there, share⟩ := mem_sharePairs_iff.mp pair
  obtain ⟨above, keyed⟩ := mem_sharesOf_iff.mp share
  exact ⟨s, n, congrArg Prod.fst found.symm, congrArg (fun r => r.2.1) found.symm, there, above,
    keyed, congrArg (fun r => r.2.2) found.symm⟩

/-- Every pair has one key. -/
theorem Emitted.once {visited : List Ref} {k : ShareNodeKeys}
    (emitted : Emitted aes t none visited k) (distinct : visited.Nodup) {n s : Ref}
    (there : n ∈ visited) (above : AtOrAbove t.parent s n) (keyed : (t.keys s).sharekey.isSome) :
    (k.keys.countP fun e => k.shares[e.nsi]? = some s ∧
      (carriers t none visited)[e.nni]? = some n) = 1 := by
  have pair : (s, n) ∈ sharePairs t none visited :=
    mem_sharePairs_iff.mpr ⟨there, mem_sharesOf_iff.mpr ⟨above, keyed⟩⟩
  have resolved : (k.keys.countP fun e => k.shares[e.nsi]? = some s ∧
      (carriers t none visited)[e.nni]? = some n) =
      (k.keys.map (k.resolve (carriers t none visited))).countP fun r =>
        r.1 = some s ∧ r.2.1 = some n := by
    rw [List.countP_map]
    rfl
  rw [resolved, emitted.entries, List.countP_map,
    ← List.count_eq_one_of_mem (nodup_sharePairs none distinct) pair, List.count]
  refine List.countP_congr fun p _ => ?_
  simp [Prod.ext_iff]

theorem get_none_iff {k : ShareNodeKeys} : k.get t = none ↔ k.keys = [] := by
  unfold get
  split <;> simp_all

/-- The lists that belong to a traversal make up the element. -/
theorem Emitted.oneKeyEach {visited : List Ref} {k : ShareNodeKeys}
    (emitted : Emitted aes t none visited k) (distinct : visited.Nodup) :
    OneKeyEach aes t visited (carriers t none visited) k where
  shares := emitted.shares
  distinct := distinct.filter _
  items := emitted.items
  resolves _ := emitted.resolves
  once _ there _ := emitted.once distinct there
  element c some := by
    unfold get at some
    split at some
    · cases some
    · cases some
      exact ⟨rfl, rfl, rfl⟩
  missing := by
    rw [get_none_iff]
    constructor
    · intro empty n there s above
      cases share : (t.keys s).sharekey with
      | none => rfl
      | some key =>
        have one := emitted.once distinct there above (Option.isSome_of_eq_some share)
        rw [empty] at one
        cases one
    · intro none
      refine List.eq_nil_iff_forall_not_mem.mpr fun e mem => ?_
      obtain ⟨s, n, -, -, there, above, keyed, -⟩ := emitted.resolves mem
      rw [none n there s above] at keyed
      cases keyed

end ShareNodeKeys

open ShareNodeKeys in
/-- `proctree` visits what `subtree` says, each node once, and the keys that `TreeProcShareKeys`
collects on the way are one for each visited node and each share at or above it. -/
def SharesSubtree (aes : Aes) (f : KeyForest) (n : Ref) (subtree : Ref → Prop) : Prop :=
  ∃ visited owners k, f.proctree (fun m seen => seen ++ [m]) n [] = some visited ∧
    visited.Nodup ∧ (∀ m, m ∈ visited ↔ subtree m) ∧
    f.proctree (treeProcShareKeys aes f.toKeyTree none) n empty = some k ∧
    OneKeyEach aes f.toKeyTree visited owners k

/-- The keys for a subtree without what is below files. -/
theorem proctree_shareKeys (aes : Aes) (f : KeyForest) (n : Ref) :
    SharesSubtree aes f n (Reached f.entered n) := by
  have recorded : f.proctree (fun m seen => seen ++ [m]) n [] = some (f.visits n) := by
    rw [f.proctree_eq]
    refine congrArg some (List.foldl_append_eq_append.trans ?_)
    rw [List.nil_append, ← List.flatMap_def, List.flatMap_singleton']
  have emitted := ShareNodeKeys.emitted_foldl none (f.visits n)
    (@ShareNodeKeys.emitted_empty aes f.toKeyTree none)
  exact ⟨f.visits n, _, _, recorded, f.nodup_visits n, fun m => f.mem_visits_iff,
    f.proctree_eq _ n _, emitted.oneKeyEach (f.nodup_visits n)⟩

/-- A file below a file, as a server may send it. -/
def fileBelowFile : KeyForest where
  keys _ := ⟨1, fileNode, false, none, [], Or.inl rfl⟩
  parent n := if n = 1 then some 0 else none
  depth n := if n = 1 then 1 else 0
  drops n p up := by
    by_cases child : n = 1
    · simp_all
    · simp [child] at up
  children p := if p = 0 then [1] else []
  linked n p := by
    by_cases child : n = 1 <;> by_cases top : p = 0 <;> simp [child, top, eq_comm]
  once p := by
    split
    · exact List.nodup_singleton 1
    · exact List.nodup_nil
  bound := 1
  shallow n := by
    split
    · exact Nat.le_refl 1
    · exact Nat.zero_le 1

/-- What is below a file is not visited. -/
theorem fileBelowFile_left_out :
    ¬ ∀ (aes : Aes) (f : KeyForest) (n : Ref), SharesSubtree aes f n (AtOrAbove f.parent n) := by
  intro always
  obtain ⟨visited, owners, k, recorded, -, mem_iff, -⟩ := always (fun _ => id) fileBelowFile 0
  have only : fileBelowFile.proctree (fun m seen => seen ++ [m]) 0 [] = some [0] := by decide
  have same := Option.some.inj (recorded.symm.trans only)
  have below : AtOrAbove fileBelowFile.parent 0 1 := Relation.ReflTransGen.single rfl
  have mem := (mem_iff 1).mpr below
  rw [same] at mem
  exact absurd mem (by decide)

end MegaSdk.Server
