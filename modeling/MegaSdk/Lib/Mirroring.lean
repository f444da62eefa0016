import MegaSdk.Lib.NamedForest

/-!
# Mirrors of trees with ids

A tree of nodes mirrors a tree of items that was changed meanwhile. The items are visited from the
top, and whatever the visits do not meet is dropped at the end. A node that has the id of an item
comes to its path; a node whose path has an item with another id becomes that item, or makes room
for the node that has the id. This works as long as no folder is replaced by another one.
-/

namespace Mirroring

open NamedForest ParentForest

universe u v w
variable {Node : Type u} {Name : Type v} {Id : Type w}

structure Item (Id : Type w) where
  id : Id
  folder : Bool
  deriving DecidableEq

/-- The items below a root, which is none. Items are in folders and have different ids. -/
structure Disk (Name : Type v) (Id : Type w) where
  item : List Name → Option (Item Id)
  root : item [] = none
  inside : ∀ {path : List Name} {name : Name} {i}, item (path ++ [name]) = some i →
    path = [] ∨ ∃ folder, item path = some folder ∧ folder.folder = true
  unique : ∀ {path other : List Name} {i j}, item path = some i → item other = some j →
    i.id = j.id → path = other

structure Nodes (Node : Type u) (Name : Type v) (Id : Type w) where
  place : Node → Option (Node × Name)
  item : Node → Item Id

/-- The nodes are in folders and have different ids, too. -/
structure Tree (root : Node) (t : Nodes Node Name Id) : Prop where
  top : t.place root = none
  acyclic : Acyclic (parentOf t.place)
  injective : Injective t.place
  inside : ∀ {n p name}, t.place n = some (p, name) →
    p = root ∨ (t.place p).isSome ∧ (t.item p).folder = true
  unique : ∀ {n m}, (t.place n).isSome → (t.place m).isSome →
    (t.item n).id = (t.item m).id → n = m

def Stands (disk : Disk Name Id) (root : Node) (t : Nodes Node Name Id) (n : Node)
    (path : List Name) : Prop :=
  n = root ∧ path = [] ∨
    (t.place n).isSome ∧ ∃ i, disk.item path = some i ∧ i.id = (t.item n).id

/-- No item has changed its type, and no folder is replaced by another one. -/
structure Fits (disk : Disk Name Id) (root : Node) (t : Nodes Node Name Id) : Prop where
  typed : ∀ {n path i}, (t.place n).isSome → disk.item path = some i → i.id = (t.item n).id →
    (t.item n).folder = i.folder
  kept : ∀ {n p name path i}, t.place n = some (p, name) → Stands disk root t p path →
    disk.item (path ++ [name]) = some i →
    (t.item n).folder = i.folder ∧ (i.folder = true → (t.item n).id = i.id)

/-- No item with another id has taken the place of the node in its folder. -/
def Unreplaced (disk : Disk Name Id) (root : Node) (t : Nodes Node Name Id) (n : Node) : Prop :=
  ∀ p name path i, t.place n = some (p, name) → Stands disk root t p path →
    disk.item (path ++ [name]) = some i → i.id = (t.item n).id

section Visits
variable [DecidableEq Node]

/-- The visit of an item with this name in the folder `p` ends at a node. -/
inductive Visit (root : Node) (t : Nodes Node Name Id) (p : Node) (name : Name) (i : Item Id) :
    Node → Nodes Node Name Id → Prop
  | same {n} (here : t.place n = some (p, name)) (id : (t.item n).id = i.id) :
    Visit root t p name i n t
  | overwritten {n} (here : t.place n = some (p, name)) (file : i.folder = false)
    (unknown : ∀ m, (t.place m).isSome → (t.item m).id ≠ i.id) :
    Visit root t p name i n { t with item := Function.update t.item n i }
  | replaced {n l item} (here : t.place l = some (p, name)) (differs : (t.item l).id ≠ i.id)
    (file : i.folder = false) (known : (t.place n).isSome) (id : (t.item n).id = i.id)
    (rest : ∀ m, m ≠ l → item m = t.item m) :
    Visit root t p name i n
      ⟨Function.update (Function.update t.place l none) n (some (p, name)), item⟩
  | moved {n} (vacant : ∀ m, t.place m ≠ some (p, name)) (known : (t.place n).isSome)
    (id : (t.item n).id = i.id) :
    Visit root t p name i n { t with place := Function.update t.place n (some (p, name)) }
  | added {n} (vacant : ∀ m, t.place m ≠ some (p, name))
    (unknown : ∀ m, (t.place m).isSome → (t.item m).id ≠ i.id)
    (other : n ≠ root) (fresh : t.place n = none) (empty : ∀ m q, t.place m ≠ some (n, q)) :
    Visit root t p name i n
      ⟨Function.update t.place n (some (p, name)), Function.update t.item n i⟩

end Visits

/-- The visited nodes have the paths of their items; the others are as they were at the start. -/
structure Inv (disk : Disk Name Id) (root : Node) (start t : Nodes Node Name Id)
    (seen : Node → Prop) : Prop where
  tree : Tree root t
  fits : Fits disk root t
  top : seen root
  above : ∀ {n p name}, seen n → t.place n = some (p, name) → seen p
  matched : ∀ {n}, seen n → n ≠ root →
    ∃ path, Leads t.place root path n ∧ disk.item path = some (t.item n)
  rest : ∀ {n}, ¬seen n → (t.place n).isSome →
    t.place n = start.place n ∧ t.item n = start.item n
  kept : ∀ {n}, (start.place n).isSome → Unreplaced disk root start n →
    (t.place n).isSome ∧ t.item n = start.item n

section Visited
variable {disk : Disk Name Id} {root : Node} {start t t' : Nodes Node Name Id}
  {seen : Node → Prop} {n m p l : Node} {name : Name} {path other : List Name} {i : Item Id}

theorem Fits.unreplaced (fits : Fits disk root t) (folder : (t.item n).folder = true) :
    Unreplaced disk root t n := by
  intro p name path i here stands item
  obtain ⟨typed, same⟩ := fits.kept here stands item
  exact (same (typed.symm.trans folder)).symm

theorem Inv.initial (tree : Tree root t) (fits : Fits disk root t) :
    Inv disk root t t (· = root) where
  tree := tree
  fits := fits
  top := rfl
  above {n p name} same here := by
    rw [same, tree.top] at here
    cases here
  matched same other := absurd same other
  rest _ _ := ⟨rfl, rfl⟩
  kept live _ := ⟨live, rfl⟩

/-- All nodes above a visited one are visited. -/
theorem Inv.above_seen (inv : Inv disk root start t seen) (reached : seen n)
    (higher : AtOrAbove (parentOf t.place) m n) : seen m := by
  induction higher with
  | refl => exact reached
  | tail _ step ih =>
    obtain ⟨name, here⟩ := place_of_parentOf step
    exact inv.above ih here

/-- A visited folder stands for its own path only. -/
theorem Inv.stands_path (inv : Inv disk root start t seen) (reached : seen p)
    (leads : Leads t.place root path p) (stands : Stands disk root t p other) : other = path := by
  rcases stands with ⟨rfl, rfl⟩ | ⟨live, i, item, id⟩
  · exact Leads.path_unique inv.tree.top rfl leads
  · have inner : p ≠ root := by
      rintro rfl
      rw [inv.tree.top] at live
      cases live
    obtain ⟨own, matched, item'⟩ := inv.matched reached inner
    rw [Leads.path_unique inv.tree.top leads matched]
    exact disk.unique item item' id

structure Visited (root : Node) (t : Nodes Node Name Id) (p : Node) (name : Name) (i : Item Id)
    (n : Node) (t' : Nodes Node Name Id) : Prop where
  placed : t'.place n = some (p, name)
  item : t'.item n = i
  others : ∀ m, m ≠ n → t'.place m = t.place m ∧ t'.item m = t.item m ∨ t'.place m = none ∧
    t.place m = some (p, name) ∧ (t.item m).id ≠ i.id ∧ ∀ c q, t.place c ≠ some (m, q)
  vacated : ∀ m, m ≠ n → t'.place m ≠ some (p, name)
  only : ∀ m, m ≠ n → (t.place m).isSome → (t.item m).id ≠ i.id
  source : (t.place n).isSome ∧ t.item n = i ∨ (∀ c q, t.place c ≠ some (n, q)) ∧
    (t.place n = none ∨ t.place n = some (p, name) ∧ (t.item n).id ≠ i.id)
  inner : n ≠ root

/-- Where a visit goes: the folder has been visited, the item has not. -/
structure Due (disk : Disk Name Id) (root : Node) (t : Nodes Node Name Id) (seen : Node → Prop)
    (p : Node) (path : List Name) (name : Name) (i : Item Id) : Prop where
  reached : seen p
  leads : Leads t.place root path p
  item : disk.item (path ++ [name]) = some i
  unseen : ∀ m, seen m → ¬Leads t.place root (path ++ [name]) m

theorem Due.unseen_place (due : Due disk root t seen p path name i)
    (here : t.place m = some (p, name)) : ¬seen m := fun reached =>
  due.unseen m reached (leads_snoc.mpr ⟨p, due.leads, here⟩)

/-- The node with the id of the item has not been visited. -/
theorem Due.unseen_id (due : Due disk root t seen p path name i)
    (inv : Inv disk root start t seen) (live : (t.place m).isSome) (id : (t.item m).id = i.id) :
    ¬seen m := fun reached => by
  have inner : m ≠ root := by
    rintro rfl
    rw [inv.tree.top] at live
    cases live
  obtain ⟨own, leads, item⟩ := inv.matched reached inner
  rw [disk.unique item due.item id] at leads
  exact due.unseen m reached leads

theorem Due.stands (due : Due disk root t seen p path name i)
    (inv : Inv disk root start t seen) : Stands disk root t p path := by
  by_cases inner : p = root
  · subst inner
    exact .inl ⟨rfl, Leads.path_unique inv.tree.top due.leads rfl⟩
  · obtain ⟨own, leads, item⟩ := inv.matched due.reached inner
    rw [← Leads.path_unique inv.tree.top due.leads leads] at item
    exact .inr ⟨due.leads.live inner, _, item, rfl⟩

/-- A file has no nodes below it. -/
theorem Tree.childless (tree : Tree root t) (file : (t.item m).folder = false) (inner : m ≠ root)
    (c : Node) (q : Name) : t.place c ≠ some (m, q) := fun here => by
  rcases tree.inside here with same | ⟨-, folder⟩
  · exact inner same
  · rw [file] at folder
    cases folder

theorem Tree.inner (tree : Tree root t) (live : (t.place m).isSome) : m ≠ root := by
  rintro rfl
  rw [tree.top] at live
  cases live

/-- What is at the path of the item is of its type. -/
theorem Inv.typed_place (inv : Inv disk root start t seen)
    (due : Due disk root t seen p path name i) (here : t.place m = some (p, name)) :
    (t.item m).folder = i.folder :=
  (inv.fits.kept here (due.stands inv) due.item).1

theorem Inv.item_eq (inv : Inv disk root start t seen)
    (due : Due disk root t seen p path name i) (live : (t.place m).isSome)
    (id : (t.item m).id = i.id) : t.item m = i := by
  have typed := inv.fits.typed live due.item id.symm
  cases item : t.item m with
  | mk own folder =>
    rw [item] at id typed
    cases id
    cases typed
    rfl

theorem Visited.unseen (visited : Visited root t p name i n t')
    (inv : Inv disk root start t seen) (due : Due disk root t seen p path name i) : ¬seen n := by
  rcases visited.source with ⟨live, same⟩ | ⟨-, fresh | ⟨here, -⟩⟩
  · exact due.unseen_id inv live (congrArg Item.id same)
  · intro reached
    obtain ⟨own, leads, item⟩ := inv.matched reached visited.inner
    have live := leads.live visited.inner
    rw [fresh] at live
    cases live
  · exact due.unseen_place here

theorem Visited.seen_same (visited : Visited root t p name i n t')
    (inv : Inv disk root start t seen) (due : Due disk root t seen p path name i)
    (reached : seen m) : t'.place m = t.place m ∧ t'.item m = t.item m := by
  have other : m ≠ n := fun same => visited.unseen inv due (same ▸ reached)
  refine (visited.others m other).resolve_right fun gone => ?_
  exact due.unseen_place gone.2.1 reached

theorem Visited.leads_seen (visited : Visited root t p name i n t')
    (inv : Inv disk root start t seen) (due : Due disk root t seen p path name i)
    (reached : seen m) (leads : Leads t.place root other m) : Leads t'.place root other m :=
  leads.congr fun _ higher => (visited.seen_same inv due (inv.above_seen reached higher)).1

theorem Visited.leads_new (visited : Visited root t p name i n t')
    (inv : Inv disk root start t seen) (due : Due disk root t seen p path name i) :
    Leads t'.place root (path ++ [name]) n :=
  leads_snoc.mpr ⟨p, visited.leads_seen inv due due.reached due.leads, visited.placed⟩

/-- Another node that has a place had it before. -/
theorem Visited.place_old (visited : Visited root t p name i n t') (other : m ≠ n)
    {q : Node × Name} (here : t'.place m = some q) :
    t.place m = some q ∧ t'.item m = t.item m := by
  rcases visited.others m other with ⟨same, items⟩ | ⟨gone, -⟩
  · exact ⟨same ▸ here, items⟩
  · rw [gone] at here
    cases here

theorem Visited.live_old (visited : Visited root t p name i n t') (other : m ≠ n)
    (live : (t'.place m).isSome) : (t.place m).isSome ∧ t'.item m = t.item m := by
  obtain ⟨q, here⟩ := Option.isSome_iff_exists.mp live
  obtain ⟨before, items⟩ := visited.place_old other here
  exact ⟨by rw [before]; rfl, items⟩

/-- The folder of another node is the same as before. -/
theorem Visited.folder_old (visited : Visited root t p name i n t') {q : Node} {own : Name}
    (here : t.place m = some (q, own)) (live : (t.place q).isSome) :
    (t'.place q).isSome ∧ t'.item q = t.item q := by
  by_cases same : q = n
  · subst same
    rcases visited.source with ⟨-, item⟩ | ⟨empty, -⟩
    · exact ⟨by rw [visited.placed]; rfl, visited.item.trans item.symm⟩
    · exact absurd here (empty m own)
  · rcases visited.others q same with ⟨kept, items⟩ | ⟨-, -, -, empty⟩
    · exact ⟨kept ▸ live, items⟩
    · exact absurd here (empty m own)

/-- The folder of the item. -/
theorem Due.folder (due : Due disk root t seen p path name i)
    (inv : Inv disk root start t seen) :
    p = root ∨ (t.place p).isSome ∧ (t.item p).folder = true := by
  by_cases inner : p = root
  · exact .inl inner
  · obtain ⟨own, leads, item⟩ := inv.matched due.reached inner
    have same := Leads.path_unique inv.tree.top due.leads leads
    subst same
    rcases disk.inside due.item with rfl | ⟨folder, item', isFolder⟩
    · exact absurd (Eq.symm due.leads) inner
    · rw [item] at item'
      cases item'
      rcases due.stands inv with ⟨same, -⟩ | ⟨live, -⟩
      · exact absurd same inner
      · exact .inr ⟨live, isFolder⟩

/-- A node whose place is taken by another id has been replaced. -/
theorem Inv.replaced (inv : Inv disk root start t seen)
    (due : Due disk root t seen p path name i) (tree : Tree root start)
    (fits : Fits disk root start) (here : t.place m = some (p, name))
    (differs : (t.item m).id ≠ i.id) : ¬Unreplaced disk root start m := by
  intro unreplaced
  obtain ⟨places, items⟩ := inv.rest (due.unseen_place here) (by rw [here]; rfl)
  have placed : start.place m = some (p, name) := places ▸ here
  have stands : Stands disk root start p path := by
    rcases tree.inside placed with rfl | ⟨live, folder⟩
    · rcases due.stands inv with root | ⟨live, -⟩
      · exact .inl root
      · rw [inv.tree.top] at live
        cases live
    · obtain ⟨-, same⟩ := inv.kept live (fits.unreplaced folder)
      rcases due.stands inv with ⟨rfl, -⟩ | ⟨-, j, item, id⟩
      · exact absurd rfl (tree.inner live)
      · exact .inr ⟨live, j, item, same ▸ id⟩
  have same := unreplaced p name path i placed stands due.item
  rw [← items] at same
  exact differs same.symm

/-- All items have been visited if all items in visited folders have been. -/
theorem Inv.complete (inv : Inv disk root start t seen)
    (closed : ∀ p path name i, seen p → Leads t.place root path p →
      disk.item (path ++ [name]) = some i →
      ∃ m, seen m ∧ Leads t.place root (path ++ [name]) m)
    (item : disk.item path = some i) : ∃ m, seen m ∧ Leads t.place root path m := by
  induction path using List.reverseRecOn generalizing i with
  | nil =>
    rw [disk.root] at item
    cases item
  | append_singleton path name ih =>
    rcases disk.inside item with rfl | ⟨folder, above, -⟩
    · exact closed root [] name i inv.top rfl item
    · obtain ⟨p, reached, leads⟩ := ih above
      exact closed p path name i reached leads item

variable [DecidableEq Node]

theorem Visited.acyclic (visited : Visited root t p name i n t')
    (inv : Inv disk root start t seen) (due : Due disk root t seen p path name i) :
    Acyclic (parentOf t'.place) := by
  have apart : ¬AtOrAbove (parentOf t.place) n p := fun higher =>
    visited.unseen inv due (inv.above_seen due.reached higher)
  refine (acyclic_update inv.tree.acyclic apart).mono fun m q edge => ?_
  obtain ⟨own, here⟩ := place_of_parentOf edge
  by_cases same : m = n
  · subst same
    rw [visited.placed] at here
    obtain ⟨rfl, rfl⟩ := Prod.mk.inj (Option.some.inj here)
    exact Function.update_self ..
  · rw [Function.update_of_ne same]
    exact parentOf_of_place (visited.place_old same here).1

theorem Visited.tree (visited : Visited root t p name i n t')
    (inv : Inv disk root start t seen) (due : Due disk root t seen p path name i) :
    Tree root t' where
  top := (visited.seen_same inv due inv.top).1.trans inv.tree.top
  acyclic := visited.acyclic inv due
  injective {a b q} first second := by
    by_cases isA : a = n
    · subst isA
      by_contra differs
      rw [visited.placed] at first
      exact visited.vacated b (Ne.symm differs) (second.trans first.symm)
    · by_cases isB : b = n
      · subst isB
        rw [visited.placed] at second
        exact absurd (first.trans second.symm) (visited.vacated a isA)
      · exact inv.tree.injective (visited.place_old isA first).1 (visited.place_old isB second).1
  inside {a q own} here := by
    by_cases isA : a = n
    · subst isA
      rw [visited.placed] at here
      obtain ⟨rfl, rfl⟩ := Prod.mk.inj (Option.some.inj here)
      obtain ⟨places, items⟩ := visited.seen_same inv due due.reached
      rw [places, items]
      exact due.folder inv
    · have before := (visited.place_old isA here).1
      refine (inv.tree.inside before).imp_right fun inner => ?_
      obtain ⟨live, items⟩ := visited.folder_old before inner.1
      exact ⟨live, items ▸ inner.2⟩
  unique {a b} liveA liveB same := by
    by_cases isA : a = n
    · subst isA
      by_contra differs
      obtain ⟨live, items⟩ := visited.live_old (Ne.symm differs) liveB
      rw [visited.item, items] at same
      exact visited.only b (Ne.symm differs) live same.symm
    · obtain ⟨live, items⟩ := visited.live_old isA liveA
      by_cases isB : b = n
      · subst isB
        rw [visited.item, items] at same
        exact absurd same (visited.only a isA live)
      · obtain ⟨live', items'⟩ := visited.live_old isB liveB
        rw [items, items'] at same
        exact inv.tree.unique live live' same

theorem Visited.fits (visited : Visited root t p name i n t')
    (inv : Inv disk root start t seen) (due : Due disk root t seen p path name i) :
    Fits disk root t' where
  typed {a own j} live item same := by
    by_cases isA : a = n
    · subst isA
      rw [visited.item] at same ⊢
      rw [disk.unique item due.item same, due.item] at item
      exact congrArg Item.folder (Option.some.inj item)
    · obtain ⟨live, items⟩ := visited.live_old isA live
      rw [items] at same ⊢
      exact inv.fits.typed live item same
  kept {a q own above j} here stands item := by
    by_cases isA : a = n
    · subst isA
      rw [visited.placed] at here
      obtain ⟨rfl, rfl⟩ := Prod.mk.inj (Option.some.inj here)
      obtain ⟨places, items⟩ := visited.seen_same inv due due.reached
      have before : Stands disk root t p above := by
        rw [Stands, places, items] at stands
        exact stands
      rw [inv.stands_path due.reached due.leads before, due.item] at item
      obtain rfl := Option.some.inj item
      rw [visited.item]
      exact ⟨rfl, fun _ => rfl⟩
    · obtain ⟨before, items⟩ := visited.place_old isA here
      have stood : Stands disk root t q above := by
        rcases stands with root | ⟨live, j', item', id⟩
        · exact .inl root
        · rcases inv.tree.inside before with rfl | ⟨lived, -⟩
          · rw [(visited.tree inv due).top] at live
            cases live
          · rw [(visited.folder_old before lived).2] at id
            exact .inr ⟨lived, j', item', id⟩
      rw [items]
      exact inv.fits.kept before stood item

theorem Visit.visited (visit : Visit root t p name i n t') (inv : Inv disk root start t seen)
    (due : Due disk root t seen p path name i) : Visited root t p name i n t' := by
  have tree := inv.tree
  have childless : i.folder = false → ∀ {m}, t.place m = some (p, name) →
      ∀ c q, t.place c ≠ some (m, q) := fun file m here =>
    tree.childless ((inv.typed_place due here).trans file)
      (tree.inner (by rw [here]; rfl))
  have alone : ∀ {n}, (t.place n).isSome → (t.item n).id = i.id → ∀ m, m ≠ n →
      (t.place m).isSome → (t.item m).id ≠ i.id := fun live id m other live' id' =>
    other (tree.unique live' live (id'.trans id.symm))
  cases visit with
  | same here id =>
    have live : (t.place n).isSome := by rw [here]; rfl
    exact ⟨here, inv.item_eq due live id, fun m _ => .inl ⟨rfl, rfl⟩,
      fun m other there => other (tree.injective there here), alone live id,
      .inl ⟨live, inv.item_eq due live id⟩, tree.inner live⟩
  | overwritten here file unknown =>
    have live : (t.place n).isSome := by rw [here]; rfl
    exact ⟨here, Function.update_self .., fun m other => .inl ⟨rfl, Function.update_of_ne other ..⟩,
      fun m other there => other (tree.injective there here), fun m _ => unknown m,
      .inr ⟨childless file here, .inr ⟨here, unknown n live⟩⟩, tree.inner live⟩
  | @replaced l item here differs file known id rest =>
    have other : n ≠ l := fun same => differs (same ▸ id)
    refine ⟨Function.update_self .., (rest n other).trans (inv.item_eq due known id),
      fun m different => ?_, fun m different => ?_, alone known id,
      .inl ⟨known, inv.item_eq due known id⟩, tree.inner known⟩
    · dsimp only
      rw [Function.update_of_ne different]
      by_cases gone : m = l
      · subst gone
        exact .inr ⟨Function.update_self .., here, differs, childless file here⟩
      · exact .inl ⟨Function.update_of_ne gone .., rest m gone⟩
    · dsimp only
      rw [Function.update_of_ne different]
      by_cases gone : m = l
      · rw [gone, Function.update_self]
        exact nofun
      · rw [Function.update_of_ne gone]
        exact fun there => gone (tree.injective there here)
  | moved vacant known id =>
    exact ⟨Function.update_self .., inv.item_eq due known id,
      fun m different => .inl ⟨Function.update_of_ne different .., rfl⟩,
      fun m different => by
        dsimp only
        rw [Function.update_of_ne different]
        exact vacant m,
      alone known id, .inl ⟨known, inv.item_eq due known id⟩, tree.inner known⟩
  | added vacant unknown other fresh empty =>
    exact ⟨Function.update_self .., Function.update_self ..,
      fun m different => .inl ⟨Function.update_of_ne different ..,
        Function.update_of_ne different ..⟩,
      fun m different => by
        dsimp only
        rw [Function.update_of_ne different]
        exact vacant m,
      fun m _ => unknown m, .inr ⟨empty, .inl fresh⟩, other⟩

/-- A visit of an item that is due. -/
theorem Inv.visit (inv : Inv disk root start t seen) (tree : Tree root start)
    (fits : Fits disk root start) (due : Due disk root t seen p path name i)
    (visit : Visit root t p name i n t') : Inv disk root start t' fun m => m = n ∨ seen m := by
  have visited := visit.visited inv due
  refine ⟨visited.tree inv due, visited.fits inv due, .inr inv.top, ?above, ?matched, ?rest, ?kept⟩
  case above =>
    rintro m q own (rfl | reached) here
    · rw [visited.placed] at here
      obtain ⟨rfl, rfl⟩ := Prod.mk.inj (Option.some.inj here)
      exact .inr due.reached
    · rw [(visited.seen_same inv due reached).1] at here
      exact .inr (inv.above reached here)
  case matched =>
    rintro m (rfl | reached) inner
    · exact ⟨path ++ [name], visited.leads_new inv due, by rw [visited.item, due.item]⟩
    · obtain ⟨own, leads, item⟩ := inv.matched reached inner
      refine ⟨own, visited.leads_seen inv due reached leads, ?_⟩
      rw [(visited.seen_same inv due reached).2, item]
  case rest =>
    intro m unseen live
    obtain ⟨other, unseen⟩ := not_or.mp unseen
    obtain ⟨q, here⟩ := Option.isSome_iff_exists.mp live
    obtain ⟨before, items⟩ := visited.place_old other here
    obtain ⟨places, same⟩ := inv.rest unseen (by rw [before]; rfl)
    exact ⟨here.trans (before.symm.trans places), items.trans same⟩
  case kept =>
    intro m live unreplaced
    obtain ⟨lived, same⟩ := inv.kept live unreplaced
    by_cases here : m = n
    · subst here
      refine ⟨by rw [visited.placed]; rfl, visited.item.trans ?_⟩
      rcases visited.source with ⟨-, item⟩ | ⟨-, gone | ⟨placed, differs⟩⟩
      · exact item.symm.trans same
      · rw [gone] at lived
        cases lived
      · exact absurd unreplaced (inv.replaced due tree fits placed differs)
    · rcases visited.others m here with ⟨kept, items⟩ | ⟨-, placed, differs, -⟩
      · exact ⟨kept ▸ lived, items.trans same⟩
      · exact absurd unreplaced (inv.replaced due tree fits placed differs)

end Visited

/-- The nodes that have not been visited are dropped with everything below them. -/
structure Dropped (root : Node) (seen : Node → Prop) (t t' : Nodes Node Name Id) : Prop where
  fewer : ∀ n q, t'.place n = some q → t.place n = some q
  rest : ∀ {n}, AtOrAbove (parentOf t'.place) root n → seen n
  place : ∀ {n}, seen n → t'.place n = t.place n
  item : ∀ {n}, seen n → t'.item n = t.item n

section Dropping
variable {disk : Disk Name Id} {root : Node} {start t t' : Nodes Node Name Id}
  {seen : Node → Prop}

end Dropping

end Mirroring
