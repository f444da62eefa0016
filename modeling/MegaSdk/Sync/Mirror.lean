import MegaSdk.Sync.FullScanTree

/-!
# What a check keeps

The disk does not change during the scan. Whatever it was when the state cache was written, every
check leaves the `LocalNode`s that were seen at the paths of their items, and the paths that are
still to be checked in the queue.
-/

namespace MegaSdk.Sync.FullScan

open Mirroring (Due Visit)
open NamedForest
open Runs
open States (Forest)

/-- Items are told apart by their file system ids. -/
abbrev Disk := Mirroring.Disk Bytes (Option UInt64)

def itemOf (fa : LocalBytes.FileAccess) : Mirroring.Item (Option UInt64) :=
  ⟨some fa.fsid, decide (fa.type = .folder)⟩

/-- The `LocalNode`s as nodes with ids. -/
def nodes (s : State) : Mirroring.Nodes LocalRef Bytes (Option UInt64) where
  place := s.forest.place
  item k := ⟨s.bytes.fsid k, decide ((s.bytes.locals k).type = .folder)⟩

/-- What a scan shows of the disk: items that can be opened, have valid ids and are not rejected by
a later check. No file was written in the last second before 1970, which stands for no time. -/
structure Shows (env : Environment) (disk : Disk) : Prop where
  listed : ∀ path entry, (path = [] ∨ ∃ i, disk.item path = some i ∧ i.folder = true) →
    (entry ∈ listing env path ↔ ∃ name, entry = path ++ [name] ∧ (disk.item entry).isSome)
  nodup : ∀ path, (listing env path).Nodup
  opened : ∀ path i, disk.item path = some i → ∃ fa, env.fopen path = some fa ∧ i = itemOf fa ∧
    fa.fsidvalid = true ∧ (fa.type = .file → fa.source.mtime ≠ -1)
  accepted : ∀ path name, (disk.item (path ++ [name])).isSome →
    env.syncable (path ++ [name]) [] = true ∧ env.syncable (path ++ [name]) [name] = true

/-- The scan has come across the `LocalNode`. -/
def Seen (s : State) (k : LocalRef) : Prop :=
  k = localroot ∨ k ∈ s.bytes.live ∧ s.seqnos k = s.scanseqno

/-- The queue has the items of the folders that were seen, as far as they were not seen. -/
structure Inv (env : Environment) (disk : Disk) (start s : State) : Prop where
  tied : Tied s.bytes s.forest
  mirror : Mirroring.Inv disk localroot (nodes start) (nodes s) (Seen s)
  fullscan : s.bytes.fullscan = true
  earlier : ∀ k ∈ s.bytes.live, s.seqnos k ≤ s.scanseqno
  due : ∀ entry ∈ s.notifyq, ∃ p path name i, entry = path ++ [name] ∧
    Due disk localroot (nodes s) (Seen s) p path name i
  nodup : s.notifyq.Nodup
  closed : ∀ p path name i, Seen s p → Leads s.forest.place localroot path p →
    disk.item (path ++ [name]) = some i →
    (∃ m, Seen s m ∧ Leads s.forest.place localroot (path ++ [name]) m) ∨
      path ++ [name] ∈ s.notifyq

section Arrival
variable {env : Environment} {disk : Disk} {start s s' : State} {p n m : LocalRef}
  {path rest : Path} {name : Bytes} {queue : List Path} {i : Mirroring.Item (Option UInt64)}

theorem live_iff (tied : Tied s.bytes s.forest) :
    m ∈ s.bytes.live ↔ m = localroot ∨ (s.forest.place m).isSome := by
  rw [tied.live, Forest.place, Option.isSome_map]

theorem Tied.live_of_place (tied : Tied s.bytes s.forest) (placed : (s.forest.place m).isSome) :
    m ∈ s.bytes.live ∧ m ≠ localroot := by
  refine ⟨(live_iff tied).mpr (.inr placed), ?_⟩
  rintro rfl
  rw [Forest.place, tied.root] at placed
  cases placed

theorem Inv.path_of_seen (inv : Inv env disk start s) (seen : Seen s m) :
    ∃ own, Leads s.forest.place localroot own m := by
  by_cases inner : m = localroot
  · exact ⟨[], inner.symm⟩
  · obtain ⟨own, leads, -⟩ := inv.mirror.matched seen inner
    exact ⟨own, leads⟩

/-- What a check that ends at the `LocalNode` `n`, which has the item, leaves of the scan. -/
structure Marked (env : Environment) (s : State) (queue : List Path) (entry : Path)
    (i : Mirroring.Item (Option UInt64)) (n : LocalRef) (s' : State) : Prop where
  front : s.notifyq = entry :: queue
  fullscan : s'.bytes.fullscan = true
  scanseqno : s'.scanseqno = s.scanseqno
  seqnos : s'.seqnos = Function.update s.seqnos n s.scanseqno
  notifyq : s'.notifyq = queue ++ if i.folder then listing env entry else []

theorem Marked.mem_notifyq_iff (marked : Marked env s queue (path ++ [name]) i n s')
    (shows : Shows env disk) (item : disk.item (path ++ [name]) = some i) {entry : Path} :
    entry ∈ s'.notifyq ↔ entry ∈ queue ∨ i.folder = true ∧
      ∃ own, entry = path ++ [name] ++ [own] ∧ (disk.item entry).isSome := by
  rw [marked.notifyq, List.mem_append]
  cases folder : i.folder with
  | false => simp
  | true =>
    rw [if_pos rfl, shows.listed _ entry (.inr ⟨i, item, folder⟩)]
    exact or_congr_right (and_iff_right rfl).symm

theorem Inv.live_of_live (inv : Inv env disk start s) (tied : Tied s'.bytes s'.forest)
    (visited : Mirroring.Visited localroot (nodes s) p name i n (nodes s')) (other : m ≠ n)
    (mem : m ∈ s'.bytes.live) : m ∈ s.bytes.live := by
  rw [live_iff tied] at mem
  rw [live_iff inv.tied]
  exact mem.imp_right fun placed => (visited.live_old other placed).1

variable (inv : Inv env disk start s) (due : Due disk localroot (nodes s) (Seen s) p path name i)
  (visited : Mirroring.Visited localroot (nodes s) p name i n (nodes s'))
include inv due visited

theorem Inv.path_of_new (leads : Leads s'.forest.place localroot rest n) :
    rest = path ++ [name] :=
  Leads.path_unique (visited.tree inv.mirror due).top leads (visited.leads_new inv.mirror due)

/-- The `LocalNode`s that were seen before have the same paths. -/
theorem Inv.path_of_old (seen : Seen s m) (leads : Leads s'.forest.place localroot rest m) :
    Leads s.forest.place localroot rest m := by
  obtain ⟨old, was⟩ := inv.path_of_seen seen
  have still := visited.leads_seen inv.mirror due seen was
  rwa [Leads.path_unique (visited.tree inv.mirror due).top leads still]

variable (marked : Marked env s queue (path ++ [name]) i n s')
include marked

/-- The check has come across one more `LocalNode`. -/
theorem Inv.seen_iff (tied : Tied s'.bytes s'.forest) : Seen s' m ↔ m = n ∨ Seen s m := by
  by_cases here : m = n
  · subst here
    refine iff_of_true (.inr ⟨(live_iff tied).mpr (.inr ?_), ?_⟩) (.inl rfl)
    · have placed : s'.forest.place m = some (p, name) := visited.placed
      rw [placed]
      rfl
    · rw [marked.seqnos, Function.update_self, marked.scanseqno]
  · rw [Seen, Seen, marked.seqnos, marked.scanseqno, Function.update_of_ne here]
    constructor
    · rintro (root | ⟨mem, seqno⟩)
      · exact .inr (.inl root)
      · exact .inr (.inr ⟨inv.live_of_live tied visited here mem, seqno⟩)
    · rintro (same | root | ⟨mem, seqno⟩)
      · exact absurd same here
      · exact .inl root
      · refine .inr ⟨?_, seqno⟩
        have same : s'.forest.place m = s.forest.place m :=
          (visited.seen_same inv.mirror due (.inr ⟨mem, seqno⟩)).1
        rw [live_iff tied, same]
        exact (live_iff inv.tied).mp mem

/-- Another item that was due still is. -/
theorem Inv.due_old (tied : Tied s'.bytes s'.forest) {q : LocalRef} {own : Bytes}
    {j : Mirroring.Item (Option UInt64)} (other : rest ++ [own] ≠ path ++ [name])
    (due' : Due disk localroot (nodes s) (Seen s) q rest own j) :
    Due disk localroot (nodes s') (Seen s') q rest own j where
  reached := (inv.seen_iff due visited marked tied).mpr (.inr due'.reached)
  leads := visited.leads_seen inv.mirror due due'.reached due'.leads
  item := due'.item
  unseen m seen leads := by
    rcases (inv.seen_iff due visited marked tied).mp seen with rfl | seen
    · exact other (inv.path_of_new due visited leads)
    · exact due'.unseen m seen (inv.path_of_old due visited seen leads)

/-- The items in the new folder are due. -/
theorem Inv.due_new (tied : Tied s'.bytes s'.forest) {own : Bytes}
    {j : Mirroring.Item (Option UInt64)} (item : disk.item (path ++ [name] ++ [own]) = some j) :
    Due disk localroot (nodes s') (Seen s') n (path ++ [name]) own j where
  reached := (inv.seen_iff due visited marked tied).mpr (.inl rfl)
  leads := visited.leads_new inv.mirror due
  item := item
  unseen m seen leads := by
    rcases (inv.seen_iff due visited marked tied).mp seen with rfl | seen
    · have length := congrArg List.length (inv.path_of_new due visited leads)
      simp at length
    · have tree := visited.tree inv.mirror due
      obtain ⟨q, upper, here⟩ := leads_snoc.mp leads
      obtain rfl := Leads.unique tree.injective upper (visited.leads_new inv.mirror due)
      have was : s.forest.place m = s'.forest.place m :=
        (visited.seen_same inv.mirror due seen).1.symm
      exact visited.unseen inv.mirror due (inv.mirror.above seen (was.trans here))

omit visited in
theorem Inv.nodup_new (shows : Shows env disk) : s'.notifyq.Nodup := by
  rw [marked.notifyq, List.nodup_append']
  refine ⟨(List.nodup_cons.mp (marked.front ▸ inv.nodup)).2, ?_, fun entry old added => ?_⟩
  · split
    · exact shows.nodup _
    · exact List.nodup_nil
  · cases folder : i.folder with
    | false =>
      rw [folder] at added
      cases added
    | true =>
      rw [folder, if_pos rfl] at added
      obtain ⟨own, rfl, -⟩ := (shows.listed _ entry (.inr ⟨i, due.item, folder⟩)).mp added
      -- the folder of an entry in the queue was seen, this one was not
      obtain ⟨q, upper, own', j, same, due'⟩ := inv.due _ (by
        rw [marked.front]
        exact List.mem_cons_of_mem _ old)
      obtain ⟨rfl, -⟩ := List.append_inj' same rfl
      exact due.unseen q due'.reached due'.leads

omit visited in
/-- A check that ends at a `LocalNode`, which is marked, and whose entries go to the queue if it is
a folder. -/
theorem Inv.arrive (shows : Shows env disk) (startTree : Mirroring.Tree localroot (nodes start))
    (startFits : Mirroring.Fits disk localroot (nodes start)) (tied : Tied s'.bytes s'.forest)
    (visit : Visit localroot (nodes s) p name i n (nodes s')) : Inv env disk start s' := by
  have visited := visit.visited inv.mirror due
  have seen_iff : ∀ {m}, Seen s' m ↔ m = n ∨ Seen s m :=
    inv.seen_iff due visited marked tied
  have mem_iff : ∀ {entry : Path}, entry ∈ s'.notifyq ↔ entry ∈ queue ∨ i.folder = true ∧
      ∃ own, entry = path ++ [name] ++ [own] ∧ (disk.item entry).isSome :=
    marked.mem_notifyq_iff shows due.item
  have new := visited.leads_new inv.mirror due
  refine ⟨tied, ?mirror, marked.fullscan, fun m mem => ?earlier, fun entry mem => ?due,
    inv.nodup_new due marked shows, ?closed⟩
  case mirror =>
    have same : Seen s' = fun m => m = n ∨ Seen s m := funext fun m => propext seen_iff
    rw [same]
    exact inv.mirror.visit startTree startFits due visit
  case earlier =>
    rw [marked.seqnos, marked.scanseqno]
    by_cases here : m = n
    · rw [here, Function.update_self]
    · rw [Function.update_of_ne here]
      exact inv.earlier m (inv.live_of_live tied visited here mem)
  case due =>
    rcases mem_iff.mp mem with old | ⟨-, own, rfl, item⟩
    · obtain ⟨q, upper, own, j, rfl, due'⟩ := inv.due entry (by
        rw [marked.front]
        exact List.mem_cons_of_mem _ old)
      have fresh : path ++ [name] ∉ queue := (List.nodup_cons.mp (marked.front ▸ inv.nodup)).1
      exact ⟨q, upper, own, j, rfl, inv.due_old due visited marked tied
        (fun same => fresh (same ▸ old)) due'⟩
    · obtain ⟨j, item⟩ := Option.isSome_iff_exists.mp item
      exact ⟨n, path ++ [name], own, j, rfl, inv.due_new due visited marked tied item⟩
  case closed =>
    intro q upper own j seen leads item
    rcases seen_iff.mp seen with rfl | seen
    · obtain rfl := inv.path_of_new due visited leads
      have folder : i.folder = true := by
        rcases disk.inside item with empty | ⟨f, item', isFolder⟩
        · exact absurd empty (by simp)
        · rw [due.item] at item'
          cases item'
          exact isFolder
      exact .inr (mem_iff.mpr (.inr ⟨folder, own, rfl, by rw [item]; rfl⟩))
    · have was := inv.path_of_old due visited seen leads
      rcases inv.closed q upper own j seen was item with ⟨m, seen', leads'⟩ | mem
      · exact .inl ⟨m, seen_iff.mpr (.inr seen'),
          visited.leads_seen inv.mirror due seen' leads'⟩
      · rw [marked.front] at mem
        rcases List.mem_cons.mp mem with same | old
        · rw [same]
          exact .inl ⟨n, seen_iff.mpr (.inl rfl), new⟩
        · exact .inr (mem_iff.mpr (.inl old))

end Arrival

section Lookups
variable {env : Environment} {disk : Disk} {start s : State} {p l n : LocalRef}
  {path : Path} {name : Bytes} {i : Mirroring.Item (Option UInt64)} {fa : LocalBytes.FileAccess}
  (unset : UInt64)

/-- The walk to the folder of the last name. -/
theorem localnodebypath_snoc {f : Forest} (links : f.Links Forest.nowhere)
    (leads : Leads f.place l path p) : localnodebypath f l (path ++ [name]) =
      ⟨f.childbyname p name, p, if (f.childbyname p name).isSome then [] else [name]⟩ := by
  induction path generalizing l with
  | nil =>
    obtain rfl : l = p := leads
    rw [List.nil_append, localnodebypath]
    cases f.childbyname l name with
    | none => rfl
    | some child => exact if_pos rfl
  | cons first rest ih =>
    obtain ⟨child, here, leads⟩ := leads
    have more : rest ++ [name] ≠ [] := List.append_ne_nil_of_right_ne_nil _ (List.cons_ne_nil _ _)
    rw [List.cons_append, localnodebypath, links.childbyname_iff.mpr here]
    exact (if_neg more).trans (ih leads)

theorem found_eq (tied : Tied s.bytes s.forest) (leads : Leads s.forest.place localroot path p) :
    s.found (path ++ [name]) unset =
      ⟨false, s.forest.childbyname p name, some p, s.forest.childbyname p name, s.forest.next,
        unset⟩ := by
  rw [State.found, localnodebypath_snoc tied.links leads, List.getLast?_concat]
  rfl

/-- The child with the name of an item that is not its own: a file whose place another file has
taken. -/
theorem branch_other (fullscan : s.bytes.fullscan = true)
    (mem : l ∈ s.bytes.live) (valid : fa.fsidvalid = true) (file : fa.type = .file)
    (time : fa.source.mtime ≠ -1) (differs : s.bytes.fsid l ≠ some fa.fsid) :
    s.bytes.branch ⟨false, some l, some p, some l, s.forest.next, unset⟩ fa =
      ((s.bytes.client.fsidnode fa.fsid).map Prod.snd).elim (.changed l) (.replaced l) := by
  have overwritten : s.bytes.overwrites l fa = true := by
    rw [LocalBytes.State.overwrites, valid, Bool.true_and, decide_eq_true_eq]
    exact differs
  have found : s.bytes.lookupFsid fa = (s.bytes.client.fsidnode fa.fsid).map Prod.snd :=
    if_pos valid
  have present : s.bytes.branchPresent l fa =
      ((s.bytes.client.fsidnode fa.fsid).map Prod.snd).elim (.changed l) (.replaced l) := by
    rw [LocalBytes.State.branchPresent, if_neg (by rw [file]; decide), overwritten, found]
    dsimp only
    rw [if_pos rfl]
    cases (s.bytes.client.fsidnode fa.fsid).map Prod.snd with
    | some moved => rfl
    | none => exact if_pos (.inl (by rwa [if_pos rfl]))
  have other : (some l).filter (fun cl => decide (cl ∈ s.bytes.live ∧
      s.bytes.fsid cl = some fa.fsid)) = none :=
    if_neg (by simp [differs])
  have here : (some l).filter (fun l => decide (l ∈ s.bytes.live)) = some l :=
    if_pos (decide_eq_true mem)
  simp only [LocalBytes.State.branch, fullscan, if_true, other, Option.filter_none,
    Bool.false_eq_true, if_false, Option.none_or, here]
  exact present

/-- The child that has the id of the item is found, changed or not. -/
theorem branch_same (fullscan : s.bytes.fullscan = true) (mem : l ∈ s.bytes.live)
    (same : s.bytes.fsid l = some fa.fsid)
    (typed : (s.bytes.locals l).type = .folder ↔ fa.type = .folder) :
    s.bytes.branch ⟨false, some l, some p, some l, s.forest.next, unset⟩ fa = .unchanged l ∨
      fa.type = .file ∧
        s.bytes.branch ⟨false, some l, some p, some l, s.forest.next, unset⟩ fa = .changed l := by
  have own : (some l).filter (fun cl => decide (cl ∈ s.bytes.live ∧
      s.bytes.fsid cl = some fa.fsid)) = some l :=
    if_pos (decide_eq_true ⟨mem, same⟩)
  simp only [LocalBytes.State.branch, fullscan, if_true, own, Bool.false_eq_true, if_false,
    Option.some_or]
  by_cases fits : (!s.bytes.isFile l || (s.bytes.size l = fa.source.size &&
      (s.bytes.locals l).file.mtime = fa.source.mtime)) = true
  · left
    simp only [Option.filter_some, fits, if_true]
  · right
    have isFile : s.bytes.isFile l = true := by
      cases file : s.bytes.isFile l with
      | true => rfl
      | false => simp [file] at fits
    have file : fa.type = .file := by
      cases type : fa.type with
      | file => rfl
      | folder =>
        rw [LocalBytes.State.isFile, typed.mpr type] at isFile
        cases isFile
    have changed : fa.source.mtime ≠ (s.bytes.locals l).file.mtime ∨
        fa.source.size ≠ s.bytes.size l := by
      by_contra both
      rw [not_or, not_not, not_not] at both
      exact fits (by simp [both.1, both.2])
    have kept : s.bytes.overwrites l fa = false := by
      simp [LocalBytes.State.overwrites, same]
    refine ⟨file, ?_⟩
    have present : s.bytes.branchPresent l fa = .changed l := by
      rw [LocalBytes.State.branchPresent, if_neg (by rw [file]; decide), kept]
      exact if_pos changed
    simp only [Option.filter_some, fits]
    exact present

theorem branch_absent (fullscan : s.bytes.fullscan = true) (valid : fa.fsidvalid = true) :
    s.bytes.branch ⟨false, none, some p, none, s.forest.next, unset⟩ fa =
      ((s.bytes.client.fsidnode fa.fsid).map Prod.snd).elim .added .moved := by
  have found : s.bytes.lookupFsid fa = (s.bytes.client.fsidnode fa.fsid).map Prod.snd :=
    if_pos valid
  simp only [LocalBytes.State.branch, fullscan, if_true, Option.filter_none, Bool.false_eq_true,
    if_false, Option.none_or, found]
  cases (s.bytes.client.fsidnode fa.fsid).map Prod.snd <;> rfl

/-- What `checkpath` does with an open item whose name has the child `cl` of `p`. -/
def State.opened (env : Environment) (s : State) (p : LocalRef) (cl : Option LocalRef)
    (path : Path) (fa : LocalBytes.FileAccess) (unset : UInt64) : State :=
  let found : LocalBytes.Found := ⟨false, cl, some p, cl, s.forest.next, unset⟩
  State.proceed env { s with bytes := s.bytes.checkpath found fa } p path fa.type
    (s.bytes.branch found fa)

/-- A path that is shown and can be opened. -/
theorem checkpath_open (tied : Tied s.bytes s.forest)
    (leads : Leads s.forest.place localroot path p)
    (accepted : env.syncable (path ++ [name]) [] = true ∧
      env.syncable (path ++ [name]) [name] = true)
    (opened : env.fopen (path ++ [name]) = some fa) :
    s.checkpath env (path ++ [name]) unset = none ∨
      s.checkpath env (path ++ [name]) unset =
        some (s.opened env p (s.forest.childbyname p name) (path ++ [name]) fa unset) := by
  rw [State.checkpath, found_eq unset tied leads, localnodebypath_snoc tied.links leads, opened]
  dsimp only
  have shown : ¬(s.forest.childbyname p name = none ∧
      (if (s.forest.childbyname p name).isSome then [] else [name]) = ([] : Path)) := by
    rintro ⟨absent, empty⟩
    rw [absent] at empty
    cases empty
  have accepts : env.syncable (path ++ [name])
      (if (s.forest.childbyname p name).isSome then [] else [name]) = true := by
    split
    · exact accepted.1
    · exact accepted.2
  rw [if_neg shown, accepts, if_neg (by simp)]
  split
  · exact .inl rfl
  · exact .inr rfl

/-- The entries of a folder that is shown are queued. -/
theorem scan_shown (shows : Shows env disk) (item : disk.item (path ++ [name]) = some (itemOf fa)) :
    (s.scan env (path ++ [name]) fa.type).notifyq = s.notifyq ++
      if (itemOf fa).folder then listing env (path ++ [name]) else [] := by
  have outside : ¬env.localdebris <+: path ++ [name] := by
    have folder : path = [] ∨ ∃ i, disk.item path = some i ∧ i.folder = true := disk.inside item
    have entry := (shows.listed path (path ++ [name]) folder).mpr ⟨name, rfl, by rw [item]; rfl⟩
    exact of_decide_eq_true (List.mem_filter.mp entry).2
  rw [State.scan, itemOf]
  cases type : fa.type with
  | file => simp
  | folder => simp [outside]

theorem scan_frame (env : Environment) (s : State) (path : Path) (type : LocalBytes.LocalType) :
    (s.scan env path type).bytes = s.bytes ∧ (s.scan env path type).forest = s.forest ∧
      (s.scan env path type).seqnos = s.seqnos ∧
      (s.scan env path type).scanseqno = s.scanseqno := by
  rw [State.scan]
  split <;> exact ⟨rfl, rfl, rfl, rfl⟩

end Lookups

section Branches
variable {env : Environment} {disk : Disk} {start s s' : State} {p l m : LocalRef}
  {path : Path} {name : Bytes} {queue : List Path} {fa : LocalBytes.FileAccess}

theorem nodes_alike (alike : LocalBytes.Alike s.bytes s'.bytes)
    (place : s'.forest.place = s.forest.place) : nodes s' = nodes s := by
  simp only [nodes, place, LocalBytes.State.fsid, alike.client, alike.type]

theorem overwrites_alike {b b' : LocalBytes.State} (alike : LocalBytes.Alike b b')
    (l : LocalRef) (fa : LocalBytes.FileAccess) : b'.overwrites l fa = b.overwrites l fa := by
  rw [LocalBytes.State.overwrites, LocalBytes.State.overwrites, alike.fsid]

theorem nodes_eq {t : Mirroring.Nodes LocalRef Bytes (Option UInt64)}
    (place : s'.forest.place = t.place) (item : (nodes s').item = t.item) : nodes s' = t := by
  cases t
  rw [nodes, Mirroring.Nodes.mk.injEq]
  exact ⟨place, item⟩

/-- One `LocalNode` has another id or another type. -/
theorem items_update {n : LocalRef}
    (ids : s'.bytes.fsid = Function.update s.bytes.fsid n (some fa.fsid))
    (own : (s'.bytes.locals n).type = fa.type)
    (others : ∀ k, k ≠ n → (s'.bytes.locals k).type = (s.bytes.locals k).type) :
    (nodes s').item = Function.update (nodes s).item n (itemOf fa) := by
  funext k
  by_cases here : k = n
  · subst here
    rw [Function.update_self, nodes]
    dsimp only
    rw [ids, Function.update_self, own, itemOf]
  · rw [Function.update_of_ne here, nodes, nodes]
    dsimp only
    rw [ids, Function.update_of_ne here, others k here]

theorem Inv.live_of_seen (inv : Inv env disk start s) (seen : Seen s m) : m ∈ s.bytes.live := by
  rcases seen with rfl | ⟨mem, -⟩
  · exact (inv.tied.live _).mpr (.inl rfl)
  · exact mem

/-- A node that has not been seen is not above a folder that has. -/
theorem Inv.not_above (inv : Inv env disk start s) (seen : Seen s p) (unseen : ¬Seen s m) :
    ¬ParentForest.AtOrAbove s.forest.parent m p := by
  intro higher
  rw [← Forest.parentOf_place] at higher
  exact unseen (inv.mirror.above_seen seen higher)

theorem notifyq_of_file {entry : Path} (file : fa.type = .file) :
    queue = queue ++ if (itemOf fa).folder then listing env entry else [] := by
  simp [itemOf, file]

variable (inv : Inv env disk start s) (shows : Shows env disk)
  (startTree : Mirroring.Tree localroot (nodes start))
  (startFits : Mirroring.Fits disk localroot (nodes start))
  (due : Due disk localroot (nodes s) (Seen s) p path name (itemOf fa))
include inv shows startTree startFits due

/-- The `LocalNode` of the path has the id. -/
theorem Inv.seenAgain (marked : Marked env s queue (path ++ [name]) (itemOf fa) l s')
    (here : s.forest.place l = some (p, name)) (id : s.bytes.fsid l = some fa.fsid)
    (alike : LocalBytes.Alike s.bytes s'.bytes) (forest : s'.forest = s.forest) :
    Inv env disk start s' := by
  refine inv.arrive due marked shows startTree startFits ?_ ?_
  · rw [forest]
    exact inv.tied.alike alike
  · rw [nodes_alike alike (by rw [forest])]
    exact .same here id

/-- The `LocalNode` of the path gets an id that is new. -/
theorem Inv.overwrites (marked : Marked env s queue (path ++ [name]) (itemOf fa) l s')
    (here : s.forest.place l = some (p, name)) (file : fa.type = .file)
    (free : s.bytes.client.fsidnode fa.fsid = none) {b : LocalBytes.State}
    (before : LocalBytes.Alike s.bytes b)
    (after : LocalBytes.Alike (b.setfsid l fa.fsid) s'.bytes) (forest : s'.forest = s.forest) :
    Inv env disk start s' := by
  obtain ⟨mem, inner⟩ := inv.tied.live_of_place (m := l) (by rw [here]; rfl)
  obtain ⟨tied, ids⟩ := (inv.tied.alike before).setfsid (before.live ▸ mem) inner
    (by rw [before.client, free])
  have same : b.fsid = s.bytes.fsid := before.fsid
  have typed : (s.bytes.locals l).type = .file := by
    have folders := inv.mirror.typed_place due here
    rw [itemOf, file] at folders
    cases type : (s.bytes.locals l).type with
    | file => rfl
    | folder =>
      have folders : decide ((s.bytes.locals l).type = .folder) = false := folders
      rw [type] at folders
      cases folders
  have nodes' : nodes s' =
      { nodes s with item := Function.update (nodes s).item l (itemOf fa) } := by
    have types : ∀ k, (s'.bytes.locals k).type = (s.bytes.locals k).type := fun k =>
      (after.type k).trans (before.type k)
    have own : (s'.bytes.locals l).type = fa.type := (types l).trans (typed.trans file.symm)
    have ids' : s'.bytes.fsid = Function.update s.bytes.fsid l (some fa.fsid) := by
      rw [← same, ← ids]
      exact after.fsid
    exact nodes_eq (by rw [forest]; rfl) (items_update ids' own fun k _ => types k)
  refine inv.arrive due marked shows startTree startFits ?_ ?_
  · rw [forest]
    exact tied.alike after
  · rw [nodes']
    refine .overwritten here (by rw [itemOf, file]; rfl) fun k placed same => ?_
    obtain ⟨mem, inner⟩ := inv.tied.live_of_place placed
    exact inv.tied.lookup_none.mp free k mem inner same

/-- The `LocalNode` that has the id comes to the path, where no other one is. -/
theorem Inv.moves (marked : Marked env s queue (path ++ [name]) (itemOf fa) m s')
    (vacant : ∀ k, s.forest.place k ≠ some (p, name)) (mem : m ∈ s.bytes.live)
    (inner : m ≠ localroot) (id : s.bytes.fsid m = some fa.fsid)
    (bytes : s'.bytes = s.bytes.setparent m (some p))
    (forest : s'.forest = s.forest.setnameparent m (some p) (some name)) :
    Inv env disk start s' := by
  have placed : (s.forest.place m).isSome :=
    ((live_iff inv.tied).mp mem).resolve_left inner
  have unseen := due.unseen_id inv.mirror (m := m) placed id
  have folder := inv.live_of_seen due.reached
  obtain ⟨links, place, next⟩ := inv.tied.links.setnameparent
    ⟨inv.tied.bound mem, inv.tied.bound folder⟩ (inv.not_above due.reached unseen)
    fun k _ => vacant k
  have tied := inv.tied.hang links next place mem inner folder
  have nodes' : nodes s' =
      { nodes s with place := Function.update (nodes s).place m (some (p, name)) } := by
    have alike := LocalBytes.alike_setparent s.bytes m (some p)
    have items : (nodes s').item = (nodes s).item := by
      funext k
      simp only [nodes, bytes, LocalBytes.State.fsid, alike.1, alike.2]
    exact nodes_eq (by rw [forest, place]; rfl) items
  refine inv.arrive due marked shows startTree startFits ?_ ?_
  · rw [bytes, forest]
    exact tied
  · rw [nodes']
    exact .moved vacant placed id

/-- The file that has the id takes the place of another file. -/
theorem Inv.replaces (marked : Marked env s queue (path ++ [name]) (itemOf fa) m s')
    (here : s.forest.place l = some (p, name)) (file : fa.type = .file)
    (differs : s.bytes.fsid l ≠ some fa.fsid) (mem : m ∈ s.bytes.live) (inner : m ≠ localroot)
    (id : s.bytes.fsid m = some fa.fsid)
    (bytes : s'.bytes = (s.bytes.delete l).setparent m (some p))
    (forest : s'.forest = (s.forest.delete l).setnameparent m (some p) (some name)) :
    Inv env disk start s' := by
  have links := inv.tied.links
  obtain ⟨mem_l, inner_l⟩ := inv.tied.live_of_place (m := l) (by rw [here]; rfl)
  have placed : (s.forest.place m).isSome :=
    ((live_iff inv.tied).mp mem).resolve_left inner
  have unseen := due.unseen_id inv.mirror (m := m) placed id
  have folder := inv.live_of_seen due.reached
  have childless : ∀ c q, s.forest.place c ≠ some (l, q) :=
    inv.mirror.tree.childless ((inv.mirror.typed_place due here).trans (by rw [itemOf, file]; rfl))
      inner_l
  have alone : ∀ {k}, ParentForest.AtOrAbove s.forest.parent l k → k = l := by
    intro k higher
    rcases Relation.ReflTransGen.cases_tail higher with same | ⟨c, -, edge⟩
    · exact same.symm
    · exact absurd (Forest.place_eq_some.mpr ⟨edge, rfl⟩) (childless c _)
  have apart_m : m ≠ l := fun same => differs (same ▸ id)
  have apart_p : p ≠ l := fun same => due.unseen_place here (same ▸ due.reached)
  have deleted := Forest.delete_leaf links fun _ higher => alone higher
  have kept : ∀ {k}, k ∈ s.bytes.live → k ≠ l → k ∈ (s.bytes.delete l).live := by
    intro k mem other
    rw [LocalBytes.State.delete, Finset.mem_sdiff]
    exact ⟨mem, fun gone => other (alone (inv.tied.mem_destroyed.mp gone).2)⟩
  have tied := inv.tied.delete inner_l
  obtain ⟨links', place, next⟩ := tied.links.setnameparent (r := m) (p := p)
    ⟨tied.bound (kept mem apart_m), tied.bound (kept folder apart_p)⟩
    (fun higher => inv.not_above due.reached unseen
      (atOrAbove_mono higher fun _ _ edge => (links.delete_parent edge).2))
    (fun k _ (there : (s.forest.delete l).place k = some (p, name)) => by
      rw [deleted] at there
      by_cases at_l : k = l
      · rw [at_l, Function.update_self] at there
        cases there
      · rw [Function.update_of_ne at_l] at there
        exact at_l (links.injective there here))
  have hung := tied.hang links' next place (kept mem apart_m) inner (kept folder apart_p)
  rw [deleted] at place
  have alike := LocalBytes.alike_setparent (s.bytes.delete l) m (some p)
  have rest : ∀ k, k ≠ l → (nodes s').item k = (nodes s).item k := by
    intro k other
    have ids : s'.bytes.fsid k = s.bytes.fsid k := by
      rw [bytes, LocalBytes.State.fsid, alike.1, locals_delete,
        if_neg fun gone => other (alone (inv.tied.mem_destroyed.mp gone).2)]
      rfl
    have type : (s'.bytes.locals k).type = (s.bytes.locals k).type := by
      rw [bytes]
      exact alike.2 k
    simp only [nodes, ids, type]
  have nodes' : nodes s' = ⟨Function.update (Function.update (nodes s).place l none) m
      (some (p, name)), (nodes s').item⟩ :=
    nodes_eq (by rw [forest, place]; rfl) rfl
  refine inv.arrive due marked shows startTree startFits ?_ ?_
  · rw [bytes, forest]
    exact hung
  · rw [nodes']
    exact .replaced here differs (by rw [itemOf, file]; rfl) placed id rest

/-- A new `LocalNode`. -/
theorem Inv.adds (unset : UInt64)
    (marked : Marked env s queue (path ++ [name]) (itemOf fa) s.forest.next s')
    (vacant : ∀ k, s.forest.place k ≠ some (p, name))
    (free : s.bytes.client.fsidnode fa.fsid = none)
    (after : LocalBytes.Alike ((s.bytes.init s.forest.next
      ⟨fa.type, some p, LocalBytes.State.noFile, false⟩ unset).setfsid s.forest.next fa.fsid)
        s'.bytes)
    (forest : s'.forest = s.forest.init (some p) name) : Inv env disk start s' := by
  have folder := inv.live_of_seen due.reached
  obtain ⟨tied, ids, locals⟩ := inv.tied.init folder vacant
    ⟨fa.type, some p, LocalBytes.State.noFile, false⟩ rfl unset free
  obtain ⟨-, place, -⟩ := inv.tied.links.init (inv.tied.bound folder) vacant
  have fresh : s.forest.next ∉ s.bytes.live := fun mem => Nat.lt_irrefl _ (inv.tied.bound mem)
  have nodes' : nodes s' =
      ⟨Function.update (nodes s).place s.forest.next (some (p, name)),
        Function.update (nodes s).item s.forest.next (itemOf fa)⟩ := by
    have own : (s'.bytes.locals s.forest.next).type = fa.type := by
      rw [after.type, locals, Function.update_self]
    have others : ∀ k, k ≠ s.forest.next →
        (s'.bytes.locals k).type = (s.bytes.locals k).type := fun k other => by
      rw [after.type, locals, Function.update_of_ne other]
    have items := items_update (after.fsid.trans ids) own others
    exact nodes_eq (by rw [forest, place]; rfl) items
  refine inv.arrive due marked shows startTree startFits ?_ ?_
  · rw [forest]
    exact tied.alike after
  · rw [nodes']
    refine .added vacant (fun k placed same => ?_) (Nat.ne_of_gt inv.tied.known) ?_
      fun c q there => ?_
    · obtain ⟨mem, inner⟩ := inv.tied.live_of_place placed
      exact inv.tied.lookup_none.mp free k mem inner same
    · have unplaced := mt (live_iff inv.tied).mpr fresh
      exact Option.not_isSome_iff_eq_none.mp (not_or.mp unplaced).2
    · exact fresh (inv.tied.inside (Forest.place_eq_some.mp there).1)

/-- An item at whose path the `LocalNode` with its id is. -/
theorem Inv.checkSame (front : s.notifyq = (path ++ [name]) :: queue)
    (here : s.forest.place l = some (p, name)) (id : s.bytes.fsid l = some fa.fsid)
    (unset : UInt64) : Inv env disk start
      (State.opened env { s with notifyq := queue } p (some l) (path ++ [name]) fa unset) := by
  obtain ⟨mem, inner⟩ := inv.tied.live_of_place (m := l) (by rw [here]; rfl)
  have typed : (s.bytes.locals l).type = .folder ↔ fa.type = .folder :=
    decide_eq_decide.mp (inv.mirror.typed_place due here)
  have noted := LocalBytes.alike_noteOverwrite s.bytes l fa
  rw [State.opened]
  dsimp only
  rcases branch_same (p := p) unset inv.fullscan mem id typed with unchanged | ⟨file, changed⟩
  · rw [unchanged, LocalBytes.State.checkpath, unchanged]
    let t : State := { s with notifyq := queue, bytes := s.bytes.addUnchanged l }
    have alike := LocalBytes.alike_addUnchanged s.bytes l
    have proceeds : State.proceed env t p (path ++ [name]) fa.type (.unchanged l) =
        (t.see l).scan env (path ++ [name]) fa.type := by
      have type : (t.bytes.locals l).type = .folder ↔ fa.type = .folder := by rwa [alike.type]
      rw [State.proceed, LocalBytes.State.isFile]
      cases own : fa.type with
      | file =>
        rw [own] at type
        cases old : (t.bytes.locals l).type with
        | file => rw [if_pos (decide_eq_true rfl), State.scan, if_pos (.inr rfl)]
        | folder => cases type.mp old
      | folder => rw [type.mpr own, if_neg (by decide)]
    dsimp only
    rw [proceeds]
    obtain ⟨bytes, forest, seqnos, scanseqno⟩ :=
      scan_frame env (t.see l) (path ++ [name]) fa.type
    refine inv.seenAgain shows startTree startFits due ⟨front, ?_, scanseqno, seqnos,
      scan_shown shows due.item⟩ here id (bytes ▸ alike) forest
    exact (congrArg LocalBytes.State.fullscan bytes).trans (alike.fullscan.trans inv.fullscan)
  · have own : (s.bytes.noteOverwrite l fa).overwrites l fa = false := by
      rw [overwrites_alike noted]
      simp [LocalBytes.State.overwrites, id]
    have alike := noted.trans (LocalBytes.alike_change _ l fa.source)
    rw [changed, LocalBytes.State.checkpath, changed]
    dsimp only
    rw [own, if_neg Bool.false_ne_true]
    exact inv.seenAgain shows startTree startFits due
      ⟨front, alike.fullscan.trans inv.fullscan, rfl, rfl, notifyq_of_file file⟩ here id alike rfl

/-- A file at whose path another file was. -/
theorem Inv.checkOther (front : s.notifyq = (path ++ [name]) :: queue)
    (valid : fa.fsidvalid = true) (time : fa.type = .file → fa.source.mtime ≠ -1)
    (here : s.forest.place l = some (p, name)) (id : s.bytes.fsid l ≠ some fa.fsid)
    (unset : UInt64) : Inv env disk start
      (State.opened env { s with notifyq := queue } p (some l) (path ++ [name]) fa unset) := by
  obtain ⟨mem, inner⟩ := inv.tied.live_of_place (m := l) (by rw [here]; rfl)
  have noted := LocalBytes.alike_noteOverwrite s.bytes l fa
  have file : fa.type = .file := by
    cases type : fa.type with
    | file => rfl
    | folder =>
      have folder : (itemOf fa).folder = true := by rw [itemOf, type]; rfl
      exact absurd ((inv.mirror.fits.kept here (due.stands inv.mirror) due.item).2 folder) id
  have branch := branch_other (s := s) (l := l) (p := p) unset inv.fullscan mem
    valid file (time file) id
  rw [State.opened]
  dsimp only
  cases known : (s.bytes.client.fsidnode fa.fsid).map Prod.snd with
  | some m =>
    obtain ⟨mem_m, inner_m, id_m⟩ := inv.tied.lookup_iff.mp known
    rw [known, Option.elim_some] at branch
    rw [branch, LocalBytes.State.checkpath, branch]
    refine inv.replaces shows startTree startFits due
      ⟨front, inv.fullscan, rfl, rfl, notifyq_of_file file⟩ here file id mem_m inner_m id_m rfl ?_
    exact congrArg (Forest.setnameparent (s.forest.delete l) m (some p)) List.getLast?_concat
  | none =>
    have free : s.bytes.client.fsidnode fa.fsid = none := Option.map_eq_none_iff.mp known
    have other : (s.bytes.noteOverwrite l fa).overwrites l fa = true := by
      rw [overwrites_alike noted]
      simp [LocalBytes.State.overwrites, id, valid]
    have after := LocalBytes.alike_change ((s.bytes.noteOverwrite l fa).setfsid l fa.fsid) l
      fa.source
    rw [known, Option.elim_none] at branch
    rw [branch, LocalBytes.State.checkpath, branch]
    dsimp only
    rw [other, if_pos rfl]
    exact inv.overwrites shows startTree startFits due
      ⟨front, after.fullscan.trans (noted.fullscan.trans inv.fullscan), rfl, rfl,
        notifyq_of_file file⟩ here file free noted after rfl

/-- An item at whose path no `LocalNode` is. -/
theorem Inv.checkVacant (front : s.notifyq = (path ++ [name]) :: queue)
    (valid : fa.fsidvalid = true) (vacant : ∀ k, s.forest.place k ≠ some (p, name))
    (unset : UInt64) : Inv env disk start
      (State.opened env { s with notifyq := queue } p none (path ++ [name]) fa unset) := by
  have branch := branch_absent (s := s) (p := p) unset inv.fullscan valid
  rw [State.opened]
  dsimp only
  cases known : (s.bytes.client.fsidnode fa.fsid).map Prod.snd with
  | some m =>
    obtain ⟨mem, inner, id⟩ := inv.tied.lookup_iff.mp known
    rw [known, Option.elim_some] at branch
    rw [branch, LocalBytes.State.checkpath, branch]
    let t := State.see (State.move { s with
      notifyq := queue
      bytes := s.bytes.setparent m (some p) } m p (path ++ [name])) m
    have proceeds : State.proceed env { s with
        notifyq := queue
        bytes := s.bytes.setparent m (some p) } p (path ++ [name]) fa.type (.moved m) =
        t.scan env (path ++ [name]) fa.type := if_pos inv.fullscan
    dsimp only
    rw [proceeds]
    obtain ⟨bytes, forest, seqnos, scanseqno⟩ := scan_frame env t (path ++ [name]) fa.type
    refine inv.moves shows startTree startFits due
      ⟨front, (congrArg LocalBytes.State.fullscan bytes).trans inv.fullscan, scanseqno, seqnos,
        scan_shown shows due.item⟩ vacant mem inner id bytes (forest.trans ?_)
    exact congrArg (Forest.setnameparent s.forest m (some p)) List.getLast?_concat
  | none =>
    have free : s.bytes.client.fsidnode fa.fsid = none := Option.map_eq_none_iff.mp known
    have fresh : s.forest.next ∉ s.bytes.live := fun mem => Nat.lt_irrefl _ (inv.tied.bound mem)
    rw [known, Option.elim_none] at branch
    rw [branch, LocalBytes.State.checkpath, branch]
    dsimp only
    rw [if_neg fresh, valid, if_pos rfl]
    have after := LocalBytes.alike_refresh ((s.bytes.init s.forest.next
      ⟨fa.type, some p, LocalBytes.State.noFile, false⟩ unset).setfsid s.forest.next fa.fsid)
      s.forest.next fa.source
    have still : (s.bytes.init s.forest.next
        ⟨fa.type, some p, LocalBytes.State.noFile, false⟩ unset).fullscan = true := by
      rw [LocalBytes.State.init, if_neg fresh]
      exact inv.fullscan
    obtain ⟨bytes, forest, seqnos, scanseqno⟩ := scan_frame env
      (State.see { s with
        notifyq := queue
        bytes := ((s.bytes.init s.forest.next
          ⟨fa.type, some p, LocalBytes.State.noFile, false⟩ unset).setfsid s.forest.next
            fa.fsid).refresh s.forest.next fa.source
        forest := s.forest.init (some p) ((path ++ [name]).getLast?.getD []) } s.forest.next)
      (path ++ [name]) fa.type
    refine inv.adds shows startTree startFits due unset
      ⟨front, (congrArg LocalBytes.State.fullscan bytes).trans (after.fullscan.trans still),
        scanseqno, seqnos, scan_shown shows due.item⟩ vacant free ?_ (forest.trans ?_)
    · exact bytes.symm ▸ after
    · rw [State.see]
      dsimp only
      rw [List.getLast?_concat, Option.getD_some]

end Branches

section Steps
variable {env : Environment} {disk : Disk} {start s s' : State}

/-- A path is taken off the queue. -/
theorem Inv.check (inv : Inv env disk start s) (shows : Shows env disk)
    (startTree : Mirroring.Tree localroot (nodes start))
    (startFits : Mirroring.Fits disk localroot (nodes start)) (unset : UInt64) :
    Inv env disk start (s.procscanq env unset) := by
  rw [State.procscanq]
  cases front : s.notifyq with
  | nil => exact inv
  | cons entry queue =>
    obtain ⟨p, path, name, i, rfl, due⟩ := inv.due entry (by
      rw [front]
      exact List.mem_cons_self)
    obtain ⟨fa, opened, rfl, valid, time⟩ := shows.opened _ i due.item
    have links := inv.tied.links
    rcases checkpath_open (s := { s with notifyq := queue }) unset
      inv.tied due.leads (shows.accepted path name (by rw [due.item]; rfl)) opened with
      postponed | checked
    · dsimp only
      rw [postponed]
      exact inv
    · dsimp only at checked ⊢
      rw [checked, Option.getD_some]
      cases child : s.forest.childbyname p name with
      | some l =>
        have here := links.childbyname_iff.mp child
        by_cases id : s.bytes.fsid l = some fa.fsid
        · exact inv.checkSame shows startTree startFits due front here id unset
        · exact inv.checkOther shows startTree startFits due front valid time here id unset
      | none =>
        refine inv.checkVacant shows startTree startFits due front valid (fun k there => ?_) unset
        rw [links.childbyname_iff.mpr there] at child
        cases child

/-- Steps that move nothing and mark nothing. -/
theorem Inv.same (inv : Inv env disk start s) (tied : Tied s'.bytes s'.forest)
    (alike : LocalBytes.Alike s.bytes s'.bytes) (place : s'.forest.place = s.forest.place)
    (seqnos : s'.seqnos = s.seqnos) (scanseqno : s'.scanseqno = s.scanseqno)
    (notifyq : s'.notifyq = s.notifyq) : Inv env disk start s' := by
  have nodes' := nodes_alike alike place
  have seen : Seen s' = Seen s := by
    funext k
    rw [Seen, Seen, alike.live, seqnos, scanseqno]
  refine ⟨tied, ?_, alike.fullscan.trans inv.fullscan, fun k mem => ?_, ?_, ?_, ?_⟩
  · rw [nodes', seen]
    exact inv.mirror
  · rw [seqnos, scanseqno]
    exact inv.earlier k (alike.live ▸ mem)
  · rw [nodes', seen, notifyq]
    exact inv.due
  · rw [notifyq]
    exact inv.nodup
  · rw [seen, place, notifyq]
    exact inv.closed

theorem Tied.setnode {b : LocalBytes.State} {f : Forest} (tied : Tied b f)
    (node : LocalRef → Option Bytes) : Tied b { f with node := node } where
  links :=
    have links := tied.links
    ⟨links.acyclic, links.bound, links.listed, links.linked, links.missing, links.unique⟩
  root := tied.root
  known := tied.known
  live := tied.live
  inside := tied.inside
  parent := tied.parent
  good := tied.good
  used := tied.used
  held := tied.held
  rootless := tied.rootless

theorem Inv.step (inv : Inv env disk start s) (shows : Shows env disk)
    (startTree : Mirroring.Tree localroot (nodes start))
    (startFits : Mirroring.Fits disk localroot (nodes start)) (e : Event) :
    Inv env disk start (step env s e) := by
  cases e with
  | check unset => exact inv.check shows startTree startFits unset
  | setnode l name => exact inv.same (inv.tied.setnode _) (.refl _) rfl rfl rfl rfl
  | treestate l newts =>
    have shape := Forest.treestate_shape s.forest l newts
    exact inv.same (inv.tied.shape shape) (.refl _) shape.place rfl rfl rfl
  | syncup l source =>
    have alike := LocalBytes.alike_syncupFile s.bytes l source
    exact inv.same (inv.tied.alike alike) alike rfl rfl rfl rfl

end Steps

end MegaSdk.Sync.FullScan
