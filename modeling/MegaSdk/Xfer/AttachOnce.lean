import MegaSdk.Xfer.PendingAttributes

/-!
# File attributes are attached once

The three ways of an attribute to its node (with the node, when the node arrives, and after it has
arrived) exclude each other, whatever order things happen in: of every upload, what was stored is
what was sent in the argument of its command, what was attached to its node and what waits.
-/

namespace MegaSdk.Xfer.Attach

open ByteOrder Runs OrderedPointers
open Cache (Handle)

/-- The uploads with imagery so far, the attributes that were stored for them, and the nodes that
results of commands have brought for upload handles. -/
structure Ledger where
  uploads : List WideHandle
  stored : List (WideHandle × UInt16 × WideHandle)
  arrived : List (WideHandle × Handle)

/-- The new nodes of uploads among the records of a result. -/
def arrivals (records : List (NewNode × Handle)) : List (WideHandle × Handle) :=
  (records.filter fun n => n.1.source = .newUpload).map fun n => (n.1.uploadhandle, n.2)

def stepLedger (x : Client × Ledger) (e : Event) : Client × Ledger :=
  (step x.1 e,
    match e with
    | .dispatch _ _ => { x.2 with uploads := getuploadhandle x.1.nextuh :: x.2.uploads }
    | .stored data =>
      match x.1.curfa, x.1.newfa with
      | true, fa :: _ =>
        if data.length = 8 then
          { x.2 with stored := x.2.stored ++ [(fa.th, fa.type, UInt64.ofNat (ofLe data))] }
        else x.2
      | _, _ => x.2
    | .created k handles =>
      match x.1.puts[k]? with
      | some nn => { x.2 with arrived := x.2.arrived ++ arrivals (nn.zip handles) }
      | none => x.2
    | _ => x.2)

/-- The attributes that were stored for an upload. -/
def Ledger.storedFor (l : Ledger) (uh : WideHandle) : List (UInt16 × WideHandle) :=
  (l.stored.filter fun w => w.1 = uh).map Prod.snd

/-- The `fa` arguments of an upload in a command. -/
def Command.arguments (uh : WideHandle) : Command → List Bytes
  | .putNodes nodes =>
    (nodes.filter fun n => n.1.source = .newUpload && n.1.uploadhandle = uh).map Prod.snd
  | .attachFA .. => []

/-- The attributes that a command attaches to a node. -/
def Command.attached (h : Handle) : Command → List (UInt16 × WideHandle)
  | .putNodes _ => []
  | .attachFA n type fah _ => if n = h then [(type, fah)] else []

def waiting (s : Client) (uh : WideHandle) : List (UInt16 × WideHandle) :=
  (s.pendingfa.filter fun a => a.th = uh).map fun a => (a.type, a.fah)

/-- Every attribute that was stored for an upload is in the argument of its command, or in a command
of its own for the node, or waits for that node; each of them is in one place only. -/
structure Delivered (x : Client × Ledger) (uh : WideHandle) (inFA : List PendingFA) : Prop where
  argument : x.1.reqs.flatMap (Command.arguments uh) = [attrString inFA] ∨
    x.1.reqs.flatMap (Command.arguments uh) = [] ∧ inFA = []
  single : (nodesOf x.1 uh).length ≤ 1
  once : (x.2.storedFor uh).Perm (inFA.map (fun a => (a.type, a.fah)) ++
    (nodesOf x.1 uh).flatMap (fun h => x.1.reqs.flatMap (Command.attached h)) ++ waiting x.1 uh)
  done : nodesOf x.1 uh ≠ [] → waiting x.1 uh = []

/-- All uploads have their attributes, on nodes of their own, and nothing else is attached. -/
structure Exact (x : Client × Ledger) : Prop where
  delivered : ∀ uh ∈ x.2.uploads, ∃ inFA, Delivered x uh inFA
  apart : ∀ uh ∈ x.2.uploads, ∀ uh' ∈ x.2.uploads, ∀ h, h ∈ nodesOf x.1 uh → h ∈ nodesOf x.1 uh' →
    uh = uh'
  targets : ∀ h type fah tag, Command.attachFA h type fah tag ∈ x.1.reqs →
    ∃ uh ∈ x.2.uploads, h ∈ nodesOf x.1 uh

/-- The attributes of all uploads are where they belong. The text of an argument says which of them
went along with the node, and once the result with the node has been processed nothing waits: all
that was stored has been sent, with that node or to it. -/
structure Attached (x : Client × Ledger) : Prop where
  exact : Exact x
  told : ∀ uh inFA inFA', Delivered x uh inFA → Delivered x uh inFA' →
    inFA.map (fun a => (a.type, a.fah)) = inFA'.map fun a => (a.type, a.fah)
  arrived : ∀ p ∈ x.2.arrived, p.1 ∈ x.2.uploads →
    nodesOf x.1 p.1 = [p.2] ∧ waiting x.1 p.1 = []

/-- The upload handles of new nodes, but for the one of files without imagery. -/
def uploadsOf (nn : List NewNode) : List WideHandle :=
  (nn.filter fun n => n.source = .newUpload && n.uploadhandle ≠ 0).map NewNode.uploadhandle

/-- There are fewer than 65536 uploads with imagery, each of them has one target node, the results
bring a new node for each that was put, and these nodes stay alive. -/
def Regular (x : Client × Ledger) : Event → Prop
  | .dispatch _ _ => x.2.uploads.length + 1 < 65536
  | .putNodes nn => (uploadsOf nn).Nodup ∧ ∀ uh ∈ uploadsOf nn, uh ∈ x.2.uploads ∧
      x.1.reqs.flatMap (Command.arguments uh) = []
  | .created k handles => ∀ nn ∈ x.1.puts[k]?, handles.length = nn.length ∧ handles.Nodup ∧
      ∀ h ∈ handles, x.1.nodes h = false
  | .remove h => ∀ uh ∈ x.2.uploads, h ∉ nodesOf x.1 uh
  | _ => True

-- The instances below run through lists, not through all handles.
instance (x : Client × Ledger) : (e : Event) → Decidable (Regular x e)
  | .dispatch _ _ => inferInstanceAs (Decidable (x.2.uploads.length + 1 < 65536))
  | .putNodes nn =>
    have : Decidable (∀ uh ∈ uploadsOf nn, uh ∈ x.2.uploads ∧
        x.1.reqs.flatMap (Command.arguments uh) = []) := List.decidableBAll _ _
    inferInstanceAs (Decidable ((uploadsOf nn).Nodup ∧ ∀ uh ∈ uploadsOf nn,
      uh ∈ x.2.uploads ∧ x.1.reqs.flatMap (Command.arguments uh) = []))
  | .created k handles =>
    have (handles : List Handle) : Decidable (∀ h ∈ handles, x.1.nodes h = false) :=
      List.decidableBAll _ handles
    inferInstanceAs (Decidable (∀ nn ∈ x.1.puts[k]?,
      handles.length = nn.length ∧ handles.Nodup ∧ ∀ h ∈ handles, x.1.nodes h = false))
  | .remove h =>
    decidable_of_iff (x.2.uploads.all fun uh => !(nodesOf x.1 uh).contains h) (by simp [Regular])
  | .stored _ | .failed | .next | .arrive _ => isTrue trivial

def argumentsOf (s : Client) (uh : WideHandle) : List Bytes := s.reqs.flatMap (Command.arguments uh)

def attachedTo (s : Client) (h : Handle) : List (UInt16 × WideHandle) :=
  s.reqs.flatMap (Command.attached h)

/-- What the books say between two steps; the uploads in `due` wait for their nodes. -/
structure Booked (x : Client × Ledger) (due : List WideHandle) : Prop where
  count : ∃ k < 65536, x.1.nextuh = uploadHandle k ∧
    x.2.uploads = ((List.range k).map fun i => uploadHandle (i + 1)).reverse
  unique : (x.1.newfa.map (fun fa => (fa.th, fa.type)) ++
    x.2.stored.map fun w => (w.1, w.2.1)).Nodup
  requested : ∀ fa ∈ x.1.newfa, fa.th ∈ x.2.uploads
  recorded : ∀ w ∈ x.2.stored, w.1 ∈ x.2.uploads
  ascending : Ascending PendingFA.key x.1.pendingfa
  pending : ∀ a ∈ x.1.pendingfa, (a.th, a.type, a.fah) ∈ x.2.stored
  sorted : Sorted pairKey x.1.uhnh
  distinct : due.Nodup
  due : ∀ uh ∈ due, uh ∈ x.2.uploads ∧ argumentsOf x.1 uh ≠ [] ∧ nodesOf x.1 uh = []
  known : ∀ uh, uh ≠ 0 → argumentsOf x.1 uh ≠ [] → uh ∈ x.2.uploads
  sent : ∀ uh, uh ≠ 0 → nodesOf x.1 uh ≠ [] → argumentsOf x.1 uh ≠ []
  live : ∀ uh ∈ x.2.uploads, ∀ h ∈ nodesOf x.1 uh, x.1.nodes h = true
  exact : Exact x

section Books
variable {x : Client × Ledger} {due : List WideHandle} {uh : WideHandle} {h : Handle}

theorem Booked.large (booked : Booked x due) (known : uh ∈ x.2.uploads) : 2 ^ 48 ≤ uh.toNat := by
  obtain ⟨k, small, -, uploads⟩ := booked.count
  rw [uploads, List.mem_reverse, List.mem_map] at known
  obtain ⟨i, below, rfl⟩ := known
  rw [List.mem_range] at below
  exact uploadHandle_large (Nat.succ_pos i) (by omega)

theorem Booked.nonzero (booked : Booked x due) (known : uh ∈ x.2.uploads) : uh ≠ 0 := by
  rintro rfl
  exact absurd (booked.large known) (by decide)

theorem Booked.pending_known (booked : Booked x due) {a : PendingFA} (mem : a ∈ x.1.pendingfa) :
    a.th ∈ x.2.uploads := booked.recorded _ (booked.pending a mem)

/-- Parts that the books do not look at may change. -/
theorem Booked.frame (booked : Booked x due) (curfa : Bool) {nodes : Handle → Bool}
    (puts : List (List NewNode)) (arrived : List (WideHandle × Handle))
    (live : ∀ uh ∈ x.2.uploads, ∀ h ∈ nodesOf x.1 uh, nodes h = true) :
    Booked ({ x.1 with curfa := curfa, nodes := nodes, puts := puts },
      { x.2 with arrived := arrived }) due :=
  ⟨booked.count, booked.unique, booked.requested, booked.recorded, booked.ascending,
    booked.pending, booked.sorted, booked.distinct, booked.due, booked.known, booked.sent, live,
    ⟨fun uh known => (booked.exact.delivered uh known).imp fun _ delivered =>
      ⟨delivered.argument, delivered.single, delivered.once, delivered.done⟩,
      booked.exact.apart, booked.exact.targets⟩⟩

/-- The books are about the set of uploads that wait. -/
theorem Booked.perm (booked : Booked x due) {due' : List WideHandle} (perm : due.Perm due') :
    Booked x due' :=
  { booked with
    distinct := perm.nodup_iff.mp booked.distinct
    due := fun uh mem => booked.due uh (perm.mem_iff.mpr mem) }

/-- An upload to which nothing happens. -/
theorem Delivered.congr {inFA : List PendingFA} (delivered : Delivered x uh inFA)
    {x' : Client × Ledger} (arguments : argumentsOf x'.1 uh = argumentsOf x.1 uh)
    (nodes : nodesOf x'.1 uh = nodesOf x.1 uh)
    (attached : ∀ h ∈ nodesOf x.1 uh, attachedTo x'.1 h = attachedTo x.1 h)
    (waits : (waiting x'.1 uh).Perm (waiting x.1 uh))
    (stored : x'.2.storedFor uh = x.2.storedFor uh) : Delivered x' uh inFA := by
  have same : (nodesOf x'.1 uh).flatMap (attachedTo x'.1) =
      (nodesOf x.1 uh).flatMap (attachedTo x.1) := by
    rw [nodes]
    exact List.flatMap_congr attached
  refine ⟨?_, nodes ▸ delivered.single, ?_, fun node => ?_⟩
  · have argument := delivered.argument
    rwa [← argumentsOf, ← arguments, argumentsOf] at argument
  · rw [stored]
    refine delivered.once.trans ((List.Perm.append (List.Perm.append_left _ ?_) waits.symm))
    exact (List.Perm.of_eq same).symm
  · rw [nodes] at node
    have none := delivered.done node
    rw [none] at waits
    exact waits.eq_nil

theorem storedFor_append (l : Ledger) (w : WideHandle × UInt16 × WideHandle) (uh : WideHandle) :
    Ledger.storedFor { l with stored := l.stored ++ [w] } uh =
      l.storedFor uh ++ if w.1 = uh then [w.2] else [] := by
  rw [Ledger.storedFor, Ledger.storedFor, List.filter_append, List.map_append]
  split
  · rename_i same
    simp [same]
  · rename_i other
    simp [other]

theorem storedFor_unknown (booked : Booked x due) (unknown : uh ∉ x.2.uploads) :
    x.2.storedFor uh = [] := by
  rw [Ledger.storedFor, List.map_eq_nil_iff, List.filter_eq_nil_iff]
  intro w mem same
  exact unknown (of_decide_eq_true same ▸ booked.recorded w mem)

theorem waiting_unknown (booked : Booked x due) (unknown : uh ∉ x.2.uploads) :
    waiting x.1 uh = [] := by
  rw [waiting, List.map_eq_nil_iff, List.filter_eq_nil_iff]
  intro a mem same
  exact unknown (of_decide_eq_true same ▸ booked.pending_known mem)

theorem foldl_putfa (tag : Int) (th : WideHandle) (types : List UInt16) (s : Client) :
    types.foldl (Client.putfa tag th) s =
      { s with
        newfa := s.newfa ++ types.map fun type => ⟨th, type, tag⟩
        curfa := s.curfa || !types.isEmpty } := by
  induction types generalizing s with
  | nil => simp
  | cons type types ih =>
    rw [List.foldl_cons, ih, Client.putfa]
    simp

/-- The handle that the next upload gets. -/
theorem Booked.next (booked : Booked x due) (few : x.2.uploads.length + 1 < 65536) :
    ∃ k, k + 1 < 65536 ∧ getuploadhandle x.1.nextuh = uploadHandle (k + 1) ∧
      uploadHandle (k + 1) ≠ 0 ∧ uploadHandle (k + 1) ∉ x.2.uploads ∧
      uploadHandle (k + 1) :: x.2.uploads =
        ((List.range (k + 1)).map fun i => uploadHandle (i + 1)).reverse := by
  obtain ⟨k, small, next, uploads⟩ := booked.count
  have length : x.2.uploads.length = k := by
    rw [uploads]
    simp
  rw [length] at few
  refine ⟨k, few, by rw [next, getuploadhandle_uploadHandle], ?_, ?_, ?_⟩
  · intro zero
    have large := uploadHandle_large (Nat.succ_pos k) few
    rw [zero] at large
    exact absurd large (by decide)
  · rw [uploads, List.mem_reverse, List.mem_map]
    rintro ⟨i, below, same⟩
    rw [List.mem_range] at below
    have := uploadHandle_inj (by omega) few same
    omega
  · rw [List.range_succ, List.map_append, List.reverse_append, uploads]
    rfl

/-- A handle that no upload has had is in no command and has no node. -/
theorem Booked.unheard (booked : Booked x due) (nonzero : uh ≠ 0) (fresh : uh ∉ x.2.uploads) :
    argumentsOf x.1 uh = [] ∧ nodesOf x.1 uh = [] := by
  have arguments : argumentsOf x.1 uh = [] := by
    by_contra some
    exact fresh (booked.known _ nonzero some)
  refine ⟨arguments, ?_⟩
  by_contra some
  exact booked.sent _ nonzero some arguments

/-- The requests for a new upload differ from all others. -/
theorem Booked.unique_dispatch (booked : Booked x due) (fresh : uh ∉ x.2.uploads)
    {types : List UInt16} (distinct : types.Nodup) (tag : Int) :
    ((x.1.newfa ++ types.map fun type => (⟨uh, type, tag⟩ : PutFA)).map
      (fun fa => (fa.th, fa.type)) ++ x.2.stored.map fun w => (w.1, w.2.1)).Nodup := by
  rw [List.map_append, List.append_assoc]
  refine (List.perm_append_comm_assoc ..).nodup_iff.mpr ?_
  refine List.nodup_append.mpr ⟨?_, booked.unique, ?_⟩
  · rw [List.map_map]
    exact distinct.map fun a b same => (Prod.mk.inj same).2
  · intro a first b second same
    rw [List.map_map, List.mem_map] at first
    obtain ⟨type, -, rfl⟩ := first
    rcases List.mem_append.mp second with mem | mem
    · obtain ⟨fa, there, rfl⟩ := List.mem_map.mp mem
      obtain ⟨rfl, -⟩ := Prod.mk.inj same
      exact fresh (booked.requested fa there)
    · obtain ⟨w, there, rfl⟩ := List.mem_map.mp mem
      obtain ⟨rfl, -⟩ := Prod.mk.inj same
      exact fresh (booked.recorded w there)

/-- An upload that has just been dispatched has nothing in any place. -/
theorem Booked.delivered_fresh (booked : Booked x due) (nonzero : uh ≠ 0)
    (fresh : uh ∉ x.2.uploads) : Delivered x uh [] := by
  obtain ⟨arguments, nodes⟩ := booked.unheard nonzero fresh
  refine ⟨.inr ⟨arguments, rfl⟩, ?_, ?_, fun some => absurd nodes some⟩
  · rw [nodes]
    exact Nat.zero_le 1
  · rw [storedFor_unknown booked fresh, nodes, waiting_unknown booked fresh]
    exact List.Perm.refl _

theorem booked_dispatch (booked : Booked x due) (resized : UInt16 → Bool) (tag : Int)
    (few : x.2.uploads.length + 1 < 65536) :
    Booked (stepLedger x (.dispatch resized tag)) due := by
  obtain ⟨k, small, given, nonzero, fresh, count⟩ := booked.next few
  obtain ⟨arguments, nodes⟩ := booked.unheard nonzero fresh
  have stepped : stepLedger x (.dispatch resized tag) =
      ({ x.1 with
          nextuh := uploadHandle (k + 1)
          newfa := x.1.newfa ++ (imagery resized).map fun type => ⟨uploadHandle (k + 1), type, tag⟩
          curfa := x.1.curfa || !(imagery resized).isEmpty },
        { x.2 with uploads := uploadHandle (k + 1) :: x.2.uploads }) := by
    rw [stepLedger, step, Client.dispatch, foldl_putfa, given]
  have types : (imagery resized).Nodup := List.Nodup.filter _ (by decide)
  generalize named : uploadHandle (k + 1) = handle at *
  rw [stepped]
  refine
    { count := ⟨k + 1, small, named.symm, count⟩
      unique := booked.unique_dispatch fresh types tag
      requested := ?requested
      recorded := fun w mem => List.mem_cons_of_mem _ (booked.recorded w mem)
      ascending := booked.ascending
      pending := booked.pending
      sorted := booked.sorted
      distinct := booked.distinct
      due := ?due
      known := fun uh nonzero some => List.mem_cons_of_mem _ (booked.known uh nonzero some)
      sent := booked.sent
      live := ?live
      exact := ⟨?delivered, ?apart, ?targets⟩ }
  case requested =>
    intro fa mem
    rcases List.mem_append.mp mem with old | new
    · exact List.mem_cons_of_mem _ (booked.requested fa old)
    · obtain ⟨type, -, rfl⟩ := List.mem_map.mp new
      exact List.mem_cons_self
  case due =>
    intro uh mem
    obtain ⟨known, some, none⟩ := booked.due uh mem
    exact ⟨List.mem_cons_of_mem _ known, some, none⟩
  case live =>
    intro uh known h mem
    rcases List.mem_cons.mp known with rfl | old
    · have none : h ∈ nodesOf x.1 uh := mem
      rw [nodes] at none
      cases none
    · exact booked.live uh old h mem
  case delivered =>
    intro uh known
    rcases List.mem_cons.mp known with rfl | old
    · have empty := booked.delivered_fresh nonzero fresh
      exact ⟨[], empty.congr rfl rfl (fun _ _ => rfl) (List.Perm.refl _) rfl⟩
    · obtain ⟨inFA, delivered⟩ := booked.exact.delivered uh old
      exact ⟨inFA, delivered.congr rfl rfl (fun _ _ => rfl) (List.Perm.refl _) rfl⟩
  case apart =>
    have own : ∀ uh ∈ handle :: x.2.uploads, ∀ h ∈ nodesOf x.1 uh, uh ∈ x.2.uploads := by
      intro uh known h mem
      refine (List.mem_cons.mp known).resolve_left ?_
      rintro rfl
      rw [nodes] at mem
      cases mem
    intro uh known uh' known' h mem mem'
    exact booked.exact.apart uh (own uh known h mem) uh' (own uh' known' h mem') h mem mem'
  case targets =>
    intro h type fah tag mem
    obtain ⟨uh, known, node⟩ := booked.exact.targets h type fah tag mem
    exact ⟨uh, List.mem_cons_of_mem _ known, node⟩

theorem key_inj {a b : PendingFA} (same : a.key = b.key) : a.th = b.th ∧ a.type = b.type := by
  rw [PendingFA.key, PendingFA.key, toLex_inj, Prod.mk.injEq] at same
  exact ⟨UInt64.toNat_inj.mp same.1, UInt16.toNat_inj.mp same.2⟩

/-- What an attribute that was stored looks like before it goes anywhere. -/
structure Arrived (x : Client × Ledger) (due : List WideHandle) (fa : PutFA) : Prop where
  booked : Booked x due
  known : fa.th ∈ x.2.uploads
  new : ∀ w ∈ x.2.stored, (w.1, w.2.1) ≠ (fa.th, fa.type)

theorem Booked.arrived (booked : Booked x due) {fa : PutFA} {rest : List PutFA}
    (first : x.1.newfa = fa :: rest) (fah : WideHandle) :
    Arrived x due fa ∧ (rest.map (fun fa => (fa.th, fa.type)) ++
      (x.2.stored ++ [(fa.th, fa.type, fah)]).map fun w => (w.1, w.2.1)).Nodup := by
  have unique := booked.unique
  rw [first, List.map_cons, List.cons_append, List.nodup_cons] at unique
  refine ⟨⟨booked, booked.requested fa (first ▸ List.mem_cons_self), fun w mem same => ?_⟩, ?_⟩
  · exact unique.1 (List.mem_append_right _ (List.mem_map.mpr ⟨w, mem, same⟩))
  · rw [List.map_append, ← List.append_assoc]
    refine (List.perm_append_singleton _ _).nodup_iff.mpr (List.nodup_cons.mpr unique)

theorem eq_singleton_of_mem {α : Type} {a : α} {list : List α} (single : list.length ≤ 1)
    (mem : a ∈ list) : list = [a] := by
  obtain ⟨b, rfl⟩ := List.length_eq_one_iff.mp
    (le_antisymm single (List.length_pos_of_mem mem))
  rw [List.mem_singleton.mp mem]

/-- The books after an attribute was stored, for what becomes of it. -/
theorem Arrived.booked_of {fa : PutFA} {rest : List PutFA} (arrived : Arrived x due fa)
    (known : ∀ fa ∈ rest, fa.th ∈ x.2.uploads) (fah : WideHandle)
    (unique : (rest.map (fun fa => (fa.th, fa.type)) ++
      (x.2.stored ++ [(fa.th, fa.type, fah)]).map fun w => (w.1, w.2.1)).Nodup)
    {pendingfa : List PendingFA} {reqs : List Command}
    (ascending : Ascending PendingFA.key pendingfa)
    (pending : ∀ a ∈ pendingfa, a ∈ x.1.pendingfa ∨ (a.th, a.type, a.fah) = (fa.th, fa.type, fah))
    (arguments : ∀ uh, reqs.flatMap (Command.arguments uh) = argumentsOf x.1 uh)
    (targets : ∀ h type f tag, Command.attachFA h type f tag ∈ reqs →
      Command.attachFA h type f tag ∈ x.1.reqs ∨ h ∈ nodesOf x.1 fa.th)
    (delivered : ∀ uh ∈ x.2.uploads, ∃ inFA, Delivered
      ({ x.1 with newfa := rest, curfa := false, pendingfa := pendingfa, reqs := reqs },
        { x.2 with stored := x.2.stored ++ [(fa.th, fa.type, fah)] }) uh inFA) :
    Booked
      ({ x.1 with newfa := rest, curfa := false, pendingfa := pendingfa, reqs := reqs },
        { x.2 with stored := x.2.stored ++ [(fa.th, fa.type, fah)] }) due := by
  obtain ⟨booked, upload, -⟩ := arrived
  refine
    { count := booked.count
      unique := unique
      requested := known
      recorded := ?recorded
      ascending := ascending
      pending := ?pending
      sorted := booked.sorted
      distinct := booked.distinct
      due := ?due
      known := ?known
      sent := ?sent
      live := booked.live
      exact := ⟨delivered, booked.exact.apart, ?targets⟩ }
  case recorded =>
    intro w mem
    rcases List.mem_append.mp mem with old | new
    · exact booked.recorded w old
    · obtain rfl := List.mem_singleton.mp new
      exact upload
  case pending =>
    intro a mem
    rcases pending a mem with old | new
    · exact List.mem_append_left _ (booked.pending a old)
    · rw [new]
      exact List.mem_append_right _ List.mem_cons_self
  case due =>
    intro uh mem
    rw [argumentsOf, arguments]
    exact booked.due uh mem
  case known =>
    intro uh nonzero some
    rw [argumentsOf, arguments] at some
    exact booked.known uh nonzero some
  case sent =>
    intro uh nonzero some
    rw [argumentsOf, arguments]
    exact booked.sent uh nonzero some
  case targets =>
    intro h type f tag mem
    rcases targets h type f tag mem with old | new
    · exact booked.exact.targets h type f tag old
    · exact ⟨fa.th, upload, new⟩

/-- The attribute is attached to the node that the upload has become. -/
theorem Arrived.attach {fa : PutFA} {rest : List PutFA} (arrived : Arrived x due fa)
    (known : ∀ fa ∈ rest, fa.th ∈ x.2.uploads) (fah : WideHandle)
    (unique : (rest.map (fun fa => (fa.th, fa.type)) ++
      (x.2.stored ++ [(fa.th, fa.type, fah)]).map fun w => (w.1, w.2.1)).Nodup)
    (node : h ∈ nodesOf x.1 fa.th) :
    Booked
      ({ x.1 with
          newfa := rest
          curfa := false
          reqs := x.1.reqs ++ [.attachFA h fa.type fah fa.tag] },
        { x.2 with stored := x.2.stored ++ [(fa.th, fa.type, fah)] }) due := by
  have arguments : ∀ uh, (x.1.reqs ++ [Command.attachFA h fa.type fah fa.tag]).flatMap
      (Command.arguments uh) = argumentsOf x.1 uh := by
    intro uh
    rw [List.flatMap_append]
    exact List.append_nil _
  have attached : ∀ h', (x.1.reqs ++ [Command.attachFA h fa.type fah fa.tag]).flatMap
      (Command.attached h') = attachedTo x.1 h' ++ if h = h' then [(fa.type, fah)] else [] := by
    intro h'
    rw [List.flatMap_append]
    exact congrArg _ (List.append_nil _)
  refine arrived.booked_of known fah unique arrived.booked.ascending (fun a mem => .inl mem)
    arguments (fun h' type f tag mem => ?_) fun uh known => ?_
  · rcases List.mem_append.mp mem with old | new
    · exact .inl old
    · obtain ⟨rfl, -⟩ := Command.attachFA.inj (List.mem_singleton.mp new)
      exact .inr node
  · obtain ⟨inFA, delivered⟩ := arrived.booked.exact.delivered uh known
    refine ⟨inFA, ?_⟩
    by_cases same : uh = fa.th
    · subst same
      obtain ⟨argument, single, once, done⟩ := delivered
      have only := eq_singleton_of_mem single node
      rw [done (List.ne_nil_of_mem node), only, List.flatMap_singleton, List.append_nil] at once
      refine ⟨?_, single, ?_, done⟩
      · rw [arguments]
        exact argument
      · show (Ledger.storedFor { x.2 with stored := _ } fa.th).Perm
          (_ ++ (nodesOf x.1 fa.th).flatMap _ ++ waiting x.1 fa.th)
        rw [storedFor_append, if_pos rfl, done (List.ne_nil_of_mem node), only,
          List.flatMap_singleton, attached, if_pos rfl, List.append_nil, ← List.append_assoc]
        exact List.Perm.append_right _ once
    · refine delivered.congr (arguments uh) rfl (fun h' mem => ?_) (List.Perm.refl _) ?_
      · have other : h ≠ h' := by
          rintro rfl
          exact same (arrived.booked.exact.apart uh known fa.th arrived.known h mem node)
        refine (attached h').trans ?_
        rw [if_neg other, List.append_nil]
      · rw [storedFor_append, if_neg (Ne.symm same), List.append_nil]

/-- The attribute waits for its node. -/
theorem Arrived.queue {fa : PutFA} {rest : List PutFA} (arrived : Arrived x due fa)
    (known : ∀ fa ∈ rest, fa.th ∈ x.2.uploads) (fah : WideHandle)
    (unique : (rest.map (fun fa => (fa.th, fa.type)) ++
      (x.2.stored ++ [(fa.th, fa.type, fah)]).map fun w => (w.1, w.2.1)).Nodup)
    (none : nodesOf x.1 fa.th = []) :
    Booked
      ({ x.1 with
          newfa := rest
          curfa := false
          pendingfa := x.1.queue ⟨fa.th, fa.type, fah, fa.tag⟩ },
        { x.2 with stored := x.2.stored ++ [(fa.th, fa.type, fah)] }) due := by
  have absent : ∀ a ∈ x.1.pendingfa, a.key ≠ PendingFA.key ⟨fa.th, fa.type, fah, fa.tag⟩ := by
    intro a mem same
    obtain ⟨th, type⟩ := key_inj same
    exact arrived.new _ (arrived.booked.pending a mem) (Prod.ext th type)
  have queued : x.1.queue ⟨fa.th, fa.type, fah, fa.tag⟩ =
      OrderedPointers.insert PendingFA.key ⟨fa.th, fa.type, fah, fa.tag⟩ x.1.pendingfa := by
    rw [Client.queue, List.filter_eq_self.mpr fun a mem => decide_eq_true (absent a mem)]
  rw [queued]
  have waits : ∀ uh, (((OrderedPointers.insert PendingFA.key ⟨fa.th, fa.type, fah, fa.tag⟩
      x.1.pendingfa).filter fun a => a.th = uh).map fun a => (a.type, a.fah)).Perm
        ((if fa.th = uh then [(fa.type, fah)] else []) ++ waiting x.1 uh) := by
    intro uh
    refine ((insert_perm.filter _).map _).trans (List.Perm.of_eq ?_)
    rw [List.filter_cons]
    by_cases same : fa.th = uh
    · rw [if_pos (decide_eq_true same), if_pos same]
      rfl
    · rw [if_neg fun holds => same (of_decide_eq_true holds), if_neg same]
      rfl
  refine arrived.booked_of known fah unique (arrived.booked.ascending.insert absent)
    (fun a mem => ?_) (fun _ => rfl) (fun _ _ _ _ mem => .inl mem) fun uh known => ?_
  · rcases mem_insert.mp mem with rfl | old
    · exact .inr rfl
    · exact .inl old
  · obtain ⟨inFA, delivered⟩ := arrived.booked.exact.delivered uh known
    refine ⟨inFA, ?_⟩
    have perm := waits uh
    by_cases same : fa.th = uh
    · subst same
      obtain ⟨argument, single, once, -⟩ := delivered
      rw [if_pos rfl] at perm
      refine ⟨argument, single, ?_, fun some => absurd none some⟩
      rw [none, List.flatMap_nil, List.append_nil] at once
      show (Ledger.storedFor { x.2 with stored := _ } fa.th).Perm
        (_ ++ (nodesOf x.1 fa.th).flatMap _ ++ _)
      rw [storedFor_append, if_pos rfl, none, List.flatMap_nil, List.append_nil]
      refine ((List.Perm.append_right _ once).trans ?_).trans (List.Perm.append_left _ perm.symm)
      rw [List.append_assoc]
      exact List.Perm.append_left _ List.perm_append_comm
    · rw [if_neg same] at perm
      refine delivered.congr rfl rfl (fun _ _ => rfl) perm ?_
      rw [storedFor_append, if_neg same, List.append_nil]

theorem booked_stored (booked : Booked x due) (data : Bytes) :
    Booked (stepLedger x (.stored data)) due := by
  rw [stepLedger, step, Client.stored]
  cases busy : x.1.curfa with
  | false => exact booked
  | true =>
    cases first : x.1.newfa with
    | nil => exact booked
    | cons fa rest =>
      dsimp only
      by_cases whole : data.length = 8
      case neg =>
        rw [if_neg whole, if_neg whole]
        have frame := booked.frame false x.1.puts x.2.arrived booked.live
        dsimp only at frame
        rwa [first] at frame
      case pos =>
        rw [if_pos whole, if_pos whole]
        generalize UInt64.ofNat (ofLe data) = fah
        obtain ⟨arrived, unique⟩ := booked.arrived first fah
        have known : ∀ fa ∈ rest, fa.th ∈ x.2.uploads := fun fa mem =>
          booked.requested fa (first ▸ List.mem_cons_of_mem _ mem)
        cases become : nodesOf x.1 fa.th with
        | nil =>
          have missing : ({ x.1 with newfa := rest, curfa := false } : Client).nodebyhandle fa.th =
              none := nodebyhandle_large (booked.large arrived.known)
          have unchanged : ({ x.1 with newfa := rest, curfa := false } : Client).uploaded fa.th =
              fa.th := uploaded_none booked.sorted become
          rw [unchanged, missing]
          exact arrived.queue known fah unique become
        | cons h more =>
          have node : h ∈ nodesOf x.1 fa.th := become ▸ List.mem_cons_self
          have found : ({ x.1 with newfa := rest, curfa := false } : Client).nodebyhandle (wide h) =
              some h := nodebyhandle_wide (booked.live fa.th arrived.known h node)
          have changed : ({ x.1 with newfa := rest, curfa := false } : Client).uploaded fa.th =
              wide h := uploaded_some booked.sorted become
          rw [changed, found]
          exact arrived.attach known fah unique node

theorem mem_uploadsOf {nn : List NewNode} :
    uh ∈ uploadsOf nn ↔ uh ≠ 0 ∧ ∃ n ∈ nn, n.source = .newUpload ∧ n.uploadhandle = uh := by
  simp only [uploadsOf, List.mem_map, List.mem_filter, Bool.and_eq_true, decide_eq_true_eq]
  constructor
  · rintro ⟨n, ⟨mem, source, nonzero⟩, rfl⟩
    exact ⟨nonzero, n, mem, source, rfl⟩
  · rintro ⟨nonzero, n, mem, source, rfl⟩
    exact ⟨n, ⟨mem, source, nonzero⟩, rfl⟩

theorem uploadsOf_append (nn mm : List NewNode) :
    uploadsOf (nn ++ mm) = uploadsOf nn ++ uploadsOf mm := by
  rw [uploadsOf, List.filter_append, List.map_append]
  rfl

theorem uploadsOf_cons (n : NewNode) (nn : List NewNode) :
    uploadsOf (n :: nn) =
      (if n.source = .newUpload ∧ n.uploadhandle ≠ 0 then [n.uploadhandle] else []) ++
        uploadsOf nn := by
  rw [← List.singleton_append, uploadsOf_append]
  congr 1
  by_cases upload : n.source = .newUpload ∧ n.uploadhandle ≠ 0
  · simp [uploadsOf, upload]
  · rw [if_neg upload, uploadsOf, List.map_eq_nil_iff, List.filter_eq_nil_iff]
    simpa using upload

def argument (pendingfa : List PendingFA) (n : NewNode) : Bytes :=
  if n.source = .newUpload then attrString (pendingfa.filter fun a => a.th = n.uploadhandle) else []

theorem filter_th_filter {pendingfa : List PendingFA} {uh other : WideHandle} (apart : uh ≠ other) :
    ((pendingfa.filter fun a => a.th ≠ other).filter fun a => a.th = uh) =
      pendingfa.filter fun a => a.th = uh := by
  rw [List.filter_filter]
  refine List.filter_congr fun a _ => ?_
  by_cases same : a.th = uh
  · simp [same, apart]
  · simp [same]

/-- Each new node gets what waits for its upload. -/
theorem foldl_putNode {nn : List NewNode} {pendingfa : List PendingFA}
    (ascending : Ascending PendingFA.key pendingfa) (nonzero : ∀ a ∈ pendingfa, a.th ≠ 0)
    (distinct : (uploadsOf nn).Nodup) (nodes : List (NewNode × Bytes)) :
    nn.foldl Client.putNode (pendingfa, nodes) =
      (pendingfa.filter fun a => a.th ∉ uploadsOf nn,
        nodes ++ nn.map fun n => (n, argument pendingfa n)) := by
  induction nn generalizing pendingfa nodes with
  | nil => simp [uploadsOf]
  | cons n nn ih =>
    rw [uploadsOf_cons] at distinct
    obtain ⟨-, more, apart⟩ := List.nodup_append.mp distinct
    rw [List.foldl_cons, Client.putNode, attributesOf_eq ascending]
    by_cases upload : n.source = .newUpload
    case neg =>
      rw [if_neg upload, ih ascending nonzero more, uploadsOf_cons,
        if_neg fun both => upload both.1, List.map_cons, argument, if_neg upload, List.append_assoc]
      rfl
    case pos =>
      have left : Ascending PendingFA.key (pendingfa.filter fun a => a.th ≠ n.uploadhandle) :=
        List.Pairwise.sublist List.filter_sublist ascending
      have rest : ∀ m ∈ nn, argument (pendingfa.filter fun a => a.th ≠ n.uploadhandle) m =
          argument pendingfa m := by
        intro m mem
        rw [argument, argument]
        split
        · rename_i source
          by_cases zero : n.uploadhandle = 0
          · rw [zero, List.filter_eq_self.mpr fun a mem => decide_eq_true (nonzero a mem)]
          · by_cases none : m.uploadhandle = 0
            · rw [filter_th_filter fun same => zero (same.symm.trans none)]
            · rw [filter_th_filter]
              refine fun same => apart n.uploadhandle ?_ m.uploadhandle
                (mem_uploadsOf.mpr ⟨none, m, mem, source, rfl⟩) same.symm
              rw [if_pos ⟨upload, zero⟩]
              exact List.mem_singleton_self _
        · rfl
      have pairs : (nn.map fun m =>
          (m, argument (pendingfa.filter fun a => a.th ≠ n.uploadhandle) m)) =
            nn.map fun m => (m, argument pendingfa m) :=
        List.map_congr_left fun m mem => congrArg (Prod.mk m) (rest m mem)
      rw [if_pos upload]
      dsimp only
      rw [ih left (fun a mem => nonzero a (List.mem_of_mem_filter mem)) more, List.filter_filter,
        pairs, List.map_cons, List.append_assoc, argument, if_pos upload]
      refine Prod.ext (List.filter_congr fun a mem => ?_) rfl
      rw [uploadsOf_cons]
      by_cases zero : n.uploadhandle = 0
      · simp [zero, nonzero a mem]
      · simp [upload, zero, Bool.and_comm]

/-- An upload with one new node has one argument. -/
theorem arguments_put {nn : List NewNode} (distinct : (uploadsOf nn).Nodup)
    (pendingfa : List PendingFA) (nonzero : uh ≠ 0) :
    Command.arguments uh (.putNodes (nn.map fun n => (n, argument pendingfa n))) =
      if uh ∈ uploadsOf nn then [attrString (pendingfa.filter fun a => a.th = uh)] else [] := by
  induction nn with
  | nil => rfl
  | cons n nn ih =>
    rw [uploadsOf_cons] at distinct ⊢
    obtain ⟨-, more, apart⟩ := List.nodup_append.mp distinct
    have tail := ih more
    rw [Command.arguments] at tail ⊢
    rw [List.map_cons, List.filter_cons]
    by_cases here : n.source = .newUpload ∧ n.uploadhandle = uh
    · obtain ⟨upload, rfl⟩ := here
      rw [if_pos ⟨upload, nonzero⟩] at apart
      have once : n.uploadhandle ∉ uploadsOf nn := fun mem =>
        apart _ (List.mem_singleton_self _) _ mem rfl
      rw [if_neg once] at tail
      have first : n.uploadhandle ∈ (if n.source = .newUpload ∧ n.uploadhandle ≠ 0
          then [n.uploadhandle] else []) ++ uploadsOf nn := by
        rw [if_pos ⟨upload, nonzero⟩]
        exact List.mem_cons_self
      rw [if_pos (by simp [upload]), List.map_cons, tail, argument, if_pos upload, if_pos first]
    · rw [if_neg (by simpa using here), tail]
      have other : uh ∈ (if n.source = .newUpload ∧ n.uploadhandle ≠ 0
          then [n.uploadhandle] else []) ++ uploadsOf nn ↔ uh ∈ uploadsOf nn := by
        rw [List.mem_append, or_iff_right]
        split
        · rename_i upload
          intro mem
          exact here ⟨upload.1, (List.mem_singleton.mp mem).symm⟩
        · exact List.not_mem_nil
      rw [if_congr other rfl rfl]

/-- `CommandPutNodes` with the arguments of its nodes; what waited for them is taken along. -/
def Client.takeAlong (s : Client) (nn : List NewNode) : Client :=
  { s with
    pendingfa := s.pendingfa.filter fun a => a.th ∉ uploadsOf nn
    puts := s.puts ++ [nn]
    reqs := s.reqs ++ [.putNodes (nn.map fun n => (n, argument s.pendingfa n))] }

theorem putNodes_eq {s : Client} {nn : List NewNode}
    (ascending : Ascending PendingFA.key s.pendingfa) (nonzero : ∀ a ∈ s.pendingfa, a.th ≠ 0)
    (distinct : (uploadsOf nn).Nodup) : s.putNodes nn = s.takeAlong nn := by
  rw [Client.putNodes, foldl_putNode ascending nonzero distinct, List.nil_append]
  rfl

theorem argumentsOf_takeAlong (s : Client) {nn : List NewNode} (distinct : (uploadsOf nn).Nodup)
    (nonzero : uh ≠ 0) :
    argumentsOf (s.takeAlong nn) uh = argumentsOf s uh ++ if uh ∈ uploadsOf nn
      then [attrString (s.pendingfa.filter fun a => a.th = uh)] else [] := by
  rw [argumentsOf, Client.takeAlong, List.flatMap_append, List.flatMap_singleton,
    arguments_put distinct _ nonzero]
  rfl

theorem attachedTo_takeAlong (s : Client) (nn : List NewNode) (h : Handle) :
    attachedTo (s.takeAlong nn) h = attachedTo s h := by
  rw [attachedTo, Client.takeAlong, List.flatMap_append]
  exact List.append_nil _

theorem waiting_takeAlong (s : Client) (nn : List NewNode) (uh : WideHandle) :
    waiting (s.takeAlong nn) uh = if uh ∈ uploadsOf nn then [] else waiting s uh := by
  rw [waiting, Client.takeAlong, List.filter_filter]
  split
  · rename_i mem
    rw [List.map_eq_nil_iff, List.filter_eq_nil_iff]
    rintro a - both
    simp only [Bool.and_eq_true, decide_eq_true_eq] at both
    exact both.2 (both.1 ▸ mem)
  · rename_i apart
    refine congrArg _ (List.filter_congr fun a _ => ?_)
    by_cases same : a.th = uh
    · simp [same, apart]
    · simp [same]

/-- Every attribute that was stored for an upload is in one place after the command. -/
theorem Booked.delivered_takeAlong (booked : Booked x due) {nn : List NewNode}
    (distinct : (uploadsOf nn).Nodup) (new : ∀ uh ∈ uploadsOf nn, argumentsOf x.1 uh = [])
    (known : uh ∈ x.2.uploads) : ∃ inFA, Delivered (x.1.takeAlong nn, x.2) uh inFA := by
  have nonzero := booked.nonzero known
  have arguments := argumentsOf_takeAlong x.1 distinct nonzero
  have waits := waiting_takeAlong x.1 nn uh
  obtain ⟨inFA, delivered⟩ := booked.exact.delivered uh known
  by_cases mem : uh ∈ uploadsOf nn
  · have none := new uh mem
    have nodes : nodesOf x.1 uh = [] := by
      by_contra node
      exact booked.sent uh nonzero node none
    have before := delivered.argument.resolve_left fun some => by
      rw [← argumentsOf, none] at some
      cases some
    have once := delivered.once
    rw [before.2, nodes] at once
    rw [if_pos mem] at arguments waits
    refine ⟨x.1.pendingfa.filter fun a => a.th = uh, .inl ?_, delivered.single, ?_,
      fun node => absurd nodes node⟩
    · rw [none] at arguments
      exact arguments
    · show (x.2.storedFor uh).Perm (_ ++ (nodesOf x.1 uh).flatMap _ ++ _)
      rw [nodes, waits]
      simpa [waiting] using once
  · rw [if_neg mem] at arguments waits
    rw [List.append_nil] at arguments
    exact ⟨inFA, delivered.congr arguments rfl (fun h _ => attachedTo_takeAlong x.1 nn h)
      (List.Perm.of_eq waits) rfl⟩

theorem booked_putNodes (booked : Booked x due) {nn : List NewNode}
    (distinct : (uploadsOf nn).Nodup)
    (new : ∀ uh ∈ uploadsOf nn, uh ∈ x.2.uploads ∧ x.1.reqs.flatMap (Command.arguments uh) = []) :
    Booked (stepLedger x (.putNodes nn)) (due ++ uploadsOf nn) := by
  have pending : ∀ a ∈ x.1.pendingfa, a.th ≠ 0 := fun a mem =>
    booked.nonzero (booked.pending_known mem)
  have some : ∀ uh, uh ≠ 0 → argumentsOf x.1 uh ≠ [] → argumentsOf (x.1.takeAlong nn) uh ≠ [] := by
    intro uh nonzero old none
    rw [argumentsOf_takeAlong x.1 distinct nonzero] at none
    exact old (List.append_eq_nil_iff.mp none).1
  show Booked (x.1.putNodes nn, x.2) _
  rw [putNodes_eq booked.ascending pending distinct]
  refine
    { count := booked.count
      unique := booked.unique
      requested := booked.requested
      recorded := booked.recorded
      ascending := List.Pairwise.sublist List.filter_sublist booked.ascending
      pending := fun a mem => booked.pending a (List.mem_of_mem_filter mem)
      sorted := booked.sorted
      distinct := ?distinct
      due := ?due
      known := ?known
      sent := fun uh nonzero node => some uh nonzero (booked.sent uh nonzero node)
      live := booked.live
      exact := ⟨fun _ => booked.delivered_takeAlong distinct fun uh mem => (new uh mem).2,
        booked.exact.apart, ?targets⟩ }
  case distinct =>
    refine List.nodup_append.mpr ⟨booked.distinct, distinct, ?_⟩
    rintro uh waits _ mem rfl
    exact (booked.due uh waits).2.1 (new uh mem).2
  case due =>
    intro uh mem
    rcases List.mem_append.mp mem with old | mem
    · obtain ⟨known, sent, none⟩ := booked.due uh old
      exact ⟨known, some uh (booked.nonzero known) sent, none⟩
    · obtain ⟨known, none⟩ := new uh mem
      have nonzero := booked.nonzero known
      refine ⟨known, ?_, ?_⟩
      · rw [argumentsOf_takeAlong x.1 distinct nonzero, if_pos mem]
        exact List.append_ne_nil_of_right_ne_nil _ (List.cons_ne_nil _ _)
      · by_contra node
        exact booked.sent uh nonzero node none
  case known =>
    intro uh nonzero sent
    rw [argumentsOf_takeAlong x.1 distinct nonzero] at sent
    by_cases mem : uh ∈ uploadsOf nn
    · exact (new uh mem).1
    · rw [if_neg mem, List.append_nil] at sent
      exact booked.known uh nonzero sent
  case targets =>
    intro h type f tag mem
    rcases List.mem_append.mp mem with old | new
    · exact booked.exact.targets h type f tag old
    · exact absurd (List.mem_singleton.mp new) Command.noConfusion

/-- Nothing was attached to a node that is not there. -/
theorem attachedTo_unknown (booked : Booked x due) (unknown : x.1.nodes h = false) :
    attachedTo x.1 h = [] := by
  rw [attachedTo, List.flatMap_eq_nil_iff]
  intro command mem
  cases command with
  | putNodes nodes => rfl
  | attachFA n type fah tag =>
    refine if_neg ?_
    rintro rfl
    obtain ⟨uh, known, node⟩ := booked.exact.targets n type fah tag mem
    rw [booked.live uh known n node] at unknown
    cases unknown

/-- The pairs of a handle after a pair was added. -/
theorem filter_insert (p : WideHandle × Handle) (uhnh : List (WideHandle × Handle))
    (other : p.1 ≠ uh) : ((OrderedPointers.insert pairKey p uhnh).filter fun q => q.1 = uh) =
      uhnh.filter fun q => q.1 = uh := by
  have split := List.takeWhile_append_dropWhile (p := fun q => decide (pairKey q ≤ pairKey p))
    (l := uhnh)
  conv_rhs => rw [← split]
  rw [OrderedPointers.insert, List.filter_append, List.filter_append, List.filter_cons,
    if_neg fun same => other (of_decide_eq_true same)]

section Adopt
variable (s : Client) (uh : WideHandle) (h : Handle)

theorem argumentsOf_adopt (uh' : WideHandle) :
    argumentsOf (s.adopt uh h) uh' = argumentsOf s uh' := by
  have nothing : ((s.pendingfa.filter fun a => a.th = uh).flatMap fun a =>
      Command.arguments uh' (.attachFA h a.type a.fah a.tag)) = [] :=
    List.flatMap_eq_nil_iff.mpr fun _ _ => rfl
  rw [argumentsOf, Client.adopt, List.flatMap_append, List.flatMap_map, nothing, List.append_nil]
  rfl

theorem attachedTo_adopt (h' : Handle) :
    attachedTo (s.adopt uh h) h' = attachedTo s h' ++ if h = h' then waiting s uh else [] := by
  rw [attachedTo, Client.adopt, List.flatMap_append, List.flatMap_map]
  refine congrArg (attachedTo s h' ++ ·) ?_
  by_cases same : h = h'
  · rw [if_pos same, waiting, List.map_eq_flatMap]
    exact List.flatMap_congr fun a _ => if_pos same
  · rw [if_neg same]
    exact List.flatMap_eq_nil_iff.mpr fun a _ => if_neg same

theorem waiting_adopt (uh' : WideHandle) :
    waiting (s.adopt uh h) uh' = if uh = uh' then [] else waiting s uh' := by
  rw [waiting, Client.adopt]
  by_cases same : uh = uh'
  · subst same
    rw [if_pos rfl, List.filter_filter, List.map_eq_nil_iff, List.filter_eq_nil_iff]
    simp
  · rw [if_neg same, filter_th_filter (Ne.symm same)]
    rfl

theorem nodesOf_adopt_other {uh' : WideHandle} (other : uh ≠ uh') :
    nodesOf (s.adopt uh h) uh' = nodesOf s uh' := by
  rw [nodesOf, Client.adopt]
  dsimp only
  split
  · rfl
  · rw [filter_insert _ _ other]
    rfl

variable {s uh}

theorem nodesOf_adopt_self (none : nodesOf s uh = []) : nodesOf (s.adopt uh h) uh = [h] := by
  have absent : (uh, h) ∉ s.uhnh := by
    intro mem
    have node : h ∈ nodesOf s uh :=
      List.mem_map.mpr ⟨(uh, h), List.mem_filter.mpr ⟨mem, decide_eq_true rfl⟩, rfl⟩
    rw [none] at node
    cases node
  rw [nodesOf, Client.adopt]
  dsimp only
  rw [if_neg absent]
  have perm := ((@insert_perm _ _ _ pairKey s.uhnh (uh, h)).filter
    fun p => p.1 = uh).map Prod.snd
  rw [List.filter_cons, if_pos (decide_eq_true rfl), List.map_cons] at perm
  change List.Perm _ (h :: nodesOf s uh) at perm
  rw [none] at perm
  exact List.perm_singleton.mp perm

theorem sorted_adopt (sorted : Sorted pairKey s.uhnh) : Sorted pairKey (s.adopt uh h).uhnh := by
  rw [Client.adopt]
  dsimp only
  split
  · exact sorted
  · exact sorted.insert (uh, h)

end Adopt

/-- The nodes of uploads stay alive when another node arrives. -/
theorem Booked.live_update (booked : Booked x due) (h : Handle) {uh' : WideHandle}
    (known : uh' ∈ x.2.uploads) {h' : Handle} (node : h' ∈ nodesOf x.1 uh') :
    Function.update x.1.nodes h true h' = true := by
  by_cases here : h' = h
  · rw [here, Function.update_self]
  · rw [Function.update_of_ne here]
    exact booked.live uh' known h' node

/-- The handle of files without imagery is not the one of an upload. -/
theorem Booked.adopt_zero (booked : Booked x due) (h : Handle) :
    Booked (x.1.adopt 0 h, x.2) due := by
  have nodes : ∀ uh, uh ≠ 0 → nodesOf (x.1.adopt 0 h) uh = nodesOf x.1 uh :=
    fun uh nonzero => nodesOf_adopt_other x.1 0 h (Ne.symm nonzero)
  have uploads : ∀ uh ∈ x.2.uploads, nodesOf (x.1.adopt 0 h) uh = nodesOf x.1 uh :=
    fun uh known => nodes uh (booked.nonzero known)
  have none : waiting x.1 0 = [] :=
    waiting_unknown booked fun known => booked.nonzero known rfl
  have attached : ∀ h', attachedTo (x.1.adopt 0 h) h' = attachedTo x.1 h' := by
    intro h'
    rw [attachedTo_adopt, none, ite_self, List.append_nil]
  refine
    { count := booked.count
      unique := booked.unique
      requested := booked.requested
      recorded := booked.recorded
      ascending := List.Pairwise.sublist List.filter_sublist booked.ascending
      pending := fun a mem => booked.pending a (List.mem_of_mem_filter mem)
      sorted := sorted_adopt h booked.sorted
      distinct := booked.distinct
      due := ?due
      known := ?known
      sent := ?sent
      live := ?live
      exact := ⟨?delivered, ?apart, ?targets⟩ }
  case due =>
    intro uh mem
    obtain ⟨known, sent, none⟩ := booked.due uh mem
    rw [argumentsOf_adopt]
    exact ⟨known, sent, (uploads uh known).trans none⟩
  case known =>
    intro uh nonzero some
    rw [argumentsOf_adopt] at some
    exact booked.known uh nonzero some
  case sent =>
    intro uh nonzero node
    rw [nodes uh nonzero] at node
    rw [argumentsOf_adopt]
    exact booked.sent uh nonzero node
  case live =>
    intro uh known h' node
    rw [uploads uh known] at node
    exact booked.live_update h known node
  case delivered =>
    intro uh known
    obtain ⟨inFA, delivered⟩ := booked.exact.delivered uh known
    refine ⟨inFA, delivered.congr (argumentsOf_adopt ..) (uploads uh known)
      (fun h' _ => attached h') (List.Perm.of_eq ?_) rfl⟩
    rw [waiting_adopt, if_neg (booked.nonzero known).symm]
  case apart =>
    intro uh known uh' known' h' node node'
    rw [uploads uh known] at node
    rw [uploads uh' known'] at node'
    exact booked.exact.apart uh known uh' known' h' node node'
  case targets =>
    intro h' type f tag mem
    have old : Command.attachFA h' type f tag ∈ x.1.reqs := by
      refine (List.mem_append.mp mem).resolve_right fun new => ?_
      rw [List.map_eq_nil_iff.mp none] at new
      cases new
    obtain ⟨uh, known, node⟩ := booked.exact.targets h' type f tag old
    refine ⟨uh, known, ?_⟩
    rw [uploads uh known]
    exact node

/-- A new node without imagery. -/
theorem booked_plain (booked : Booked x due) {n : NewNode} (plain : uploadsOf [n] = [])
    (h : Handle) : Booked (x.1.readnode (n, h), x.2) due := by
  by_cases upload : n.source = .newUpload
  case neg =>
    rw [Client.readnode, if_neg upload]
    exact booked.frame x.1.curfa x.1.puts x.2.arrived fun _ known _ node =>
      booked.live_update h known node
  case pos =>
    have zero : n.uploadhandle = 0 := by
      by_contra nonzero
      rw [uploadsOf_cons, if_pos ⟨upload, nonzero⟩] at plain
      cases plain
    rw [readnode_upload booked.ascending upload, zero]
    exact booked.adopt_zero h

/-- A handle that is not in use is not that of a node of an upload. -/
theorem Booked.unused (booked : Booked x due) (unknown : x.1.nodes h = false)
    {uh' : WideHandle} (known : uh' ∈ x.2.uploads) : h ∉ nodesOf x.1 uh' := by
  intro node
  rw [booked.live uh' known h node] at unknown
  cases unknown

/-- Every attribute that was stored for an upload is in one place after a node has arrived. -/
theorem Booked.delivered_adopt (booked : Booked x due) (none : nodesOf x.1 uh = [])
    (unknown : x.1.nodes h = false) {uh' : WideHandle} (known : uh' ∈ x.2.uploads) :
    ∃ inFA, Delivered (x.1.adopt uh h, x.2) uh' inFA := by
  obtain ⟨inFA, delivered⟩ := booked.exact.delivered uh' known
  refine ⟨inFA, ?_⟩
  by_cases same : uh = uh'
  · subst same
    have own := nodesOf_adopt_self h none
    have gone : waiting (x.1.adopt uh h) uh = [] := by rw [waiting_adopt, if_pos rfl]
    have once := delivered.once
    rw [none, List.flatMap_nil, List.append_nil] at once
    refine ⟨?_, ?_, ?_, fun _ => gone⟩
    · have arguments := argumentsOf_adopt x.1 uh h uh
      rw [argumentsOf] at arguments
      rw [arguments]
      exact delivered.argument
    · rw [own]
      exact le_rfl
    · show (x.2.storedFor uh).Perm
        (_ ++ (nodesOf (x.1.adopt uh h) uh).flatMap (attachedTo (x.1.adopt uh h)) ++ _)
      rw [gone, own, List.flatMap_singleton, attachedTo_adopt, attachedTo_unknown booked unknown,
        if_pos rfl, List.append_nil]
      exact once
  · refine delivered.congr (argumentsOf_adopt ..) (nodesOf_adopt_other x.1 uh h same)
      (fun h' node => ?_) (List.Perm.of_eq ?_) rfl
    · have other : h ≠ h' := by
        rintro rfl
        exact booked.unused unknown known node
      rw [attachedTo_adopt, if_neg other, List.append_nil]
    · rw [waiting_adopt, if_neg same]

/-- The new node belongs to the upload and to no other. -/
theorem Booked.apart_adopt (booked : Booked x due) (none : nodesOf x.1 uh = [])
    (unknown : x.1.nodes h = false) {a b : WideHandle} (first : a ∈ x.2.uploads)
    (second : b ∈ x.2.uploads) {h' : Handle} (node : h' ∈ nodesOf (x.1.adopt uh h) a)
    (node' : h' ∈ nodesOf (x.1.adopt uh h) b) : a = b := by
  have own : ∀ uh' ∈ x.2.uploads, h' ∈ nodesOf (x.1.adopt uh h) uh' → (h' = h ↔ uh = uh') := by
    intro uh' known there
    by_cases same : uh = uh'
    · subst same
      rw [nodesOf_adopt_self h none] at there
      exact iff_of_true (List.mem_singleton.mp there) rfl
    · rw [nodesOf_adopt_other x.1 uh h same] at there
      refine iff_of_false ?_ same
      rintro rfl
      exact booked.unused unknown known there
  have left := own a first node
  have right := own b second node'
  by_cases here : h' = h
  · exact (left.mp here).symm.trans (right.mp here)
  · rw [nodesOf_adopt_other x.1 uh h fun same => here (left.mpr same)] at node
    rw [nodesOf_adopt_other x.1 uh h fun same => here (right.mpr same)] at node'
    exact booked.exact.apart a first b second h' node node'

/-- The node of an upload arrives. -/
theorem booked_upload (booked : Booked x (uh :: due)) {n : NewNode} (upload : n.source = .newUpload)
    (handle : n.uploadhandle = uh) (unknown : x.1.nodes h = false) :
    Booked (x.1.readnode (n, h), x.2) due := by
  obtain ⟨known, sent, none⟩ := booked.due uh List.mem_cons_self
  have distinct := List.nodup_cons.mp booked.distinct
  have own := nodesOf_adopt_self h none
  rw [readnode_upload booked.ascending upload, handle]
  refine
    { count := booked.count
      unique := booked.unique
      requested := booked.requested
      recorded := booked.recorded
      ascending := List.Pairwise.sublist List.filter_sublist booked.ascending
      pending := fun a mem => booked.pending a (List.mem_of_mem_filter mem)
      sorted := sorted_adopt h booked.sorted
      distinct := distinct.2
      due := ?due
      known := ?known
      sent := ?sent
      live := ?live
      exact := ⟨fun _ => booked.delivered_adopt none unknown,
        fun _ first _ second _ => booked.apart_adopt none unknown first second, ?targets⟩ }
  case due =>
    intro uh' mem
    obtain ⟨known', sent', none'⟩ := booked.due uh' (List.mem_cons_of_mem _ mem)
    have other : uh ≠ uh' := by
      rintro rfl
      exact distinct.1 mem
    rw [argumentsOf_adopt, nodesOf_adopt_other x.1 uh h other]
    exact ⟨known', sent', none'⟩
  case known =>
    intro uh' nonzero some
    rw [argumentsOf_adopt] at some
    exact booked.known uh' nonzero some
  case sent =>
    intro uh' nonzero node
    rw [argumentsOf_adopt]
    by_cases same : uh = uh'
    · exact same ▸ sent
    · rw [nodesOf_adopt_other x.1 uh h same] at node
      exact booked.sent uh' nonzero node
  case live =>
    intro uh' known' h' node
    by_cases same : uh = uh'
    · subst same
      rw [own] at node
      rw [List.mem_singleton.mp node]
      exact Function.update_self ..
    · rw [nodesOf_adopt_other x.1 uh h same] at node
      exact booked.live_update h known' node
  case targets =>
    intro h' type f tag mem
    rcases List.mem_append.mp mem with old | new
    · obtain ⟨uh', known', node⟩ := booked.exact.targets h' type f tag old
      refine ⟨uh', known', ?_⟩
      have other : uh ≠ uh' := by
        rintro rfl
        rw [none] at node
        cases node
      rw [nodesOf_adopt_other x.1 uh h other]
      exact node
    · obtain ⟨a, -, same⟩ := List.mem_map.mp new
      obtain ⟨rfl, -⟩ := Command.attachFA.inj same
      refine ⟨uh, known, ?_⟩
      rw [own]
      exact List.mem_singleton_self _

theorem nodes_readnode (s : Client) (n : NewNode) (h : Handle) :
    (s.readnode (n, h)).nodes = Function.update s.nodes h true := by
  rw [Client.readnode]
  split <;> rfl

/-- The result of a command: every upload in it gets its node. -/
theorem booked_created {nn : List NewNode} {handles : List Handle} {l : Ledger} {s : Client}
    (booked : Booked (s, l) (uploadsOf nn ++ due)) (length : handles.length = nn.length)
    (distinct : handles.Nodup) (new : ∀ h ∈ handles, s.nodes h = false) :
    Booked ((nn.zip handles).foldl Client.readnode s, l) due := by
  induction nn generalizing handles s with
  | nil => exact booked
  | cons n nn ih =>
    cases handles with
    | nil => cases length
    | cons h handles =>
      obtain ⟨once, rest⟩ := List.nodup_cons.mp distinct
      rw [List.zip_cons_cons, List.foldl_cons]
      have unknown := new h List.mem_cons_self
      refine ih ?_ (Nat.succ.inj length) rest fun h' mem => ?_
      · rw [uploadsOf_cons, List.append_assoc] at booked
        by_cases upload : n.source = .newUpload ∧ n.uploadhandle ≠ 0
        · rw [if_pos upload] at booked
          exact booked_upload booked upload.1 rfl unknown
        · have plain : uploadsOf [n] = [] := by
            rw [uploadsOf_cons, if_neg upload]
            rfl
          rw [if_neg upload, List.nil_append] at booked
          exact booked_plain booked plain h
      · have other : h' ≠ h := by
          rintro rfl
          exact once mem
        rw [nodes_readnode, Function.update_of_ne other]
        exact new h' (List.mem_cons_of_mem _ mem)

theorem uploadsOf_flatten_perm {puts : List (List NewNode)} {k : Nat} {nn : List NewNode}
    (there : puts[k]? = some nn) :
    (uploadsOf puts.flatten).Perm (uploadsOf nn ++ uploadsOf (puts.eraseIdx k).flatten) := by
  obtain ⟨bound, rfl⟩ := List.getElem?_eq_some_iff.mp there
  have perm := (List.getElem_cons_eraseIdx_perm bound).symm.flatten
  rw [List.flatten_cons] at perm
  rw [← uploadsOf_append]
  exact (perm.filter _).map _

end Books

theorem puts_foldl_readnode (nodes : List (NewNode × Handle)) (s : Client) :
    (nodes.foldl Client.readnode s).puts = s.puts := by
  induction nodes generalizing s with
  | nil => rfl
  | cons n nodes ih =>
    rw [List.foldl_cons, ih, Client.readnode]
    split <;> rfl

theorem puts_stored (s : Client) (data : Bytes) : (s.stored data).puts = s.puts := by
  rw [Client.stored]
  split
  · split
    · dsimp only
      split <;> rfl
    · rfl
  · rfl

/-- A regular step keeps the books. -/
theorem booked_step {x : Client × Ledger} {e : Event}
    (booked : Booked x (uploadsOf x.1.puts.flatten)) (regular : Regular x e) :
    Booked (stepLedger x e) (uploadsOf (stepLedger x e).1.puts.flatten) := by
  cases e with
  | dispatch resized tag =>
    have puts : (stepLedger x (.dispatch resized tag)).1.puts = x.1.puts := by
      rw [stepLedger, step, Client.dispatch, foldl_putfa]
    rw [puts]
    exact booked_dispatch booked resized tag regular
  | stored data =>
    have puts : (stepLedger x (.stored data)).1.puts = x.1.puts := puts_stored x.1 data
    rw [puts]
    exact booked_stored booked data
  | failed => exact booked.frame false x.1.puts x.2.arrived booked.live
  | next => exact booked.frame (!x.1.newfa.isEmpty) x.1.puts x.2.arrived booked.live
  | putNodes nn =>
    have puts : (stepLedger x (.putNodes nn)).1.puts = x.1.puts ++ [nn] := by
      show (x.1.putNodes nn).puts = _
      rw [Client.putNodes]
    rw [puts, List.flatten_append, List.flatten_singleton, uploadsOf_append]
    exact booked_putNodes booked regular.1 regular.2
  | created k handles =>
    cases there : x.1.puts[k]? with
    | none =>
      have idle : stepLedger x (.created k handles) = x := by
        rw [stepLedger, step, Client.created, there]
      rw [idle]
      exact booked
    | some nn =>
      obtain ⟨length, distinct, new⟩ := regular nn there
      have read : stepLedger x (.created k handles) =
          ((nn.zip handles).foldl Client.readnode { x.1 with puts := x.1.puts.eraseIdx k },
            { x.2 with arrived := x.2.arrived ++ arrivals (nn.zip handles) }) := by
        rw [stepLedger, step, Client.created, there]
      have waits := booked.perm (uploadsOf_flatten_perm there)
      rw [read, puts_foldl_readnode]
      exact booked_created (waits.frame x.1.curfa (x.1.puts.eraseIdx k) _ booked.live) length distinct
        new
  | arrive h =>
    refine booked.frame x.1.curfa x.1.puts x.2.arrived fun uh known h' node => ?_
    by_cases here : h' = h
    · rw [here, Function.update_self]
    · rw [Function.update_of_ne here]
      exact booked.live uh known h' node
  | remove h =>
    refine booked.frame x.1.curfa x.1.puts x.2.arrived fun uh known h' node => ?_
    have other : h' ≠ h := by
      rintro rfl
      exact regular uh known node
    rw [Function.update_of_ne other]
    exact booked.live uh known h' node

/-- The results so far are in `uhnh`. -/
def Recorded (x : Client × Ledger) : Prop := ∀ p ∈ x.2.arrived, p ∈ x.1.uhnh

theorem mem_readnode {s : Client} {n : NewNode × Handle} {p : WideHandle × Handle} :
    p ∈ (s.readnode n).uhnh ↔ p ∈ s.uhnh ∨ p ∈ arrivals [n] := by
  by_cases upload : n.1.source = .newUpload
  · have new : arrivals [n] = [(n.1.uploadhandle, n.2)] := by simp [arrivals, upload]
    rw [Client.readnode, if_pos upload, new, List.mem_singleton]
    dsimp only
    split
    · rename_i known
      exact (or_iff_left_of_imp fun same => same ▸ known).symm
    · rw [mem_insert, or_comm]
  · have none : arrivals [n] = [] := by simp [arrivals, upload]
    rw [Client.readnode, if_neg upload, none]
    simp

theorem mem_foldl_readnode {records : List (NewNode × Handle)} {s : Client}
    {p : WideHandle × Handle} :
    p ∈ (records.foldl Client.readnode s).uhnh ↔ p ∈ s.uhnh ∨ p ∈ arrivals records := by
  induction records generalizing s with
  | nil => simp [arrivals]
  | cons n records ih =>
    have split : arrivals (n :: records) = arrivals [n] ++ arrivals records := by
      rw [arrivals, arrivals, arrivals, ← List.map_append, ← List.filter_append,
        List.singleton_append]
    rw [List.foldl_cons, ih, mem_readnode, split, List.mem_append, or_assoc]

theorem uhnh_stored (s : Client) (data : Bytes) : (s.stored data).uhnh = s.uhnh := by
  rw [Client.stored]
  split
  · split
    · dsimp only
      split <;> rfl
    · rfl
  · rfl

/-- Nothing leaves `uhnh`, and every node of a result enters it. -/
theorem recorded_step {x : Client × Ledger} (e : Event) (recorded : Recorded x) :
    Recorded (stepLedger x e) := by
  cases e with
  | created k handles =>
    rw [stepLedger, step, Client.created]
    split
    · rename_i none
      rw [none]
      exact recorded
    · rename_i nn there
      rw [there]
      intro p mem
      refine mem_foldl_readnode.mpr ?_
      exact (List.mem_append.mp mem).imp (recorded p) id
  | dispatch resized tag =>
    intro p mem
    have same : (stepLedger x (.dispatch resized tag)).1.uhnh = x.1.uhnh := by
      rw [stepLedger, step, Client.dispatch, foldl_putfa]
    rw [same]
    exact recorded p mem
  | stored data =>
    intro p mem
    have same : (stepLedger x (.stored data)).1.uhnh = x.1.uhnh := uhnh_stored x.1 data
    have old : (stepLedger x (.stored data)).2.arrived = x.2.arrived := by
      rw [stepLedger]
      dsimp only
      split
      · split <;> rfl
      · rfl
    rw [same]
    exact recorded p (old ▸ mem)
  | _ => exact recorded

/-- The books, with the nodes of the results in `uhnh`, say where everything is. -/
theorem Booked.attached {x : Client × Ledger} {due : List WideHandle} (booked : Booked x due)
    (recorded : Recorded x) : Attached x := by
  refine ⟨booked.exact, ?told, ?arrived⟩
  case told =>
    intro uh inFA inFA' delivered delivered'
    rcases delivered.argument with text | ⟨none, rfl⟩
    · rcases delivered'.argument with text' | ⟨none', -⟩
      · exact attrString_inj (List.cons.inj (text.symm.trans text')).1
      · rw [none'] at text
        cases text
    · rcases delivered'.argument with text' | ⟨-, rfl⟩
      · rw [none] at text'
        cases text'
      · rfl
  case arrived =>
    intro p mem known
    obtain ⟨inFA, delivered⟩ := booked.exact.delivered p.1 known
    have node : p.2 ∈ nodesOf x.1 p.1 :=
      List.mem_map.mpr ⟨p, List.mem_filter.mpr ⟨recorded p mem, decide_eq_true rfl⟩, rfl⟩
    exact ⟨eq_singleton_of_mem delivered.single node, delivered.done (List.ne_nil_of_mem node)⟩

theorem booked_start : Booked (Client.start, ⟨[], [], []⟩) [] where
  count := ⟨0, by decide, by decide, rfl⟩
  unique := List.nodup_nil
  requested fa mem := absurd mem List.not_mem_nil
  recorded w mem := absurd mem List.not_mem_nil
  ascending := List.Pairwise.nil
  pending a mem := absurd mem List.not_mem_nil
  sorted := List.Pairwise.nil
  distinct := List.nodup_nil
  due uh mem := absurd mem List.not_mem_nil
  known uh _ some := absurd rfl some
  sent uh _ node := absurd rfl node
  live uh known := absurd known List.not_mem_nil
  exact :=
    { delivered := fun uh known => absurd known List.not_mem_nil
      apart := fun uh known => absurd known List.not_mem_nil
      targets := fun h type fah tag mem => absurd mem List.not_mem_nil }

/-- In every regular run, in every state reached, the attributes of all uploads are where they
belong: each is sent once, with the node or to the node, or still waits for the result with the
node. -/
theorem attached_once {events : List Event}
    (regular : Meets stepLedger Regular (Client.start, ⟨[], [], []⟩) events) :
    Always stepLedger Attached (Client.start, ⟨[], [], []⟩) events := by
  let Inv (x : Client × Ledger) : Prop := Booked x (uploadsOf x.1.puts.flatten) ∧ Recorded x
  have keeps : ∀ x e, Inv x → Regular x e → Inv (stepLedger x e) := fun x e inv regular =>
    ⟨booked_step inv.1 regular, recorded_step e inv.2⟩
  have start : Inv (Client.start, ⟨[], [], []⟩) :=
    ⟨booked_start, fun p mem => absurd mem List.not_mem_nil⟩
  exact (always_of_meets keeps start regular).mono fun x inv => inv.1.attached inv.2

/-- Two uploads: of the first one, the preview is stored before the node is put, the thumbnail after
the node is there; the node of the second one is put in between. -/
def twoUploads : List Event :=
  [.dispatch (fun _ => true) 1, .dispatch (fun _ => true) 2, .stored [1, 0, 0, 0, 0, 0, 0, 0],
    .putNodes [⟨.newUpload, uploadHandle 1⟩], .next, .failed,
    .putNodes [⟨.newUpload, uploadHandle 2⟩], .created 1 [8], .created 0 [7], .next,
    .stored [2, 0, 0, 0, 0, 0, 0, 0], .next, .stored [3, 0, 0, 0, 0, 0, 0, 0], .next,
    .stored [4, 0, 0, 0, 0, 0, 0, 0]]

theorem twoUploads_attached :
    Meets stepLedger Regular (Client.start, ⟨[], [], []⟩) twoUploads ∧
      Always stepLedger Attached (Client.start, ⟨[], [], []⟩) twoUploads ∧
      (run stepLedger (Client.start, ⟨[], [], []⟩) twoUploads).2.arrived =
        [(uploadHandle 2, 8), (uploadHandle 1, 7)] := by
  have regular : Meets stepLedger Regular (Client.start, ⟨[], [], []⟩) twoUploads := by
    decide +kernel
  exact ⟨regular, attached_once regular, by decide +kernel⟩

end MegaSdk.Xfer.Attach
