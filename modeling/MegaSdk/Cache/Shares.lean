import MegaSdk.Cache.Unserialize
import MegaSdk.Lib.ParentForest

/-!
# Applying queued shares

`mergenewshares` with the access check it relies on. Outbound shares are accepted on own nodes
only, inbound shares on other nodes only, and a new outbound share key that does not come from
the cache must carry the authentication of its handle.
-/

namespace MegaSdk.Cache

open ParentForest

abbrev NodeTable := Handle → Option Node

/-- `UNDEF` as a user handle. -/
def undef : UInt64 := 0xFFFFFFFFFFFFFFFF

namespace NodeTable

def parentOf (nodes : NodeTable) (h : Handle) : Option Handle := (nodes h).bind Node.parent

def sharedAt (nodes : NodeTable) (h : Handle) : Bool := (nodes h).any fun n => n.info.inshare.isSome

/-- `checkaccess` with `OWNERPRELOGIN`, for which the login state does not matter; `rank` bounds
the walks up the tree. -/
def checkaccess (rank : Handle → Nat) (nodes : NodeTable) (h : Handle) : Bool :=
  match nodes (climb nodes.parentOf nodes.sharedAt (rank h + 1) h) with
  | none => false
  | some n =>
    match n.info.inshare with
    | some share => ownerPreLogin ≤ share.access
    | none => folderNode < n.type

/-- `proctree` with `TreeProcDel`: the node and everything below it. -/
def removeTree (rank : Handle → Nat) (nodes : NodeTable) (h : Handle) : NodeTable := fun k =>
  (nodes k).map fun n =>
    if climbAvoiding nodes.parentOf (fun _ => false) h (rank k + 1) k = none then
      { n with removed := true }
    else n

end NodeTable

/-- The outbound share of a user: changed, or new with the user that `finduser` returns. -/
def putShare (peer : UInt64) (access : AccessLevel) (ts : Int64) :
    List (UInt64 × Share) → List (UInt64 × Share)
  | [] => [(peer, ⟨peer, access, ts⟩)]
  | (other, share) :: rest =>
    if peer < other then (peer, ⟨peer, access, ts⟩) :: (other, share) :: rest
    else if peer = other then (other, { share with access := access, ts := ts }) :: rest
    else (other, share) :: putShare peer access ts rest

section Merge

variable (handleauth : Handle → Vector UInt8 16) (garbage : Vector UInt8 16) (rank : Handle → Nat)

/-- Whether the key of a share may be set. An authentication that was never given is whatever
the memory holds. -/
def NewShare.authentic (nodes : NodeTable) (s : NewShare) : Bool :=
  s.outgoing ≤ 0 || (nodes.checkaccess rank s.h && handleauth s.h = s.auth.getD garbage)

/-- The node with the share key of a queued share, if it has none. -/
def NewShare.setKey (nodes : NodeTable) (s : NewShare) (n : Node) : Node :=
  if n.info.sharekey = none ∧ s.key.isSome ∧ s.authentic handleauth garbage rank nodes then
    { n with info := { n.info with sharekey := s.key } }
  else n

/-- A deleted outbound share; the last one takes the share key along. -/
def NewShare.erase (s : NewShare) (n : Node) : Node :=
  let outshares := n.info.outshares.filter fun entry => entry.1 ≠ s.peer
  { n with info :=
    { n.info with
      outshares := outshares
      sharekey := if outshares = [] then none else n.info.sharekey } }

def NewShare.apply (nodes : NodeTable) (s : NewShare) (n : Node) : Node :=
  if s.peer = undef then n
  else if s.outgoing ≠ 0 then
    if nodes.checkaccess rank s.h then
      { n with info :=
        { n.info with outshares := putShare s.peer s.access s.ts n.info.outshares } }
    else n
  else if s.peer ≠ 0 ∧ nodes.checkaccess rank s.h = false then
    { n with info :=
      { n.info with
        inshare := some (match n.info.inshare with
          | some share => { share with access := s.access, ts := s.ts }
          | none => ⟨s.peer, s.access, s.ts⟩) } }
  else n

/-- One round of `mergenewshares`. -/
def mergenewshare (nodes : NodeTable) (s : NewShare) : NodeTable :=
  match nodes s.h with
  | none => nodes
  | some n =>
    let n := s.setKey handleauth garbage rank nodes n
    if s.access = accessUnknown ∧ s.key = none then
      if s.outgoing ≠ 0 then Function.update nodes s.h (some (s.erase n))
      else NodeTable.removeTree rank (Function.update nodes s.h (some n)) s.h
    else Function.update nodes s.h (some (s.apply rank nodes n))

def mergenewshares (nodes : NodeTable) (newshares : List NewShare) : NodeTable :=
  newshares.foldl (mergenewshare handleauth garbage rank) nodes

theorem mergenewshares_append (nodes : NodeTable) (first second : List NewShare) :
    mergenewshares handleauth garbage rank nodes (first ++ second) =
      mergenewshares handleauth garbage rank
        (mergenewshares handleauth garbage rank nodes first) second :=
  List.foldl_append

end Merge

section Access

variable {rank : Handle → Nat} {store nodes : NodeTable}

/-- Some of the inbound shares of a table; nothing else in it has changed that `checkaccess`
looks at. -/
def Between (store nodes : NodeTable) : Prop :=
  ∀ h, match store h, nodes h with
    | none, none => True
    | some n, some m => m.type = n.type ∧ m.parent = n.parent ∧
        (m.info.inshare = none ∨ m.info.inshare = n.info.inshare)
    | _, _ => False

/-- The parents of a table rank lower than their children. -/
def Ranked (rank : Handle → Nat) (nodes : NodeTable) : Prop :=
  ∀ h p, nodes.parentOf h = some p → rank p < rank h

def NodeTable.top (rank : Handle → Nat) (nodes : NodeTable) (h : Handle) : Handle :=
  climb nodes.parentOf (fun _ => false) (rank h + 1) h

def NodeTable.underRoot (rank : Handle → Nat) (nodes : NodeTable) (h : Handle) : Bool :=
  (nodes (nodes.top rank h)).any fun n => folderNode < n.type

theorem top_spec (ranked : Ranked rank nodes) (h : Handle) :
    AtOrAbove nodes.parentOf (nodes.top rank h) h ∧ nodes.parentOf (nodes.top rank h) = none := by
  obtain ⟨above, ends, -⟩ := climb_spec (fun _ => false) ranked (Nat.lt_succ_self (rank h))
  exact ⟨above, ends.resolve_left Bool.false_ne_true⟩

theorem top_unique (ranked : Ranked rank nodes) {t h : Handle}
    (above : AtOrAbove nodes.parentOf t h) (root : nodes.parentOf t = none) :
    t = nodes.top rank h := by
  obtain ⟨topAbove, topRoot⟩ := top_spec ranked h
  rcases atOrAbove_linear above topAbove with onTop | onIt
  · exact atOrAbove_root topRoot onTop
  · exact (atOrAbove_root root onIt).symm

theorem top_of_above (ranked : Ranked rank nodes) {a h : Handle}
    (above : AtOrAbove nodes.parentOf a h) : nodes.top rank a = nodes.top rank h := by
  obtain ⟨topAbove, topRoot⟩ := top_spec ranked a
  exact top_unique ranked (atOrAbove_trans topAbove above) topRoot

theorem Between.parentOf_eq (between : Between store nodes) : nodes.parentOf = store.parentOf := by
  funext h
  have here := between h
  rw [NodeTable.parentOf, NodeTable.parentOf]
  cases old : store h <;> cases new : nodes h <;> rw [old, new] at here
  case none.some => exact here.elim
  case some.none => exact here.elim
  case some.some => exact here.2.1

/-- Inbound shares confer less than ownership, on nodes outside of the user's own trees. -/
def SharedApart (rank : Handle → Nat) (store : NodeTable) : Prop :=
  ∀ h n share, store h = some n → n.info.inshare = some share →
    share.access < ownerPreLogin ∧ store.underRoot rank h = false

/-- However many of the shares have been applied, the user owns just what lies in own trees. -/
theorem checkaccess_eq (between : Between store nodes) (ranked : Ranked rank store)
    (apart : SharedApart rank store) (h : Handle) :
    nodes.checkaccess rank h = store.underRoot rank h := by
  have parents := between.parentOf_eq
  have ranked' : Ranked rank nodes := by rwa [Ranked, parents]
  obtain ⟨above, ends, -⟩ := climb_spec nodes.sharedAt ranked' (Nat.lt_succ_self (rank h))
  rw [NodeTable.checkaccess]
  generalize climb nodes.parentOf nodes.sharedAt (rank h + 1) h = e at above ends ⊢
  rw [parents] at above
  have same := top_of_above ranked above
  have here := between e
  have under : store.underRoot rank e = store.underRoot rank h := by
    rw [NodeTable.underRoot, NodeTable.underRoot, same]
  rw [← under]
  cases old : store e <;> cases new : nodes e <;> rw [old, new] at here
  case none.none =>
    have root : store.parentOf e = none := by rw [NodeTable.parentOf, old, Option.bind_none]
    rw [NodeTable.underRoot, ← top_unique ranked (atOrAbove_refl _ e) root, old]
    rfl
  case none.some => exact here.elim
  case some.none => exact here.elim
  case some.some n m =>
    obtain ⟨type, -, share⟩ := here
    cases inbound : m.info.inshare with
    | some s =>
      rw [inbound] at share
      obtain ⟨less, outside⟩ := apart e n s old (share.resolve_left (by simp)).symm
      simp only [inbound, outside]
      exact decide_eq_false (Int.not_le.mpr less)
    | none =>
      have unshared : nodes.sharedAt e = false := by simp [NodeTable.sharedAt, new, inbound]
      have root : store.parentOf e = none := by
        rw [← parents]
        exact ends.resolve_left (by simp [unshared])
      have self := top_unique ranked (atOrAbove_refl _ e) root
      simp only [inbound]
      rw [NodeTable.underRoot, ← self, old, type]
      rfl

end Access

def Node.setShares (m : Node) (inshare : Option Share) (outshares : List (UInt64 × Share))
    (sharekey : Option (Vector UInt8 16)) : Node :=
  { m with info :=
    { m.info with inshare := inshare, outshares := outshares, sharekey := sharekey } }

section FromCache

variable {handleauth : Handle → Vector UInt8 16} {garbage : Vector UInt8 16} {rank : Handle → Nat}
  {nodes : NodeTable} {h : Handle} {m : Node} {share : Share} {key : Vector UInt8 16}

/-- A share behind all others is appended. -/
theorem putShare_last {outshares : List (UInt64 × Share)} {share : Share}
    (last : ∀ entry ∈ outshares, entry.1 < share.user) :
    putShare share.user share.access share.ts outshares = outshares ++ [(share.user, share)] := by
  induction outshares with
  | nil => rfl
  | cons entry outshares ih =>
    obtain ⟨other, old⟩ := entry
    have before : other < share.user := last _ List.mem_cons_self
    rw [putShare, if_neg (UInt64.lt_asymm before), if_neg (UInt64.ne_of_lt before).symm,
      ih fun e mem => last e (List.mem_cons_of_mem _ mem), List.cons_append]

/-- A share from the cache brings the share key along. -/
theorem mergenewshare_queued (here : nodes h = some m) (direction : Int) (cached : direction ≤ 0)
    (known : m.info.sharekey = none ∨ m.info.sharekey = some key) :
    mergenewshare handleauth garbage rank nodes (share.queued direction h (some key)) =
      Function.update nodes h (some ((share.queued direction h (some key)).apply rank nodes
        { m with info := { m.info with sharekey := some key } })) := by
  have authentic : (share.queued direction h (some key)).authentic handleauth garbage rank nodes := by
    simp [NewShare.authentic, Share.queued, cached]
  have keyed : (share.queued direction h (some key)).setKey handleauth garbage rank nodes m =
      { m with info := { m.info with sharekey := some key } } := by
    rw [NewShare.setKey, authentic]
    rcases known with none | same
    · simp [none, Share.queued]
    · rw [if_neg (by simp [same]), ← same]
  rw [mergenewshare]
  simp only [Share.queued] at keyed ⊢
  rw [here]
  simp [keyed]

theorem merge_inshare (here : nodes h = some m) (foreign : nodes.checkaccess rank h = false)
    (bare : m.info.inshare = none) (keyless : m.info.sharekey = none) (user : share.user ≠ 0)
    (defined : share.user ≠ undef) :
    mergenewshare handleauth garbage rank nodes (share.queued 0 h (some key)) =
      Function.update nodes h (some (m.setShares (some share) m.info.outshares (some key))) := by
  rw [mergenewshare_queued here 0 (Int.le_refl 0) (Or.inl keyless)]
  simp [NewShare.apply, Share.queued, foreign, bare, user, defined, Node.setShares]

theorem merge_outshare (here : nodes h = some m) (own : nodes.checkaccess rank h = true)
    (known : m.info.sharekey = none ∨ m.info.sharekey = some key) (defined : share.user ≠ undef)
    (last : ∀ entry ∈ m.info.outshares, entry.1 < share.user) :
    mergenewshare handleauth garbage rank nodes (share.queued (-1) h (some key)) =
      Function.update nodes h (some (m.setShares m.info.inshare
        (m.info.outshares ++ [(share.user, share)]) (some key))) := by
  rw [mergenewshare_queued here (-1) (by decide) known]
  simp [NewShare.apply, Share.queued, own, defined, putShare_last last, Node.setShares]

end FromCache

/-- A table that agrees with the store, but for inbound shares not applied yet, still does after
a change of shares. -/
theorem Between.update {store nodes : NodeTable} (between : Between store nodes) {h : Handle}
    {n m : Node} (stored : store h = some n) (type : m.type = n.type) (parent : m.parent = n.parent)
    (inshare : m.info.inshare = none ∨ m.info.inshare = n.info.inshare) :
    Between store (Function.update nodes h (some m)) := by
  intro k
  by_cases same : k = h
  · subst same
    rw [stored, Function.update_self]
    exact ⟨type, parent, inshare⟩
  · rw [Function.update_of_ne same]
    exact between k

/-- Where the shares of a stored node are accepted again: those of the user's own nodes are
outbound, with one entry for a peer. -/
structure Node.Shareable (rank : Handle → Nat) (store : NodeTable) (h : Handle)
    (n : Node) : Prop where
  exclusive : n.info.inshare.isSome → n.info.outshares = []
  own : n.info.outshares ≠ [] → store.underRoot rank h = true
  ascending : n.info.outshares.Pairwise fun a b => a.1 < b.1
  peers : ∀ entry ∈ n.info.outshares, entry.2.user = entry.1 ∧ entry.1 ≠ undef
  user : ∀ share, n.info.inshare = some share → share.user ≠ 0 ∧ share.user ≠ undef

def Node.withShares (n m : Node) : Node :=
  m.setShares n.info.inshare n.info.outshares (if n.shares = [] then none else n.info.sharekey)

def Node.Unshared (m : Node) : Prop :=
  m.info.inshare = none ∧ m.info.outshares = [] ∧ m.info.sharekey = none

section Restore

variable {handleauth : Handle → Vector UInt8 16} {garbage : Vector UInt8 16} {rank : Handle → Nat}
  {store nodes : NodeTable} {h : Handle} {n m : Node}

theorem merge_outshares (ranked : Ranked rank store) (apart : SharedApart rank store)
    (stored : store h = some n) (own : store.underRoot rank h = true) {key : Vector UInt8 16}
    {done todo : List (UInt64 × Share)} (between : Between store nodes) (here : nodes h = some m)
    (unshared : m.info.inshare = none) (outshares : m.info.outshares = done)
    (known : m.info.sharekey = none ∧ todo ≠ [] ∨ m.info.sharekey = some key)
    (ascending : (done ++ todo).Pairwise fun a b => a.1 < b.1)
    (peers : ∀ entry ∈ todo, entry.2.user = entry.1 ∧ entry.1 ≠ undef) :
    mergenewshares handleauth garbage rank nodes
        ((todo.map Prod.snd).map (Share.queued (-1) h (some key))) =
      Function.update nodes h (some (m.setShares none (done ++ todo) (some key))) := by
  induction todo generalizing nodes m done with
  | nil =>
    have keyed : m.info.sharekey = some key := known.resolve_left fun none => none.2 rfl
    have same : m.setShares none (done ++ []) (some key) = m := by
      rw [List.append_nil, ← outshares, ← keyed, ← unshared]
      rfl
    rw [same, ← here, Function.update_eq_self]
    rfl
  | cons entry todo ih =>
    obtain ⟨peer, share⟩ := entry
    obtain ⟨user, defined⟩ := peers (peer, share) List.mem_cons_self
    obtain rfl : share.user = peer := user
    have fields := between h
    rw [stored, here] at fields
    have access := (checkaccess_eq between ranked apart h).trans own
    have last : ∀ e ∈ m.info.outshares, e.1 < share.user := by
      rw [outshares]
      exact fun e earlier => (List.pairwise_append.mp ascending).2.2 e earlier _ List.mem_cons_self
    have step : mergenewshare handleauth garbage rank nodes (share.queued (-1) h (some key)) = _ :=
      merge_outshare here access (known.imp_left And.left) defined last
    have next : Between store (Function.update nodes h (some (m.setShares m.info.inshare
        (m.info.outshares ++ [(share.user, share)]) (some key)))) :=
      between.update stored fields.1 fields.2.1 (Or.inl unshared)
    have rest := ih next (Function.update_self ..) unshared rfl (Or.inr rfl)
      (by simpa [Node.setShares, outshares] using ascending)
      fun e later => peers e (List.mem_cons_of_mem _ later)
    rw [mergenewshares, List.map_cons, List.map_cons, List.foldl_cons, step, ← mergenewshares,
      rest, Function.update_idem]
    simp [Node.setShares, outshares]

/-- The queued shares of one node restore all its shares. -/
theorem merge_queued (ranked : Ranked rank store) (apart : SharedApart rank store)
    (stored : store h = some n) (shareable : n.Shareable rank store h)
    (keyed : n.shares ≠ [] → n.info.sharekey.isSome) (between : Between store nodes)
    (here : nodes h = some m) (unshared : m.Unshared) :
    mergenewshares handleauth garbage rank nodes (n.queued h) =
      Function.update nodes h (some (n.withShares m)) := by
  obtain ⟨bare, none, keyless⟩ := unshared
  by_cases unused : n.shares = []
  · rw [Node.queued, unused]
    have neither : n.info.inshare = .none ∧ n.info.outshares = [] := by
      rw [Node.shares] at unused
      cases inbound : n.info.inshare with
      | some share => rw [inbound] at unused; cases unused
      | none => rw [inbound] at unused; exact ⟨rfl, List.map_eq_nil_iff.mp unused⟩
    have same : n.withShares m = m := by
      rw [Node.withShares, if_pos unused, neither.1, neither.2, ← bare, ← none, ← keyless]
      rfl
    rw [same, ← here, Function.update_eq_self]
    rfl
  obtain ⟨key, present⟩ := Option.isSome_iff_exists.mp (keyed unused)
  rw [Node.withShares, if_neg unused, Node.queued, present]
  cases inbound : n.info.inshare with
  | some share =>
    have outside := (apart h n share stored inbound).2
    have foreign := (checkaccess_eq between ranked apart h).trans outside
    obtain ⟨user, defined⟩ := shareable.user share inbound
    have exclusive := shareable.exclusive (by rw [inbound]; rfl)
    have step : mergenewshare handleauth garbage rank nodes (share.queued 0 h (some key)) = _ :=
      merge_inshare here foreign bare keyless user defined
    rw [Node.shares, inbound, exclusive, ← none]
    exact step
  | none =>
    have some : n.info.outshares ≠ [] := by
      intro empty
      rw [Node.shares, inbound, empty] at unused
      exact unused rfl
    have merged : mergenewshares handleauth garbage rank nodes
        ((n.info.outshares.map Prod.snd).map (Share.queued (-1) h (.some key))) = _ :=
      merge_outshares ranked apart stored (shareable.own some) between here bare none
        (Or.inl ⟨keyless, some⟩) shareable.ascending shareable.peers
    rw [Node.shares, inbound]
    exact merged

end Restore

end MegaSdk.Cache
