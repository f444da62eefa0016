import MegaSdk.Server.Shares

/-!
# Shared nodes and their share keys

A share may be merged into a node without a share key, and the last revocation of an outbound
share deletes the key of an inbound one. The runs of `mergenewshares` in which no shared node
loses or lacks its key are those in which neither happens.
-/

namespace MegaSdk.Server

open Crypto
open Cache (NewShare NodeTable mergenewshare Share)
open RecordReader (Read)

/-- The records that the readers of share packets, shares and nodes and the state cache queue. -/
inductive Produced (account : Account) : NewShare → Prop
  | packet (locals : Locals) {s : NewShare} (queued : (account.scShares locals).1 = some s) :
    Produced account s
  | ok (locals : Locals) {s : NewShare} (queued : account.readokelement locals = some s) :
    Produced account s
  | outshare (locals : Locals) {s : NewShare} (queued : readoutshareelement locals = some s) :
    Produced account s
  | node (buf : Block) (h : Cache.Handle) (t : NodeType) (sts : Int64) (locals : Locals)
    {s : NewShare} (queued : account.inshare buf h t sts locals = some s) : Produced account s
  | cached (direction : Int) (trusted : direction = 0 ∨ direction = -1) (h : Cache.Handle)
    (key : Block) {ptr rest : Bytes} {s : NewShare}
    (queued : Share.unserialize direction h (some key) ptr = .ok (s, rest)) : Produced account s

/-- A deleted share: neither an access level nor a key. -/
def Revokes (s : NewShare) : Prop := s.access = accessUnknown ∧ s.key = none

instance (s : NewShare) : Decidable (Revokes s) := inferInstanceAs (Decidable (_ ∧ _))

def Shared (n : Cache.Node) : Prop := n.info.inshare.isSome ∨ n.info.outshares ≠ []

def Keyed (nodes : NodeTable) : Prop :=
  ∀ h n, nodes h = some n → Shared n → n.info.sharekey.isSome

/-- `Node::serialize` reads the share key of no node that has none. -/
def Serializable (nodes : NodeTable) : Prop :=
  ∀ h n, nodes h = some n → n.numshares ≠ 0 → n.info.sharekey.isSome

/-- The merges that keep shares and keys together: an outbound share comes to a node that has a
share key, or brings one that passes, and the last outbound share is not revoked on a node with an
inbound share. -/
def KeepsKey (auth : Cache.Handle → Block) (garbage : Block) (rank : Cache.Handle → Nat)
    (nodes : NodeTable) (s : NewShare) : Prop :=
  ∀ n, nodes s.h = some n → s.outgoing ≠ 0 →
    if Revokes s then n.info.inshare.isSome → ∃ entry ∈ n.info.outshares, entry.1 ≠ s.peer
    else s.peer ≠ Cache.undef → nodes.checkaccess rank s.h = true →
      n.info.sharekey.isSome ∨ s.key.isSome ∧ s.authentic auth garbage rank nodes = true

instance (auth : Cache.Handle → Block) (garbage : Block) (rank : Cache.Handle → Nat)
    (nodes : NodeTable) (s : NewShare) : Decidable (KeepsKey auth garbage rank nodes s) :=
  inferInstanceAs (Decidable (∀ n ∈ nodes s.h, s.outgoing ≠ 0 →
    if Revokes s then n.info.inshare.isSome → ∃ entry ∈ n.info.outshares, entry.1 ≠ s.peer
    else s.peer ≠ Cache.undef → nodes.checkaccess rank s.h = true →
      n.info.sharekey.isSome ∨ s.key.isSome ∧ s.authentic auth garbage rank nodes = true))

section Records

variable {account : Account} {s : NewShare}

/-- A share packet without a key is a revocation. -/
theorem scShares_keyed {locals : Locals} (queued : (account.scShares locals).1 = some s) :
    s.key.isSome ∨ Revokes s := by
  unfold Account.scShares at queued
  cases node : locals.nodehandle "n" with
  | none => simp [node] at queued
  | some h =>
    simp only [node] at queued
    generalize (if decide (locals.userhandle "o" = account.me) = true then
      (locals.text "ok").or (locals.text "k") else locals.text "k") = given at queued
    cases given with
    | none =>
      right
      split_ifs at queued
      all_goals
        obtain rfl := Option.some.inj queued
        exact ⟨rfl, rfl⟩
    | some k =>
      left
      cases decrypted : account.decryptkey k with
      | none => simp [decrypted] at queued
      | some sharekey =>
        simp only [decrypted] at queued
        split_ifs at queued
        all_goals
          obtain rfl := Option.some.inj queued
          rfl

/-- A record for an inbound share has a key or revokes the share. -/
theorem Produced.inbound (produced : Produced account s) (inbound : s.outgoing = 0) :
    s.key.isSome ∨ Revokes s := by
  cases produced with
  | packet locals queued => exact scShares_keyed queued
  | ok locals queued =>
    rw [Account.readokelement] at queued
    split at queued
    · obtain ⟨key, -, rfl⟩ := Option.map_eq_some_iff.mp queued
      cases inbound
    · cases queued
  | outshare locals queued =>
    rw [readoutshareelement] at queued
    split at queued
    · cases queued
    · split_ifs at queued
      obtain rfl := Option.some.inj queued
      cases inbound
  | node buf h t sts locals queued =>
    rw [Account.inshare] at queued
    split_ifs at queued
    obtain ⟨sk, -, rfl⟩ := Option.map_eq_some_iff.mp queued
    exact Or.inl rfl
  | cached direction trusted h key queued =>
    simp only [Share.unserialize, Read.bind_eq_ok, Prod.exists] at queued
    obtain ⟨-, -, peer, p1, -, ts, p2, -, access, p3, -, reserved, p4, -, read⟩ := queued
    obtain ⟨rfl, -⟩ := Prod.mk.inj (Read.ok.inj read)
    exact Or.inl rfl

end Records

section Step

variable {auth : Cache.Handle → Block} {garbage : Block} {rank : Cache.Handle → Nat}
  {nodes : NodeTable} {s : NewShare} {n : Cache.Node}

/-- A change of one node keeps the others as they are. -/
theorem keyed_update (keyed : Keyed nodes) (h : Cache.Handle) (m : Cache.Node) :
    Keyed (Function.update nodes h (some m)) ↔ (Shared m → m.info.sharekey.isSome) := by
  constructor
  · intro after
    exact after h m (Function.update_self ..)
  · intro here k n present
    by_cases same : k = h
    · subst same
      rw [Function.update_self] at present
      obtain rfl := Option.some.inj present
      exact here
    · rw [Function.update_of_ne same] at present
      exact keyed k n present

theorem keyed_removeTree (keyed : Keyed nodes) (h : Cache.Handle) :
    Keyed (NodeTable.removeTree rank nodes h) := by
  intro k m present shared
  obtain ⟨n, here, rfl⟩ := Option.map_eq_some_iff.mp present
  have key := keyed k n here
  split_ifs at shared ⊢ <;> exact key shared

theorem setKey_info : (s.setKey auth garbage rank nodes n).info.inshare = n.info.inshare ∧
    (s.setKey auth garbage rank nodes n).info.outshares = n.info.outshares := by
  rw [NewShare.setKey]
  split_ifs <;> exact ⟨rfl, rfl⟩

theorem setKey_isSome :
    (s.setKey auth garbage rank nodes n).info.sharekey.isSome ↔
      n.info.sharekey.isSome ∨ s.key.isSome ∧ s.authentic auth garbage rank nodes = true := by
  rw [sharekey_setKey]
  cases n.info.sharekey with
  | some key => simp
  | none =>
    by_cases passes : s.key.isSome ∧ s.authentic auth garbage rank nodes = true
    · simp [passes]
    · simp [passes]

theorem putShare_ne_nil (peer : UInt64) (access : AccessLevel) (ts : Int64)
    (outshares : List (UInt64 × Share)) : Cache.putShare peer access ts outshares ≠ [] := by
  cases outshares with
  | nil => exact List.cons_ne_nil _ _
  | cons entry rest =>
    rw [Cache.putShare]
    split_ifs <;> exact List.cons_ne_nil _ _

/-- A revocation takes the key of a node whose last outbound share it is. -/
theorem keyed_erase (key : Shared n → n.info.sharekey.isSome) :
    (Shared (s.erase n) → (s.erase n).info.sharekey.isSome) ↔
      (n.info.inshare.isSome → ∃ entry ∈ n.info.outshares, entry.1 ≠ s.peer) := by
  by_cases last : n.info.outshares.filter (fun entry => entry.1 ≠ s.peer) = []
  · have none : ¬∃ entry ∈ n.info.outshares, entry.1 ≠ s.peer := by
      rintro ⟨entry, mem, other⟩
      have dropped := List.filter_eq_nil_iff.mp last entry mem
      exact dropped (decide_eq_true other)
    simp only [Shared, NewShare.erase, last, if_true, none]
    simp
  · obtain ⟨entry, kept⟩ := List.exists_mem_of_ne_nil _ last
    obtain ⟨mem, other⟩ := List.mem_filter.mp kept
    have shared : Shared n := Or.inr (List.ne_nil_of_mem mem)
    have present := key shared
    simp only [Shared, NewShare.erase, last, if_false]
    exact ⟨fun _ _ => ⟨entry, mem, of_decide_eq_true other⟩, fun _ _ => present⟩

/-- A new or changed share needs the key that the node has after the check of the record's. -/
theorem keyed_apply (produced : s.outgoing = 0 → s.key.isSome)
    (key : Shared n → n.info.sharekey.isSome) :
    (Shared (s.apply rank nodes (s.setKey auth garbage rank nodes n)) →
        (s.apply rank nodes (s.setKey auth garbage rank nodes n)).info.sharekey.isSome) ↔
      (s.outgoing ≠ 0 → s.peer ≠ Cache.undef → nodes.checkaccess rank s.h = true →
        n.info.sharekey.isSome ∨ s.key.isSome ∧ s.authentic auth garbage rank nodes = true) := by
  obtain ⟨inshare, outshares⟩ := @setKey_info auth garbage rank nodes s n
  rw [sharekey_apply, setKey_isSome]
  have unchanged : Shared (s.setKey auth garbage rank nodes n) →
      n.info.sharekey.isSome ∨ s.key.isSome ∧ s.authentic auth garbage rank nodes = true := by
    rw [Shared, inshare, outshares]
    exact fun shared => Or.inl (key shared)
  by_cases unknown : s.peer = Cache.undef
  · simp only [NewShare.apply, unknown, if_true]
    exact ⟨fun _ _ other => absurd rfl other, fun _ => unchanged⟩
  by_cases inbound : s.outgoing = 0
  · have passes : s.key.isSome ∧ s.authentic auth garbage rank nodes = true :=
      ⟨produced inbound, by simp [NewShare.authentic, inbound]⟩
    exact ⟨fun _ outbound => absurd inbound outbound, fun _ _ => Or.inr passes⟩
  by_cases own : nodes.checkaccess rank s.h = true
  · simp only [NewShare.apply, if_neg unknown, if_pos inbound, if_pos own]
    have shared := putShare_ne_nil s.peer s.access s.ts
      (s.setKey auth garbage rank nodes n).info.outshares
    exact ⟨fun needs _ _ _ => needs (Or.inr shared), fun given _ => given inbound unknown own⟩
  · simp only [NewShare.apply, if_neg unknown, if_pos inbound, if_neg own]
    exact ⟨fun _ _ _ access => absurd access own, fun _ => unchanged⟩

/-- One merge leaves every shared node with a key exactly if it keeps shares and keys together. -/
theorem keyed_mergenewshare {account : Account} (produced : Produced account s)
    (keyed : Keyed nodes) :
    Keyed (mergenewshare auth garbage rank nodes s) ↔ KeepsKey auth garbage rank nodes s := by
  rw [KeepsKey, mergenewshare]
  cases here : nodes s.h with
  | none => simp [keyed]
  | some n =>
    have key := keyed s.h n here
    simp only [Option.some.injEq, forall_eq']
    by_cases revoked : Revokes s
    · have deleted : s.access = accessUnknown ∧ s.key = none := revoked
      rw [if_pos deleted, setKey_of_keyless revoked.2]
      by_cases outbound : s.outgoing ≠ 0
      · rw [if_pos outbound, keyed_update keyed, keyed_erase key]
        simp [outbound, revoked]
      · rw [if_neg outbound, ← here, Function.update_eq_self]
        exact ⟨fun _ other => absurd other outbound, fun _ => keyed_removeTree keyed s.h⟩
    · have inbound : s.outgoing = 0 → s.key.isSome := fun direction =>
        (produced.inbound direction).resolve_right revoked
      have kept : ¬(s.access = accessUnknown ∧ s.key = none) := revoked
      rw [if_neg kept, keyed_update keyed, keyed_apply inbound key]
      simp [revoked]

end Step

theorem Keyed.serializable {nodes : NodeTable} (keyed : Keyed nodes) : Serializable nodes := by
  intro h n here counted
  apply keyed h n here
  rw [Cache.Node.numshares] at counted
  by_cases inbound : n.info.inshare.isSome
  · exact Or.inl inbound
  · rw [if_neg inbound] at counted
    exact Or.inr fun none => counted (by rw [none]; rfl)

/-- The merge of one of the records that can be queued. -/
def mergeProduced (account : Account) (garbage : Block) (rank : Cache.Handle → Nat)
    (nodes : NodeTable) (record : {s : NewShare // Produced account s}) : NodeTable :=
  mergenewshare account.handleauth garbage rank nodes record.1

/-- Every shared node has its share key in every state of a run of merges, and can be serialized,
exactly if each merge keeps shares and keys together. -/
theorem keyed_runs_iff (account : Account) (garbage : Block) (rank : Cache.Handle → Nat)
    {nodes : NodeTable} (start : Keyed nodes)
    (records : List {s : NewShare // Produced account s}) :
    Runs.Always (mergeProduced account garbage rank)
        (fun nodes => Keyed nodes ∧ Serializable nodes) nodes records ↔
      Runs.Meets (mergeProduced account garbage rank)
        (fun nodes record => KeepsKey account.handleauth garbage rank nodes record.1)
        nodes records := by
  refine Runs.always_iff_meets (fun nodes record good => ?_) ⟨start, start.serializable⟩ records
  rw [← keyed_mergenewshare record.2 good.1]
  exact ⟨And.left, fun keyed => ⟨keyed, keyed.serializable⟩⟩

/-- An outbound share of the own folder, as the list of shares after a login has it. -/
def outshareElement : Locals :=
  [(Json.nameid (ascii "h"), .handle (some [1, 0, 0, 0, 0, 0])),
    (Json.nameid (ascii "u"), .handle (some [9, 0, 0, 0, 0, 0, 0, 0])),
    (Json.nameid (ascii "r"), .number 0)]

/-- The key of that share, with the token of the folder. -/
def okElement : Locals :=
  [(Json.nameid (ascii "h"), .handle (some [1, 0, 0, 0, 0, 0])),
    (Json.nameid (ascii "ha"), .binary (ownAccount.handleauth 1).toList),
    (Json.nameid (ascii "k"), .text (ascii "AAAAAAAAAAAAAAAAAAAAAA"))]

def recordedShare : {s : NewShare // Produced ownAccount s} :=
  ⟨newShare 1 1 9 rdOnly 0 none none, .outshare outshareElement (by decide +kernel)⟩

def recordedKey : {s : NewShare // Produced ownAccount s} :=
  ⟨newShare 1 1 Cache.undef accessUnknown 0 (some (load (ascii "0123456789abcdef")))
    (some (ownAccount.handleauth 1)), .ok okElement (by decide +kernel)⟩

theorem keyed_ownNodes : Keyed ownNodes := by
  intro h n here shared
  rw [ownNodes] at here
  split_ifs at here
  all_goals
    obtain rfl := Option.some.inj here
    exact absurd shared (by simp [Shared, bareNode])

/-- A share that is recorded before its key leaves the folder shared without one. -/
theorem share_without_key :
    Keyed ownNodes ∧
      ¬Runs.Always (mergeProduced ownAccount (load []) ownRank)
        (fun nodes => Keyed nodes ∧ Serializable nodes) ownNodes [recordedShare] := by
  refine ⟨keyed_ownNodes, fun always => ?_⟩
  have keeps := (keyed_mergenewshare recordedShare.2 keyed_ownNodes).mp always.next.1
  exact absurd keeps (by decide +kernel)

/-- The key in front of its share keeps both together. -/
theorem keyed_key_then_share :
    Runs.Meets (mergeProduced ownAccount (load []) ownRank)
        (fun nodes record => KeepsKey ownAccount.handleauth (load []) ownRank nodes record.1)
        ownNodes [recordedKey, recordedShare] ∧
      Runs.Always (mergeProduced ownAccount (load []) ownRank)
        (fun nodes => Keyed nodes ∧ Serializable nodes) ownNodes [recordedKey, recordedShare] := by
  have meets : Runs.Meets (mergeProduced ownAccount (load []) ownRank)
      (fun nodes record => KeepsKey ownAccount.handleauth (load []) ownRank nodes record.1)
      ownNodes [recordedKey, recordedShare] := by decide +kernel
  exact ⟨meets, (keyed_runs_iff ownAccount (load []) ownRank keyed_ownNodes _).mpr meets⟩

end MegaSdk.Server
