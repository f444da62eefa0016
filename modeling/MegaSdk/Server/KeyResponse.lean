import MegaSdk.Nodes.NodeKeys
import MegaSdk.Base64
import Mathlib.Data.List.Nodup
import Mathlib.Data.List.Range

/-!
# Responses to key requests

`addnode` and `cr_response` of megaclient.cpp: the keys of nodes in own shares,
encrypted with the share keys, under the indexes of two lists that are built on
the way. Without a selector, a pair of counters is meant to run through all shares
and nodes; it is advanced before its first use.
-/

namespace MegaSdk.Server

open Crypto Nodes MegaSdk.Tree

/-- `node_vector`, with null pointers. -/
abbrev NodeVector := List (Option Ref)

inductive VectorFault where
  | outOfRange
  deriving DecidableEq, Repr

/-- `addnode`: the vector afterwards and the position. -/
def addnode (v : List Ref) (n : Ref) : List Ref × Nat :=
  match (List.range v.length).reverse.find? (fun i => v[i]? = some n) with
  | some i => (v, i)
  | none => (v ++ [n], v.length)

/-- A key in `crkeys`, with its indexes. -/
structure CrEntry where
  nsi : Nat
  nni : Nat
  key : Bytes
  deriving DecidableEq, Repr

/-- What `cr_response` works on: the nodes, the lists of the response and its keys, and the
last key read from the selector, whose length is `none` for -1. -/
structure CrState where
  tree : KeyTree
  rshares : List Ref
  rnodes : List Ref
  crkeys : List CrEntry
  setkey : Option Nat
  keybuf : Vector UInt8 32

inductive Treatment where
  | ignored
  | setkey (n : Ref) (key : Bytes)
  | respond (sn n : Ref) (key : Bytes)
  deriving DecidableEq, Repr

/-- Bytes written to the start of the key buffer. -/
def overlay (bytes : Bytes) (buf : Vector UInt8 32) : Vector UInt8 32 :=
  Vector.ofFn fun i => bytes.getD i buf[i]

/-- The key of a share; `cr_response` looks only at shares that have one. -/
def sharekey (t : KeyTree) (sn : Ref) : Block :=
  (t.keys sn).sharekey.getD (Vector.replicate 16 0)

theorem length_take_keyLength (type : NodeType) (buf : Vector UInt8 32) :
    (buf.toList.take (keyLength type)).length = keyLength type := by
  rw [List.length_take, Vector.length_toList, keyLength]
  split <;> rfl

/-- `Node::setkey`, as far as the key is concerned. -/
def setNodekey (t : KeyTree) (n : Ref) (buf : Vector UInt8 32) : KeyTree :=
  { t with
    keys := Function.update t.keys n
      { t.keys n with
        nodekey := buf.toList.take (keyLength (t.keys n).type)
        sized := Or.inr (length_take_keyLength _ buf) } }

/-- The security check: shares that are inbound or have no share key become null. -/
def ownShares (t : KeyTree) (shares : NodeVector) : NodeVector :=
  shares.map fun s => s.filter fun n => !(t.keys n).inshare && (t.keys n).sharekey.isSome

/-- The node key of `n`, encrypted with the key of the share `sn`. -/
def sealedKey (aes : Aes) (t : KeyTree) (sn n : Ref) : Bytes :=
  ecbData (aes (sharekey t sn)) (t.keys n).nodekey

def respond (aes : Aes) (s : CrState) (sn n : Ref) : CrState :=
  let rshares := addnode s.rshares sn
  let rnodes := addnode s.rnodes n
  let key := sealedKey aes s.tree sn n
  { s with
    rshares := rshares.1
    rnodes := rnodes.1
    crkeys := s.crkeys ++ [⟨rshares.2, rnodes.2, key⟩]
    keybuf := overlay key s.keybuf }

/-- The treatment of a share and a node; `aesd` inverts `aes`. -/
def treat (aes aesd : Aes) (s : CrState) (sn n : Ref) : CrState × Treatment :=
  if s.tree.isbelow n sn then
    match s.setkey with
    | some l =>
      if l = (s.tree.keys n).nodekey.length then
        let keybuf :=
          overlay (ecbData (aesd (sharekey s.tree sn)) (s.keybuf.toList.take l)) s.keybuf
        let tree := setNodekey s.tree n keybuf
        ({ s with tree := tree, setkey := none, keybuf := keybuf },
          .setkey n (tree.keys n).nodekey)
      else (s, .ignored)
    | none => (respond aes s sn n, .respond sn n (sealedKey aes s.tree sn n))
  else (s, .ignored)

/-- A pair of indexes; the node is looked at only if the share is not null. -/
def consider (aes aesd : Aes) (shares nodes : NodeVector) (s : CrState) (si ni : Nat) :
    Except VectorFault (CrState × Treatment) :=
  match shares[si]? with
  | none => .error .outOfRange
  | some none => .ok (s, .ignored)
  | some (some sn) =>
    match nodes[ni]? with
    | none => .error .outOfRange
    | some none => .ok (s, .ignored)
    | some (some n) => .ok (treat aes aesd s sn n)

/-- The counters are advanced; `none` ends the loop. -/
def advance (shares nodes si ni : Nat) : Option (Nat × Nat) :=
  if ni + 1 ≥ nodes then
    if si + 1 ≥ shares then none else some (si + 1, 0)
  else some (si, ni + 1)

/-- The loop without a selector, with the pairs that it considers. -/
def crLoop (aes aesd : Aes) (shares nodes : NodeVector) :
    Nat → CrState → Nat → Nat → Except VectorFault (CrState × List (Nat × Nat))
  | 0, s, _, _ => .ok (s, [])
  | fuel + 1, s, si, ni =>
    match advance shares.length nodes.length si ni with
    | none => .ok (s, [])
    | some (si, ni) =>
      match consider aes aesd shares nodes s si ni with
      | .error fault => .error fault
      | .ok (s, _) => (crLoop aes aesd shares nodes fuel s si ni).map fun later =>
          (later.1, (si, ni) :: later.2)

/-- The local variables of `cr_response`; the buffer is not initialized. -/
def crStart (t : KeyTree) (keybuf : Vector UInt8 32) : CrState := ⟨t, [], [], [], none, keybuf⟩

/-- `cr_response` without a selector, up to the command. The counters pass every pair at most
once, and with no nodes every share. -/
def crResponse (aes aesd : Aes) (t : KeyTree) (keybuf : Vector UInt8 32)
    (shares nodes : NodeVector) : Except VectorFault (CrState × List (Nat × Nat)) :=
  crLoop aes aesd (ownShares t shares) nodes (shares.length * (nodes.length + 1) + 1)
    (crStart t keybuf) 0 0

/-- `CommandKeyCR`: the handles of both lists and the text of the keys. -/
structure CommandKeyCR where
  rshares : List UInt64
  rnodes : List UInt64
  keys : Bytes
  deriving DecidableEq, Repr

/-- The text of `crkeys`, from its third character on. -/
def crkeysText (entries : List CrEntry) : Bytes :=
  (entries.flatMap (fun e => ascii "\"," ++ ascii (toString e.nsi) ++ ascii "," ++
    ascii (toString e.nni) ++ ascii ",\"" ++ Base64.btoa e.key) ++ ascii "\"").drop 2

/-- The command at the end of `cr_response`, if there are keys. -/
def crCommand (s : CrState) : Option CommandKeyCR :=
  if s.crkeys = [] then none
  else
    some
      { rshares := s.rshares.map fun n => (s.tree.keys n).nodehandle
        rnodes := s.rnodes.map fun n => (s.tree.keys n).nodehandle
        keys := crkeysText s.crkeys }

theorem addnode_spec (v : List Ref) (n : Ref) :
    (addnode v n).1[(addnode v n).2]? = some n ∧ (∃ more, (addnode v n).1 = v ++ more) ∧
      (v.Nodup → (addnode v n).1.Nodup) := by
  unfold addnode
  split
  · rename_i i found
    have here := List.find?_some found
    exact ⟨by simpa using here, ⟨[], (List.append_nil v).symm⟩, id⟩
  · rename_i missing
    have absent : n ∉ v := by
      intro mem
      obtain ⟨i, bound, here⟩ := List.mem_iff_getElem.mp mem
      refine List.find?_eq_none.mp missing i ?_ ?_
      · simpa using bound
      · simp [List.getElem?_eq_getElem bound, here]
    refine ⟨by simp, ⟨[n], rfl⟩, fun distinct => ?_⟩
    refine List.nodup_append.mpr ⟨distinct, List.nodup_singleton n, fun a mem b last same => ?_⟩
    rw [List.mem_singleton] at last
    exact absent (last ▸ same ▸ mem)

/-- The share and the node under the indexes of a key. -/
def CrState.resolve (s : CrState) (e : CrEntry) : Option Ref × Option Ref × Bytes :=
  (s.rshares[e.nsi]?, s.rnodes[e.nni]?, e.key)

/-- What a pair of indexes asks for: the key of a node at or below a share that is not inbound
and has a key. -/
def answer (aes : Aes) (t : KeyTree) (shares nodes : NodeVector) (pair : Nat × Nat) :
    Option (Ref × Ref × Bytes) :=
  match shares[pair.1]?, nodes[pair.2]? with
  | some (some sn), some (some n) =>
    if (t.keys sn).inshare = false ∧ (t.keys sn).sharekey.isSome ∧ t.isbelow n sn then
      some (sn, n, sealedKey aes t sn n)
    else none
  | _, _ => none

/-- The keys in the response are those that the pairs done so far ask for. -/
structure Answered (aes : Aes) (t : KeyTree) (shares nodes : NodeVector)
    (done : List (Nat × Nat)) (s : CrState) : Prop where
  tree : s.tree = t
  setkey : s.setkey = none
  entries : s.crkeys.map s.resolve =
    (done.filterMap (answer aes t shares nodes)).map fun a => (some a.1, some a.2.1, a.2.2)
  rshares : s.rshares.Nodup
  rnodes : s.rnodes.Nodup

section Answers
variable {aes aesd : Aes} {t : KeyTree} {shares nodes : NodeVector} {done : List (Nat × Nat)}
  {s : CrState}

theorem answered_start (keybuf : Vector UInt8 32) :
    Answered aes t shares nodes [] (crStart t keybuf) :=
  ⟨rfl, rfl, rfl, List.nodup_nil, List.nodup_nil⟩

/-- A pair that asks for nothing. -/
theorem Answered.skip (answered : Answered aes t shares nodes done s) {pair : Nat × Nat}
    (nothing : answer aes t shares nodes pair = none) :
    Answered aes t shares nodes (done ++ [pair]) s := by
  refine ⟨answered.tree, answered.setkey, ?_, answered.rshares, answered.rnodes⟩
  rw [answered.entries, List.filterMap_append, List.filterMap_cons_none nothing, List.filterMap_nil,
    List.append_nil]

/-- A pair that is answered; the indexes of earlier keys keep their meaning. -/
theorem Answered.respond (answered : Answered aes t shares nodes done s) {pair : Nat × Nat}
    {sn n : Ref} (asked : answer aes t shares nodes pair = some (sn, n, sealedKey aes t sn n)) :
    Answered aes t shares nodes (done ++ [pair]) (respond aes s sn n) := by
  obtain ⟨share, ⟨moreShares, rshares⟩, distinctShares⟩ := addnode_spec s.rshares sn
  obtain ⟨node, ⟨moreNodes, rnodes⟩, distinctNodes⟩ := addnode_spec s.rnodes n
  refine ⟨answered.tree, answered.setkey, ?_, distinctShares answered.rshares,
    distinctNodes answered.rnodes⟩
  have kept : ∀ e ∈ s.crkeys, (Server.respond aes s sn n).resolve e = s.resolve e := by
    intro e mem
    have resolved := List.mem_map_of_mem (f := s.resolve) mem
    rw [answered.entries] at resolved
    obtain ⟨a, -, same⟩ := List.mem_map.mp resolved
    have first : s.rshares[e.nsi]? = some a.1 := congrArg Prod.fst same.symm
    have second : s.rnodes[e.nni]? = some a.2.1 := congrArg (fun r => r.2.1) same.symm
    have firstBound := (List.getElem?_eq_some_iff.mp first).1
    have secondBound := (List.getElem?_eq_some_iff.mp second).1
    simp only [CrState.resolve, Server.respond, rshares, rnodes,
      List.getElem?_append_left firstBound, List.getElem?_append_left secondBound]
  have last : (Server.respond aes s sn n).resolve
      ⟨(addnode s.rshares sn).2, (addnode s.rnodes n).2, sealedKey aes s.tree sn n⟩ =
      (some sn, some n, sealedKey aes t sn n) := by
    simp only [CrState.resolve, Server.respond, share, node, answered.tree]
  have entries : (Server.respond aes s sn n).crkeys = s.crkeys ++
      [⟨(addnode s.rshares sn).2, (addnode s.rnodes n).2, sealedKey aes s.tree sn n⟩] := rfl
  rw [entries, List.map_append, List.map_congr_left kept, answered.entries, List.map_singleton,
    last, List.filterMap_append, List.filterMap_cons_some asked, List.filterMap_nil,
    List.map_append]
  rfl

/-- A share in the vector after the security check. -/
theorem ownShares_getElem? (si : Nat) :
    (ownShares t shares)[si]? = (shares[si]?).map fun s =>
      s.filter fun n => !(t.keys n).inshare && (t.keys n).sharekey.isSome := by
  rw [ownShares, List.getElem?_map]

/-- Whatever is considered without a fault is answered if it asks for a key. -/
theorem Answered.consider (answered : Answered aes t shares nodes done s) {si ni : Nat}
    {s' : CrState} {treatment : Treatment}
    (considered : consider aes aesd (ownShares t shares) nodes s si ni = .ok (s', treatment)) :
    Answered aes t shares nodes (done ++ [(si, ni)]) s' := by
  unfold Server.consider at considered
  rw [ownShares_getElem?] at considered
  cases share : shares[si]? with
  | none => simp [share] at considered
  | some entry =>
    cases entry with
    | none =>
      simp only [share, Option.map_some, Option.filter_none] at considered
      cases considered
      exact answered.skip (by simp [answer, share])
    | some sn =>
      have filtered : Option.filter (fun n => !(t.keys n).inshare && (t.keys n).sharekey.isSome)
          (some sn) = if (t.keys sn).inshare = false ∧ (t.keys sn).sharekey.isSome then some sn
            else none := by
        simp [Option.filter]
      rw [share, Option.map_some, filtered] at considered
      by_cases own : (t.keys sn).inshare = false ∧ (t.keys sn).sharekey.isSome = true
      · rw [if_pos own] at considered
        dsimp only at considered
        cases node : nodes[ni]? with
        | none => simp [node] at considered
        | some entry =>
          cases entry with
          | none =>
            simp only [node] at considered
            cases considered
            exact answered.skip (by simp [answer, share, node])
          | some n =>
            simp only [node, treat, answered.tree, answered.setkey] at considered
            split at considered
            · rename_i below
              cases considered
              exact answered.respond (by simp [answer, share, node, own, below])
            · rename_i apart
              cases considered
              exact answered.skip (by simp [answer, share, node, apart])
      · rw [if_neg own] at considered
        cases considered
        refine answered.skip ?_
        simp only [answer, share]
        cases nodes[ni]? with
        | none => rfl
        | some entry =>
          cases entry with
          | none => rfl
          | some n => exact if_neg fun valid => own ⟨valid.1, valid.2.1⟩

/-- A loop that ends without a fault has answered every pair that it considered. -/
theorem Answered.crLoop {fuel si ni : Nat} (answered : Answered aes t shares nodes done s)
    {s' : CrState} {considered : List (Nat × Nat)}
    (ends : crLoop aes aesd (ownShares t shares) nodes fuel s si ni = .ok (s', considered)) :
    Answered aes t shares nodes (done ++ considered) s' := by
  induction fuel generalizing done s si ni considered with
  | zero =>
    cases ends
    rwa [List.append_nil]
  | succ fuel ih =>
    rw [Server.crLoop] at ends
    split at ends
    · cases ends
      rwa [List.append_nil]
    · rename_i si ni _
      split at ends
      · cases ends
      · rename_i s₁ treatment round
        cases more : Server.crLoop aes aesd (ownShares t shares) nodes fuel s₁ si ni with
        | error fault => simp [more, Except.map] at ends
        | ok later =>
          rw [more] at ends
          cases ends
          have rest := ih (answered.consider round) more
          rwa [List.append_assoc] at rest

/-- The first pair is never considered. -/
theorem first_not_mem {shares : NodeVector} {fuel si ni : Nat} {s' : CrState}
    {considered : List (Nat × Nat)}
    (ends : crLoop aes aesd shares nodes fuel s si ni = .ok (s', considered)) :
    (0, 0) ∉ considered := by
  induction fuel generalizing s si ni considered with
  | zero =>
    cases ends
    exact List.not_mem_nil
  | succ fuel ih =>
    rw [crLoop] at ends
    split at ends
    · cases ends
      exact List.not_mem_nil
    · rename_i si' ni' advanced
      split at ends
      · cases ends
      · rename_i s₁ treatment round
        cases more : crLoop aes aesd shares nodes fuel s₁ si' ni' with
        | error fault => simp [more, Except.map] at ends
        | ok later =>
          rw [more] at ends
          cases ends
          rw [List.mem_cons, not_or]
          refine ⟨?_, ih more⟩
          unfold advance at advanced
          split at advanced
          · split at advanced
            · cases advanced
            · cases advanced
              simp
          · cases advanced
            simp

/-- Without nodes the loop passes the shares from the second one on, and the first one that is
not null takes it out of the vector of nodes. -/
theorem crLoop_no_nodes (shares : NodeVector) {fuel si : Nat} (enough : shares.length ≤ si + fuel)
    (s : CrState) :
    (∃ r, crLoop aes aesd shares [] fuel s si 0 = .ok r) ↔
      ∀ x ∈ shares.drop (si + 1), x = none := by
  induction fuel generalizing si with
  | zero =>
    have past : shares.drop (si + 1) = [] := List.drop_eq_nil_of_le (by omega)
    rw [past]
    exact ⟨fun _ => nofun, fun _ => ⟨_, rfl⟩⟩
  | succ fuel ih =>
    rw [crLoop, advance, if_pos (by simp)]
    by_cases last : si + 1 ≥ shares.length
    · rw [if_pos last, List.drop_eq_nil_of_le last]
      exact ⟨fun _ => nofun, fun _ => ⟨_, rfl⟩⟩
    · have here : si + 1 < shares.length := Nat.lt_of_not_le last
      rw [if_neg last, List.drop_eq_getElem_cons here, List.forall_mem_cons]
      dsimp only
      unfold consider
      rw [List.getElem?_eq_getElem here]
      cases shares[si + 1] with
      | none =>
        have later := @ih (si + 1) (by omega)
        dsimp only
        rw [and_iff_right rfl, ← later]
        cases crLoop aes aesd shares [] fuel s (si + 1) 0 <;> simp [Except.map]
      | some sn => simp

/-- The counters run through the pairs in the order of `si * nodes + ni`. -/
theorem advance_flat {m n p : Nat} (some_node : 0 < n) (inside : p < m * n) :
    advance m n (p / n) (p % n) =
      if p + 1 < m * n then some ((p + 1) / n, (p + 1) % n) else none := by
  have split := Nat.div_add_mod p n
  have below := Nat.mod_lt p some_node
  unfold advance
  by_cases wraps : p % n + 1 ≥ n
  · have next : p + 1 = n * (p / n + 1) := by
      rw [Nat.mul_succ]
      omega
    rw [if_pos wraps, next, Nat.mul_div_cancel_left _ some_node, Nat.mul_mod_right,
      Nat.mul_comm m n]
    by_cases last : p / n + 1 ≥ m
    · have beyond : ¬ n * (p / n + 1) < n * m := Nat.not_lt.mpr (Nat.mul_le_mul_left n last)
      rw [if_pos last, if_neg beyond]
    · have under : n * (p / n + 1) < n * m :=
        Nat.mul_lt_mul_of_pos_left (Nat.lt_of_not_le last) some_node
      rw [if_neg last, if_pos under]
  · have quotient : (p + 1) / n = p / n :=
      Nat.div_eq_of_lt_le (by rw [Nat.mul_comm]; omega) (by rw [Nat.succ_mul, Nat.mul_comm]; omega)
    have remainder : (p + 1) % n = p % n + 1 := by
      have split' := Nat.div_add_mod (p + 1) n
      rw [quotient] at split'
      omega
    have row : p / n < m := Nat.div_lt_of_lt_mul (by rwa [Nat.mul_comm])
    have under : p + 1 < m * n := by
      have rows := Nat.mul_le_mul_left n (Nat.succ_le_of_lt row)
      rw [Nat.mul_succ, Nat.mul_comm n m] at rows
      omega
    rw [if_neg wraps, if_pos under, quotient, remainder]

/-- Indexes in range can be considered. -/
theorem consider_ok {shares : NodeVector} {si ni : Nat} (share : si < shares.length)
    (node : ni < nodes.length) (s : CrState) :
    ∃ r, consider aes aesd shares nodes s si ni = .ok r := by
  unfold consider
  rw [List.getElem?_eq_getElem share, List.getElem?_eq_getElem node]
  cases shares[si] with
  | none => exact ⟨_, rfl⟩
  | some sn =>
    cases nodes[ni] with
    | none => exact ⟨_, rfl⟩
    | some n => exact ⟨_, rfl⟩

/-- With shares and nodes, the loop considers every pair behind the one it starts from. -/
theorem crLoop_pairs {shares : NodeVector} (some_node : 0 < nodes.length) {fuel p : Nat}
    (inside : p < shares.length * nodes.length)
    (enough : shares.length * nodes.length ≤ p + fuel) (s : CrState) :
    ∃ s', crLoop aes aesd shares nodes fuel s (p / nodes.length) (p % nodes.length) =
      .ok (s', (List.range' (p + 1) (shares.length * nodes.length - (p + 1))).map fun q =>
        (q / nodes.length, q % nodes.length)) := by
  induction fuel generalizing p s with
  | zero => exact absurd inside (by omega)
  | succ fuel ih =>
    rw [crLoop, advance_flat some_node inside]
    by_cases more : p + 1 < shares.length * nodes.length
    · rw [if_pos more]
      dsimp only
      have share : (p + 1) / nodes.length < shares.length :=
        Nat.div_lt_of_lt_mul (by rwa [Nat.mul_comm])
      obtain ⟨⟨s₁, treatment⟩, considered⟩ :=
        @consider_ok aes aesd nodes shares _ _ share (Nat.mod_lt _ some_node) s
      obtain ⟨s', later⟩ := ih more (by omega) s₁
      rw [considered]
      dsimp only
      rw [later]
      refine ⟨s', ?_⟩
      have count : shares.length * nodes.length - (p + 1) =
          shares.length * nodes.length - (p + 1 + 1) + 1 := by omega
      rw [count, List.range'_succ]
      rfl
    · have none : shares.length * nodes.length - (p + 1) = 0 := by omega
      rw [if_neg more, none]
      exact ⟨s, rfl⟩

/-- With shares and nodes there is no fault, and all pairs but the first one are considered, each
of them once and in order; the keys are those that these pairs ask for. -/
theorem crResponse_pairs (aes aesd : Aes) (t : KeyTree) (keybuf : Vector UInt8 32)
    {shares nodes : NodeVector} (some_share : shares ≠ []) (some_node : nodes ≠ []) :
    ∃ s, crResponse aes aesd t keybuf shares nodes =
        .ok (s, (List.range' 1 (shares.length * nodes.length - 1)).map fun q =>
          (q / nodes.length, q % nodes.length)) ∧
      Answered aes t shares nodes ((List.range' 1 (shares.length * nodes.length - 1)).map fun q =>
        (q / nodes.length, q % nodes.length)) s := by
  have length : (ownShares t shares).length = shares.length := List.length_map ..
  have node := List.length_pos_iff.mpr some_node
  have share := List.length_pos_iff.mpr some_share
  have enough : (ownShares t shares).length * nodes.length ≤
      0 + (shares.length * (nodes.length + 1) + 1) := by
    rw [length, Nat.mul_succ]
    omega
  obtain ⟨s, ends⟩ := @crLoop_pairs aes aesd nodes (ownShares t shares) node _ 0
    (by rw [length]; exact Nat.mul_pos share node) enough (crStart t keybuf)
  rw [length, Nat.zero_div, Nat.zero_mod] at ends
  exact ⟨s, ends, (answered_start keybuf).crLoop ends⟩

/-- In the command, the indexes of every key stand for the handles of a share and a node that
were asked for. -/
theorem Answered.command (answered : Answered aes t shares nodes done s) {c : CommandKeyCR}
    (command : crCommand s = some c) {e : CrEntry} (mem : e ∈ s.crkeys) :
    ∃ pair ∈ done, ∃ sn n, answer aes t shares nodes pair = some (sn, n, e.key) ∧
      c.rshares[e.nsi]? = some (t.keys sn).nodehandle ∧
      c.rnodes[e.nni]? = some (t.keys n).nodehandle := by
  unfold crCommand at command
  split at command
  · cases command
  · cases command
    have resolved := List.mem_map_of_mem (f := s.resolve) mem
    rw [answered.entries] at resolved
    obtain ⟨⟨sn, n, key⟩, asked, same⟩ := List.mem_map.mp resolved
    obtain ⟨pair, considered, asks⟩ := List.mem_filterMap.mp asked
    have share : s.rshares[e.nsi]? = some sn := congrArg Prod.fst same.symm
    have node : s.rnodes[e.nni]? = some n := congrArg (fun r => r.2.1) same.symm
    have keys : e.key = key := congrArg (fun r => r.2.2) same.symm
    refine ⟨pair, considered, sn, n, keys ▸ asks, ?_, ?_⟩
    · rw [List.getElem?_map, share, Option.map_some, answered.tree]
    · rw [List.getElem?_map, node, Option.map_some, answered.tree]

end Answers

/-- The response answers every pair of shares and nodes: no index is out of range, every pair is
considered once, and the keys are those that the pairs ask for. -/
def AnswersAll (aes : Aes) (t : KeyTree) (shares nodes : NodeVector) :
    Except VectorFault (CrState × List (Nat × Nat)) → Prop
  | .error _ => False
  | .ok (s, considered) =>
    (∀ si < shares.length, ∀ ni < nodes.length, considered.count (si, ni) = 1) ∧
      s.crkeys.map s.resolve =
        (considered.filterMap (answer aes t shares nodes)).map fun a =>
          (some a.1, some a.2.1, a.2.2)

section AllPairs
variable {aes aesd : Aes} {t : KeyTree} {keybuf : Vector UInt8 32} {shares nodes : NodeVector}

/-- Where there are no pairs, a response that is returned answers all of them. -/
theorem answersAll_of_none (none : shares = [] ∨ nodes = []) {r : CrState × List (Nat × Nat)}
    (ends : crResponse aes aesd t keybuf shares nodes = .ok r) :
    AnswersAll aes t shares nodes (.ok r) := by
  obtain ⟨s, considered⟩ := r
  have answered := (answered_start keybuf).crLoop ends
  refine ⟨fun si hs ni hn => ?_, answered.entries⟩
  rcases none with rfl | rfl
  · exact absurd hs (Nat.not_lt_zero _)
  · exact absurd hn (Nat.not_lt_zero _)

/-- The pair of the first share and the first node is never answered. -/
theorem not_answersAll_of_some (someShare : shares ≠ []) (someNode : nodes ≠ []) :
    ¬AnswersAll aes t shares nodes (crResponse aes aesd t keybuf shares nodes) := by
  intro answers
  cases result : crResponse aes aesd t keybuf shares nodes with
  | error fault =>
    rw [result] at answers
    exact answers
  | ok r =>
    rw [result] at answers
    have once := answers.1 0 (List.length_pos_iff.mpr someShare) 0
      (List.length_pos_iff.mpr someNode)
    rw [List.count_eq_zero_of_not_mem (first_not_mem result)] at once
    cases once

end AllPairs

/-- A response answers every pair only where there is none: there are no shares and at most one
node, or no nodes and no valid share behind the first one. -/
theorem crResponse_answersAll_iff (aes aesd : Aes) (t : KeyTree) (keybuf : Vector UInt8 32)
    (shares nodes : NodeVector) :
    AnswersAll aes t shares nodes (crResponse aes aesd t keybuf shares nodes) ↔
      (shares = [] ∧ nodes.length ≤ 1) ∨
        (nodes = [] ∧ ∀ s ∈ (ownShares t shares).drop 1, s = none) := by
  have length : (ownShares t shares).length = shares.length := List.length_map ..
  rcases eq_or_ne shares [] with rfl | someShare
  · by_cases few : nodes.length ≤ 1
    · have ends : crResponse aes aesd t keybuf [] nodes = .ok (crStart t keybuf, []) := by
        simp [crResponse, crLoop, ownShares, advance, few]
      rw [ends]
      exact iff_of_true (answersAll_of_none (Or.inl rfl) ends) (Or.inl ⟨rfl, few⟩)
    · have fault : crResponse aes aesd t keybuf [] nodes = .error .outOfRange := by
        simp [crResponse, crLoop, ownShares, advance, consider, few]
      rw [fault]
      refine iff_of_false id ?_
      rintro (⟨-, few'⟩ | ⟨rfl, -⟩)
      · exact few few'
      · exact few (Nat.zero_le 1)
  · rcases eq_or_ne nodes [] with rfl | someNode
    · have ends := @crLoop_no_nodes aes aesd (ownShares t shares)
        (shares.length * (([] : NodeVector).length + 1) + 1) 0 (by simp [length])
        (crStart t keybuf)
      have goal : (∃ r, crResponse aes aesd t keybuf shares [] = .ok r) ↔
          AnswersAll aes t shares [] (crResponse aes aesd t keybuf shares []) := by
        constructor
        · rintro ⟨r, same⟩
          rw [same]
          exact answersAll_of_none (Or.inr rfl) same
        · intro answers
          cases result : crResponse aes aesd t keybuf shares [] with
          | error fault =>
            rw [result] at answers
            exact answers.elim
          | ok r => exact ⟨r, rfl⟩
      rw [← goal]
      refine ends.trans ⟨fun none => Or.inr ⟨rfl, none⟩, ?_⟩
      rintro (⟨noShare, -⟩ | ⟨-, none⟩)
      · exact absurd noShare someShare
      · exact none
    · exact iff_of_false (not_answersAll_of_some someShare someNode)
        (by simp [someShare, someNode])

/-- A folder that the account shares, alone in its tree. -/
def sharedFolder : KeyTree where
  keys _ := ⟨1, 1, false, some (load (ascii "share")), List.replicate 16 7, Or.inr rfl⟩
  parent _ := none
  depth _ := 0
  drops _ _ := nofun

/-- A request for the key of one node of one share gets no answer. -/
theorem single_unanswered :
    ¬ ∀ (aes aesd : Aes) (t : KeyTree) (keybuf : Vector UInt8 32) (shares nodes : NodeVector),
      AnswersAll aes t shares nodes (crResponse aes aesd t keybuf shares nodes) := by
  intro always
  have answers := always (fun _ => id) (fun _ => id) sharedFolder (Vector.replicate 32 0) [some 0]
    [some 0]
  have once : ([] : List (Nat × Nat)).count (0, 0) = 1 := answers.1 0 (by decide) 0 (by decide)
  cases once

end MegaSdk.Server
