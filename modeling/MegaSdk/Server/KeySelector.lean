import MegaSdk.Server.KeyResponse
import MegaSdk.Server.Records
import MegaSdk.Json.Containers

/-!
# Key responses with a selector

`cr_response` over the index tuples of a selector. A tuple may carry the key of its
node, which is kept in a buffer outside of the loop and forgotten only once it is
accepted. Every tuple should be treated by itself: its own key replaces the key of its
own node, and without a key it is answered.
-/

namespace MegaSdk.Server

open Crypto Json Nodes MegaSdk.Tree

/-- The indexes of a share and a node, and the key that follows them. -/
abbrev SelectorTuple := Nat × Nat × Option Bytes

def readKey (s : CrState) : Option Bytes → CrState
  | none => s
  | some key => { s with setkey := some key.length, keybuf := overlay key s.keybuf }

/-- The loop over the tuples, with the treatment of each. -/
def crTuples (aes aesd : Aes) (shares nodes : NodeVector) :
    CrState → List SelectorTuple → Except VectorFault (CrState × List Treatment)
  | s, [] => .ok (s, [])
  | s, (si, ni, key) :: rest =>
    match consider aes aesd shares nodes (readKey s key) si ni with
    | .error fault => .error fault
    | .ok (s, treatment) => (crTuples aes aesd shares nodes s rest).map fun later =>
        (later.1, treatment :: later.2)

/-- `cr_response` with a selector: the state at the end of the loop, how each tuple was treated,
and the command, which an index out of range suppresses. -/
def crSelector (aes aesd : Aes) (t : KeyTree) (keybuf : Vector UInt8 32)
    (shares nodes : NodeVector) (selector : Text) :
    Except Fault (Except VectorFault (CrState × List Treatment × Option CommandKeyCR)) :=
  (loop (selectorRound shares.length nodes.length) [] selector).map fun read =>
    (crTuples aes aesd (ownShares t shares) nodes (crStart t keybuf) read.2.1).map fun result =>
      (result.1, result.2, if read.1 = .ended then crCommand result.1 else none)

/-- The share and the node of a tuple, if both are valid and the node is at or below the
share. -/
def reached (t : KeyTree) (shares nodes : NodeVector) (si ni : Nat) : Option (Ref × Ref) :=
  match shares[si]?, nodes[ni]? with
  | some (some sn), some (some n) => if t.isbelow n sn then some (sn, n) else none
  | _, _ => none

/-- A key has the length of the one that it replaces. -/
def accepts (t : KeyTree) (n : Ref) (key : Bytes) : Bool :=
  key.length = (t.keys n).nodekey.length

/-- How a tuple is treated by itself: its key, decrypted with its share, replaces the key of its
node, and without a key it is answered. -/
def ownTreatment (aes aesd : Aes) (t : KeyTree) (shares nodes : NodeVector) :
    SelectorTuple → Treatment
  | (si, ni, key) =>
    match reached t shares nodes si ni, key with
    | none, _ => .ignored
    | some (sn, n), none => .respond sn n (sealedKey aes t sn n)
    | some (sn, n), some key =>
      if key ≠ [] ∧ accepts t n key then .setkey n (ecbData (aesd (sharekey t sn)) key)
      else .ignored

def applyTreatment (t : KeyTree) : Treatment → KeyTree
  | .setkey n key => setNodekey t n (overlay key (Vector.replicate 32 0))
  | .ignored | .respond _ _ _ => t

def ownTreatments (aes aesd : Aes) (shares nodes : NodeVector) :
    KeyTree → List SelectorTuple → List Treatment
  | _, [] => []
  | t, tuple :: rest =>
    let treatment := ownTreatment aes aesd t shares nodes tuple
    treatment :: ownTreatments aes aesd shares nodes (applyTreatment t treatment) rest

/-- A key that was not accepted is pending until a key is. No tuple without a key comes to its
node while a key is pending, and no empty key comes to a node without a key. -/
def Unmixed (t : KeyTree) (shares nodes : NodeVector) : Bool → List SelectorTuple → Prop
  | _, [] => True
  | pending, (si, ni, none) :: rest =>
    ((reached t shares nodes si ni).isSome → pending = false) ∧ Unmixed t shares nodes pending rest
  | _, (si, ni, some key) :: rest =>
    (∀ r ∈ reached t shares nodes si ni, ¬(key = [] ∧ (t.keys r.2).nodekey = [])) ∧
      Unmixed t shares nodes
        (!(reached t shares nodes si ni).any fun r => accepts t r.2 key) rest

theorem getElem_overlay (bytes : Bytes) (buf : Vector UInt8 32) (i : Nat) (inside : i < 32) :
    (overlay bytes buf)[i] = bytes.getD i buf[i] := by
  simp [overlay]

theorem take_overlay {bytes : Bytes} (fits : bytes.length ≤ 32) (buf : Vector UInt8 32) :
    (overlay bytes buf).toList.take bytes.length = bytes := by
  have length : ((overlay bytes buf).toList.take bytes.length).length = bytes.length := by
    rw [List.length_take, Vector.length_toList, Nat.min_eq_left fits]
  refine List.ext_getElem length fun i _ bound => ?_
  have inside : i < 32 := Nat.lt_of_lt_of_le bound fits
  have same := getElem_overlay bytes buf i inside
  rw [List.getD_eq_getElem?_getD, List.getElem?_eq_getElem bound, Option.getD_some] at same
  rw [List.getElem_take, Vector.getElem_toList]
  exact same

theorem keyLength_le (type : NodeType) : keyLength type ≤ 32 := by
  unfold keyLength
  split <;> decide

theorem length_ecbData_key (cipher : Block → Block) {type : NodeType} {key : Bytes}
    (sized : key.length = keyLength type) : (ecbData cipher key).length = key.length := by
  have whole : keyLength type / blockSize * blockSize = keyLength type := by
    unfold keyLength blockSize
    split <;> decide
  rw [ecbData, length_ecbBlocks, sized, whole]

/-- Only the part of the buffer that becomes the key matters. -/
theorem setNodekey_congr (t : KeyTree) (n : Ref) {buf buf' : Vector UInt8 32}
    (same : buf.toList.take (keyLength (t.keys n).type) =
      buf'.toList.take (keyLength (t.keys n).type)) : setNodekey t n buf = setNodekey t n buf' := by
  unfold setNodekey
  congr 2
  simp only [same]

/-- Two trees in which a selector treats the same tuples in the same way. -/
structure SameShape (t t' : KeyTree) : Prop where
  isbelow : ∀ n p, t'.isbelow n p = t.isbelow n p
  length : ∀ n, (t'.keys n).nodekey.length = (t.keys n).nodekey.length

theorem SameShape.refl (t : KeyTree) : SameShape t t := ⟨fun _ _ => rfl, fun _ => rfl⟩

theorem isbelowFrom_setNodekey (t : KeyTree) (n : Ref) (buf : Vector UInt8 32) (p : Ref)
    (fuel : Nat) (m : Ref) :
    (setNodekey t n buf).isbelowFrom p fuel m = t.isbelowFrom p fuel m := by
  induction fuel generalizing m with
  | zero => rfl
  | succ fuel ih =>
    have parent : (setNodekey t n buf).parent m = t.parent m := rfl
    rw [KeyTree.isbelowFrom, KeyTree.isbelowFrom, parent]
    refine if_congr Iff.rfl rfl ?_
    cases t.parent m with
    | none => rfl
    | some above => exact ih above

/-- A new key in place of another one. -/
theorem sameShape_setNodekey (t : KeyTree) {n : Ref} (keyed : (t.keys n).nodekey ≠ [])
    (buf : Vector UInt8 32) : SameShape t (setNodekey t n buf) := by
  refine ⟨fun m p => isbelowFrom_setNodekey t n buf p _ m, fun m => ?_⟩
  by_cases here : m = n
  · subst here
    have old := (t.keys m).sized.resolve_left keyed
    rw [setNodekey]
    simp only [Function.update_self]
    rw [length_take_keyLength, old]
  · rw [setNodekey]
    simp only [Function.update_of_ne here]

section Shape
variable {t t' : KeyTree} (same : SameShape t t') {shares nodes : NodeVector}
include same

theorem SameShape.reached (si ni : Nat) :
    Server.reached t' shares nodes si ni = Server.reached t shares nodes si ni := by
  simp only [Server.reached, same.isbelow]

theorem SameShape.keyless (n : Ref) : (t'.keys n).nodekey = [] ↔ (t.keys n).nodekey = [] := by
  rw [← List.length_eq_zero_iff, same.length, List.length_eq_zero_iff]

theorem SameShape.unmixed_iff (pending : Bool) (tuples : List SelectorTuple) :
    Unmixed t' shares nodes pending tuples ↔ Unmixed t shares nodes pending tuples := by
  induction tuples generalizing pending with
  | nil => exact Iff.rfl
  | cons tuple rest ih =>
    obtain ⟨si, ni, key⟩ := tuple
    cases key with
    | none => rw [Unmixed, Unmixed, same.reached, ih]
    | some key =>
      rw [Unmixed, Unmixed, same.reached]
      simp only [same.keyless, accepts, same.length, ih]

end Shape

section Treatments
variable {aes aesd : Aes} {t : KeyTree} {shares nodes : NodeVector} {s : CrState} {si ni : Nat}

/-- A tuple that does not come to its node is passed over. -/
theorem consider_unreached (share : si < shares.length) (node : ni < nodes.length)
    (unreached : reached s.tree shares nodes si ni = none) :
    consider aes aesd shares nodes s si ni = .ok (s, .ignored) := by
  unfold consider
  unfold reached at unreached
  rw [List.getElem?_eq_getElem share, List.getElem?_eq_getElem node] at unreached ⊢
  generalize shares[si] = entry, nodes[ni] = target at unreached ⊢
  cases entry with
  | none => rfl
  | some sn =>
    cases target with
    | none => rfl
    | some n =>
      have apart : ¬ s.tree.isbelow n sn = true := fun below => by simp [below] at unreached
      simp only [treat, if_neg apart]

theorem consider_reached {sn n : Ref} (reaches : reached s.tree shares nodes si ni = some (sn, n)) :
    s.tree.isbelow n sn = true ∧
      consider aes aesd shares nodes s si ni = .ok (treat aes aesd s sn n) := by
  unfold consider
  unfold reached at reaches
  split at reaches
  · rename_i share node
    split at reaches
    · rename_i below
      cases reaches
      rw [share, node]
      exact ⟨below, rfl⟩
    · cases reaches
  · cases reaches

/-- Without a pending key, a node that is reached is answered. -/
theorem treat_respond {sn n : Ref} (below : s.tree.isbelow n sn = true) (free : s.setkey = none) :
    treat aes aesd s sn n =
      (respond aes s sn n, .respond sn n (sealedKey aes s.tree sn n)) := by
  rw [treat, if_pos below, free]

/-- A pending key keeps a node from being answered. -/
theorem treat_pending {sn n : Ref} {l : Nat} (below : s.tree.isbelow n sn = true)
    (pending : s.setkey = some l) (key : Bytes) :
    (treat aes aesd s sn n).2 ≠ .respond sn n key := by
  rw [treat, if_pos below, pending]
  dsimp only
  split <;> simp

/-- The key of a tuple is accepted as it is by itself. -/
theorem treat_accepts {sn n : Ref} {key : Bytes} (below : s.tree.isbelow n sn = true)
    (accepted : accepts s.tree n key = true) (keyed : key ≠ []) :
    (treat aes aesd (readKey s (some key)) sn n).2 =
        .setkey n (ecbData (aesd (sharekey s.tree sn)) key) ∧
      (treat aes aesd (readKey s (some key)) sn n).1.setkey = none ∧
      (treat aes aesd (readKey s (some key)) sn n).1.tree =
        applyTreatment s.tree (.setkey n (ecbData (aesd (sharekey s.tree sn)) key)) := by
  have length : key.length = (s.tree.keys n).nodekey.length := by simpa [accepts] using accepted
  have some_key : (s.tree.keys n).nodekey ≠ [] := by
    intro missing
    rw [missing] at length
    exact keyed (List.length_eq_zero_iff.mp length)
  have sized : key.length = keyLength (s.tree.keys n).type :=
    length.trans ((s.tree.keys n).sized.resolve_left some_key)
  have fits : key.length ≤ 32 := sized.le.trans (keyLength_le _)
  have plain := length_ecbData_key (aesd (sharekey s.tree sn)) sized
  have taken : ∀ buf : Vector UInt8 32,
      (overlay (ecbData (aesd (sharekey s.tree sn)) key) buf).toList.take
        (keyLength (s.tree.keys n).type) = ecbData (aesd (sharekey s.tree sn)) key := by
    intro buf
    rw [← sized, ← plain]
    exact take_overlay (plain.le.trans fits) buf
  have result : treat aes aesd (readKey s (some key)) sn n =
      let keybuf := overlay (ecbData (aesd (sharekey s.tree sn)) key) (overlay key s.keybuf)
      let tree := setNodekey s.tree n keybuf
      ({ readKey s (some key) with tree := tree, setkey := none, keybuf := keybuf },
        .setkey n (tree.keys n).nodekey) := by
    have read : (readKey s (some key)).keybuf.toList.take key.length = key :=
      take_overlay fits s.keybuf
    have pending : (readKey s (some key)).setkey = some key.length := rfl
    have here : (readKey s (some key)).tree.isbelow n sn = true := below
    rw [treat, if_pos here, pending]
    dsimp only
    rw [if_pos (show key.length = ((readKey s (some key)).tree.keys n).nodekey.length from length),
      read]
    rfl
  rw [result]
  refine ⟨?_, rfl, setNodekey_congr s.tree n ((taken _).trans (taken _).symm)⟩
  dsimp only
  rw [setNodekey]
  simp only [Function.update_self]
  rw [taken]

/-- A key of another length stays in the buffer. -/
theorem treat_rejects {sn n : Ref} {key : Bytes} (below : s.tree.isbelow n sn = true)
    (rejected : accepts s.tree n key = false) :
    treat aes aesd (readKey s (some key)) sn n = (readKey s (some key), .ignored) := by
  have length : key.length ≠ (s.tree.keys n).nodekey.length := by simpa [accepts] using rejected
  have here : (readKey s (some key)).tree.isbelow n sn = true := below
  have pending : (readKey s (some key)).setkey = some key.length := rfl
  rw [treat, if_pos here, pending]
  exact if_neg length

/-- An empty key that is accepted sets the key of a node without one from the buffer. -/
theorem treat_empty {sn n : Ref} {key : Bytes} (below : s.tree.isbelow n sn = true)
    (accepted : accepts s.tree n key = true) :
    (treat aes aesd (readKey s (some key)) sn n).2 ≠ .ignored := by
  have length : key.length = (s.tree.keys n).nodekey.length := by simpa [accepts] using accepted
  have here : (readKey s (some key)).tree.isbelow n sn = true := below
  have pending : (readKey s (some key)).setkey = some key.length := rfl
  rw [treat, if_pos here, pending]
  dsimp only
  rw [if_pos (show key.length = ((readKey s (some key)).tree.keys n).nodekey.length from length)]
  exact Treatment.noConfusion

/-- A tuple is treated as by itself, and the rest decides whether the tuples are mixed; or it is
not, and they are. -/
def Outcome (aes aesd : Aes) (t : KeyTree) (shares nodes : NodeVector) (pending : Bool)
    (tuple : SelectorTuple) (rest : List SelectorTuple) (result : CrState × Treatment) : Prop :=
  (result.2 = ownTreatment aes aesd t shares nodes tuple ∧
      result.1.tree = applyTreatment t result.2 ∧ SameShape t result.1.tree ∧
      (Unmixed t shares nodes pending (tuple :: rest) ↔
        Unmixed t shares nodes result.1.setkey.isSome rest)) ∨
    (result.2 ≠ ownTreatment aes aesd t shares nodes tuple ∧
      ¬ Unmixed t shares nodes pending (tuple :: rest))

section Outcomes
variable {rest : List SelectorTuple} {sn n : Ref}
  (reaches : reached s.tree shares nodes si ni = some (sn, n))
  (below : s.tree.isbelow n sn = true)

theorem outcome_unreached (key : Option Bytes) (none : reached s.tree shares nodes si ni = none) :
    Outcome aes aesd s.tree shares nodes s.setkey.isSome (si, ni, key) rest
      (readKey s key, .ignored) := by
  have read : (readKey s key).tree = s.tree := by cases key <;> rfl
  refine Or.inl ⟨?_, read, read ▸ .refl _, ?_⟩
  · simp [ownTreatment, none]
  · cases key <;> simp [Unmixed, none, readKey]

include reaches below

theorem outcome_keyless :
    Outcome aes aesd s.tree shares nodes s.setkey.isSome (si, ni, none) rest
      (treat aes aesd s sn n) := by
  cases free : s.setkey with
  | none =>
    have treated := @treat_respond aes aesd s sn n below free
    refine Or.inl ?_
    rw [treated]
    refine ⟨?_, rfl, .refl _, ?_⟩
    · simp [ownTreatment, reaches]
    · simp [Unmixed, reaches, respond, free]
  | some l =>
    refine Or.inr ⟨?_, ?_⟩
    · simp only [ownTreatment, reaches]
      exact treat_pending below free _
    · simp [Unmixed, reaches]

theorem outcome_rejected {pending : Bool} {key : Bytes} (accepted : accepts s.tree n key = false) :
    Outcome aes aesd s.tree shares nodes pending (si, ni, some key) rest
      (treat aes aesd (readKey s key) sn n) := by
  have treated := @treat_rejects aes aesd s sn n key below accepted
  refine Or.inl ?_
  rw [treated]
  refine ⟨?_, rfl, .refl _, ?_⟩
  · simp [ownTreatment, reaches, accepted]
  · have apart : ¬(key = [] ∧ (s.tree.keys n).nodekey = []) := by
      rintro ⟨rfl, missing⟩
      simp [accepts, missing] at accepted
    rw [Unmixed, reaches]
    simpa [accepted, readKey] using fun _ => not_and.mp apart

theorem outcome_empty {pending : Bool} (accepted : accepts s.tree n [] = true) :
    Outcome aes aesd s.tree shares nodes pending (si, ni, some []) rest
      (treat aes aesd (readKey s (some [])) sn n) := by
  refine Or.inr ⟨?_, ?_⟩
  · simp only [ownTreatment, reaches]
    exact treat_empty below accepted
  · have none : 0 = (s.tree.keys n).nodekey.length := by simpa [accepts] using accepted
    have missing := List.length_eq_zero_iff.mp none.symm
    simp [Unmixed, reaches, missing]

theorem outcome_accepted {pending : Bool} {key : Bytes} (accepted : accepts s.tree n key = true)
    (keyed : key ≠ []) :
    Outcome aes aesd s.tree shares nodes pending (si, ni, some key) rest
      (treat aes aesd (readKey s key) sn n) := by
  obtain ⟨treated, free, after⟩ := @treat_accepts aes aesd s sn n key below accepted keyed
  have some_key : (s.tree.keys n).nodekey ≠ [] := by
    intro missing
    simp [accepts, missing, keyed] at accepted
  refine Or.inl ⟨?_, ?_, ?_, ?_⟩
  · rw [treated]
    simp [ownTreatment, reaches, accepted, keyed]
  · rw [after, treated]
  · rw [after]
    exact sameShape_setNodekey _ some_key _
  · rw [free, Unmixed, reaches]
    simp [accepted, keyed]

end Outcomes

/-- Every tuple with indexes in range has one of the outcomes. -/
theorem consider_cases (share : si < shares.length) (node : ni < nodes.length)
    (key : Option Bytes) (rest : List SelectorTuple) :
    ∃ result, consider aes aesd shares nodes (readKey s key) si ni = .ok result ∧
      Outcome aes aesd s.tree shares nodes s.setkey.isSome (si, ni, key) rest result := by
  have read : (readKey s key).tree = s.tree := by cases key <;> rfl
  cases reaches : reached s.tree shares nodes si ni with
  | none =>
    have passed := @consider_unreached aes aesd shares nodes (readKey s key) si ni share node
      (by rw [read]; exact reaches)
    exact ⟨_, passed, outcome_unreached key reaches⟩
  | some r =>
    obtain ⟨sn, n⟩ := r
    obtain ⟨below, considered⟩ := @consider_reached aes aesd shares nodes (readKey s key) si ni sn n
      (by rw [read]; exact reaches)
    rw [read] at below
    refine ⟨_, considered, ?_⟩
    cases key with
    | none => exact outcome_keyless reaches below
    | some key =>
      cases accepted : accepts s.tree n key with
      | false => exact outcome_rejected reaches below accepted
      | true =>
        rcases eq_or_ne key [] with rfl | keyed
        · exact outcome_empty reaches below accepted
        · exact outcome_accepted reaches below accepted keyed

/-- The loop treats every tuple as it is treated by itself exactly if the tuples are unmixed. -/
theorem crTuples_own_iff {tuples : List SelectorTuple}
    (inside : ∀ tuple ∈ tuples, tuple.1 < shares.length ∧ tuple.2.1 < nodes.length) :
    ∃ s' treatments, crTuples aes aesd shares nodes s tuples = .ok (s', treatments) ∧
      (treatments = ownTreatments aes aesd shares nodes s.tree tuples ↔
        Unmixed s.tree shares nodes s.setkey.isSome tuples) := by
  induction tuples generalizing s with
  | nil => exact ⟨s, [], rfl, iff_of_true rfl trivial⟩
  | cons tuple rest ih =>
    obtain ⟨si, ni, key⟩ := tuple
    rw [List.forall_mem_cons] at inside
    obtain ⟨⟨share, node⟩, others⟩ := inside
    obtain ⟨⟨s₁, treatment⟩, considered, outcome⟩ := @consider_cases aes aesd shares nodes s si ni
      share node key rest
    obtain ⟨s', treatments, later, same⟩ := @ih s₁ others
    refine ⟨s', treatment :: treatments, ?_, ?_⟩
    · rw [crTuples, considered]
      dsimp only
      rw [later]
      rfl
    · rw [ownTreatments, List.cons.injEq]
      rcases outcome with ⟨own, after, shape, unmixed⟩ | ⟨other, mixed⟩
      · rw [unmixed, ← own, ← after, same, shape.unmixed_iff]
        exact and_iff_right rfl
      · exact iff_of_false (fun both => other both.1) mixed

end Treatments

theorem length_storeobject (s : Text) : (storeobject s).2.length ≤ s.length := by
  cases stored : storeobject s with
  | mk value after =>
    cases value with
    | none =>
      rw [storeobject_of_none stored]
      exact length_skipBlanks s
    | some value => exact (length_storeobject_lt stored).le

theorem length_getint (s : Text) : (getint s).2.length ≤ s.length := by
  have separator : (skipSeparator s).length ≤ s.length := by
    unfold skipSeparator
    split
    · rw [List.length_tail]
      exact Nat.sub_le _ _
    · exact Nat.le_refl _
  unfold getint
  dsimp only
  split
  · exact (length_storeobject _).trans separator
  · exact separator

theorem length_storebinary (len : Nat) (s : Text) : (storebinary len s).2.length ≤ s.length := by
  unfold storebinary
  dsimp only
  split
  · exact (length_storeobject _).trans (length_skip comma s)
  · exact length_skip comma s

/-- A round of the walk over the selector goes on only if it consumes text, and adds only
indexes in range. -/
theorem selectorRound_spec {m n : Nat} {tuples : List SelectorTuple}
    (inside : ∀ tuple ∈ tuples, tuple.1 < m ∧ tuple.2.1 < n) (s : Text) :
    ∃ flow tuples' s', selectorRound m n tuples s = .ok (flow, tuples', s') ∧
      (flow = .next → s'.length < s.length) ∧
      ∀ tuple ∈ tuples', tuple.1 < m ∧ tuple.2.1 < n := by
  unfold selectorRound
  dsimp only
  generalize unsigned (getint s).1 = si, unsigned (getint (getint s).2).1 = ni
  have first := length_getint s
  have second := length_getint (getint s).2
  have third := length_storebinary 32 (getint (getint s).2).2
  split
  · exact ⟨_, _, _, rfl, nofun, inside⟩
  · rename_i moved
    split
    · exact ⟨_, _, _, rfl, nofun, inside⟩
    · rename_i share
      split
      · exact ⟨_, _, _, rfl, nofun, inside⟩
      · rename_i node
        have added : ∀ key, ∀ tuple ∈ tuples ++ [(si, ni, key)],
            tuple.1 < m ∧ tuple.2.1 < n := by
          intro key tuple mem
          rcases List.mem_append.mp mem with before | last
          · exact inside tuple before
          · rw [List.mem_singleton.mp last]
            exact ⟨Nat.lt_of_not_le share, Nat.lt_of_not_le node⟩
        split
        · exact ⟨_, _, _, rfl, fun _ => by omega, added _⟩
        · exact ⟨_, _, _, rfl, fun _ => by omega, added _⟩

/-- The walk over any selector text ends, with indexes in range. -/
theorem loop_selectorRound (m n : Nat) (selector : Text) :
    ∃ flow tuples rest, loop (selectorRound m n) [] selector = .ok (flow, tuples, rest) ∧
      ∀ tuple ∈ tuples, tuple.1 < m ∧ tuple.2.1 < n := by
  have general : ∀ fuel (tuples : List SelectorTuple) (s : Text), s.length < fuel →
      (∀ tuple ∈ tuples, tuple.1 < m ∧ tuple.2.1 < n) →
      ∃ flow tuples' rest, loopFrom (selectorRound m n) fuel tuples s = .ok (flow, tuples', rest) ∧
        ∀ tuple ∈ tuples', tuple.1 < m ∧ tuple.2.1 < n := by
    intro fuel
    induction fuel with
    | zero => exact fun _ _ enough => absurd enough (Nat.not_lt_zero _)
    | succ fuel ih =>
      intro tuples s enough inside
      obtain ⟨flow, tuples', s', round, shorter, inside'⟩ := selectorRound_spec inside s
      rw [loopFrom, round]
      cases flow with
      | next => exact ih tuples' s' (by have := shorter rfl; omega) inside'
      | ended => exact ⟨_, _, _, rfl, inside'⟩
      | returned => exact ⟨_, _, _, rfl, inside'⟩
      | rejected => exact ⟨_, _, _, rfl, inside'⟩
  exact general _ [] selector (Nat.lt_succ_self _) fun _ mem => absurd mem List.not_mem_nil

/-- For every selector text, the tuples are read without a fault and with indexes in range, and
each of them is treated as it is by itself exactly if they are unmixed. -/
theorem crSelector_own_iff (aes aesd : Aes) (t : KeyTree) (keybuf : Vector UInt8 32)
    (shares nodes : NodeVector) (selector : Text) :
    ∃ flow tuples rest s treatments command,
      loop (selectorRound shares.length nodes.length) [] selector = .ok (flow, tuples, rest) ∧
      crSelector aes aesd t keybuf shares nodes selector = .ok (.ok (s, treatments, command)) ∧
      (treatments = ownTreatments aes aesd (ownShares t shares) nodes t tuples ↔
        Unmixed t (ownShares t shares) nodes false tuples) := by
  obtain ⟨flow, tuples, rest, read, inside⟩ :=
    loop_selectorRound shares.length nodes.length selector
  have length : (ownShares t shares).length = shares.length := List.length_map ..
  obtain ⟨s, treatments, treated, same⟩ := @crTuples_own_iff aes aesd (ownShares t shares) nodes
    (crStart t keybuf) tuples (by rwa [length])
  refine ⟨flow, tuples, rest, s, treatments, if flow = .ended then crCommand s else none, read, ?_,
    same⟩
  simp only [crSelector, read, Except.map, treated]

/-- A key for a node outside of the share, and then a tuple without a key. -/
def mixedSelector : Text := ascii "0,0,\"AAAAAAAAAAAAAAAAAAAAAA\",0,1]"

/-- The first key is given to the node of the second tuple. -/
theorem foreign_key_set :
    ¬ ∀ (aes aesd : Aes) (t : KeyTree) (keybuf : Vector UInt8 32) (shares nodes : NodeVector)
      (selector : Text) (flow : Flow) (tuples : List SelectorTuple) (rest : Text) (s : CrState)
      (treatments : List Treatment) (command : Option CommandKeyCR),
      loop (selectorRound shares.length nodes.length) [] selector = .ok (flow, tuples, rest) →
      crSelector aes aesd t keybuf shares nodes selector = .ok (.ok (s, treatments, command)) →
      treatments = ownTreatments aes aesd (ownShares t shares) nodes t tuples := by
  intro always
  have own := always (fun _ => id) (fun _ => id) sharedFolder (Vector.replicate 32 0) [some 0]
    [some 1, some 0] mixedSelector .ended [(0, 0, some (List.replicate 16 0)), (0, 1, none)] _ _
    [.ignored, .setkey 0 (List.replicate 16 0)] none rfl rfl
  revert own
  decide

end MegaSdk.Server
