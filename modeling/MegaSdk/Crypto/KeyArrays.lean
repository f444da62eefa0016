import MegaSdk.Crypto.Rsa

/-!
# Arrays of key integers

A key is stored as its integers one after the other, each with the number of its bits. The decoder
writes every integer to its place before it looks at the next one, and finds out at the end whether
the data was right.
-/

namespace MegaSdk.Crypto

def serializeintarray (ts : List Nat) : Bytes := ts.flatMap serializeint

/-- The integers of a key; `setkey` writes to them. -/
abbrev KeyInts := Nat → Nat

/-- The loop of `decodeintarray` from integer `i` on, with the integers that it writes. -/
def decodeinto : Nat → Nat → KeyInts → Bytes → Bool × KeyInts
  | 0, _, key, data => (decide (data.length < 16), key)
  | more + 1, i, key, high :: low :: data =>
    let n := (high.toNat * 256 + low.toNat + 7) / 8
    if n > data.length then (false, key)
    else decodeinto more (i + 1) (Function.update key i (integer (data.take n))) (data.drop n)
  | _ + 1, _, key, _ => (false, key)

def setkey (numints : Nat) (key : KeyInts) (data : Bytes) : Bool × KeyInts :=
  decodeinto numints 0 key data

def isvalid (key : KeyInts) : Bool := bitCount (key 0) ≠ 0 && bitCount (key 1) ≠ 0

def PUBKEY : Nat := 2

/-- The end of `User::serialize`: the public key, if there is one. -/
def serializePubk (pubk : KeyInts) : Bytes :=
  if isvalid pubk then serializeintarray ((List.range PUBKEY).map pubk) else []

/-- What `CommandPubKeyRequest::procresult` does with a public key: whether the pending actions get
the user, and the user's key afterwards. -/
def procPubk (pubk : KeyInts) (pubkbuf : Bytes) : Bool × KeyInts :=
  if pubkbuf.length ≠ 0 then setkey PUBKEY pubk pubkbuf else (false, pubk)

section RoundTrip

variable {ts : List Nat}

/-- The integers are read back, and what follows them is left. -/
theorem decodeints_serializeintarray (fits : ∀ t ∈ ts, bitCount t < 65536) (rest : Bytes) :
    decodeints ts.length (serializeintarray ts ++ rest) = some (ts, rest) := by
  induction ts with
  | nil => rfl
  | cons t ts ih =>
    have others := ih fun t' member => fits t' (List.mem_cons_of_mem _ member)
    have first := decodeints_serializeint (fits t List.mem_cons_self) ts.length
      (serializeintarray ts ++ rest)
    rw [serializeintarray, List.flatMap_cons, List.append_assoc, List.length_cons]
    rw [serializeintarray] at first others
    rw [first, others]
    rfl

/-- No integer is complete in a part of its bytes. -/
theorem decodeints_cut {t : Nat} (fits : bitCount t < 65536) (numints : Nat) {cut : Bytes}
    (start : cut <+: serializeint t) (proper : cut ≠ serializeint t) :
    decodeints (numints + 1) cut = none := by
  obtain ⟨rest, whole⟩ := start
  match cut with
  | [] | [_] => rfl
  | high :: low :: data =>
    have short : data.length < byteCount t := by
      have length := congrArg List.length whole
      have some_rest : rest.length ≠ 0 := by
        intro none
        rw [List.eq_nil_of_length_eq_zero none, List.append_nil] at whole
        exact proper whole
      simp only [serializeint, List.length_append, List.length_cons, List.length_map,
        List.length_reverse, List.length_range] at length
      omega
    rw [serializeint, List.cons_append, List.cons_append] at whole
    injection whole with same_high others
    injection others with same_low
    subst same_high same_low
    have header : ((UInt8.ofNat (bitCount t / 256)).toNat * 256 +
        (UInt8.ofNat (bitCount t)).toNat + 7) / 8 = byteCount t := by
      simp only [UInt8.toNat_ofNat', byteCount]
      omega
    rw [decodeints, header, if_pos short]

/-- A proper part of the bytes of an array cuts one of its integers or ends before it. -/
theorem decodeints_prefix (fits : ∀ t ∈ ts, bitCount t < 65536) {cut : Bytes}
    (start : cut <+: serializeintarray ts) (proper : cut ≠ serializeintarray ts) :
    decodeints ts.length cut = none := by
  induction ts generalizing cut with
  | nil => exact absurd (List.prefix_nil.mp start) proper
  | cons t ts ih =>
    rw [serializeintarray, List.flatMap_cons] at start proper
    by_cases within : cut <+: serializeint t ∧ cut ≠ serializeint t
    · exact decodeints_cut (fits t List.mem_cons_self) ts.length within.1 within.2
    · -- The first integer is complete.
      have long : serializeint t <+: cut := by
        rcases List.prefix_or_prefix_of_prefix start (List.prefix_append _ _) with less | more
        · by_contra other
          exact within ⟨less, fun same => other (same ▸ List.prefix_rfl)⟩
        · exact more
      obtain ⟨cut, rfl⟩ := long
      rw [List.prefix_append_right_inj] at start
      have shorter := ih (fun t' member => fits t' (List.mem_cons_of_mem _ member)) start
        fun same => proper (congrArg _ same)
      rw [List.length_cons, decodeints_serializeint (fits t List.mem_cons_self), shorter]
      rfl

/-- Key arrays are read back as they were written, with less than a block of padding; more bytes
after them and every cut are detected. -/
theorem decodeintarray_serializeintarray (fits : ∀ t ∈ ts, bitCount t < 65529) :
    (∀ padding : Bytes, padding.length < 16 →
      decodeintarray ts.length (serializeintarray ts ++ padding) = some ts) ∧
    (∀ padding : Bytes, 16 ≤ padding.length →
      decodeintarray ts.length (serializeintarray ts ++ padding) = none) ∧
    (∀ cut, cut <+: serializeintarray ts → cut ≠ serializeintarray ts →
      decodeintarray ts.length cut = none) := by
  have wide : ∀ t ∈ ts, bitCount t < 65536 := fun t member =>
    (fits t member).trans (by decide)
  refine ⟨fun padding short => ?_, fun padding long => ?_, fun cut start proper => ?_⟩
  · rw [decodeintarray, decodeints_serializeintarray wide]
    exact if_pos short
  · rw [decodeintarray, decodeints_serializeintarray wide]
    exact if_neg (Nat.not_lt.mpr long)
  · rw [decodeintarray, decodeints_prefix wide start proper]

/-- The integers of a private key with a zero among them. -/
theorem decodeintarray_sample : decodeintarray 4 (serializeintarray [1, 0, 256, 65535] ++ [7]) =
    some [1, 0, 256, 65535] :=
  (@decodeintarray_serializeintarray [1, 0, 256, 65535] (by decide)).1 [7] (by decide)

end RoundTrip

section Reject

variable {key : KeyInts} {data : Bytes}

/-- The integers, at most `numints`, that stand complete in the data before the first one that is
cut. -/
def completeints : Nat → Bytes → List Nat
  | more + 1, high :: low :: data =>
    let n := (high.toNat * 256 + low.toNat + 7) / 8
    if n > data.length then [] else integer (data.take n) :: completeints more (data.drop n)
  | _, _ => []

/-- The key with these integers from place `i` on. -/
def overwrite (key : KeyInts) (i : Nat) (ts : List Nat) : KeyInts :=
  fun k => if i ≤ k then (ts[k - i]?).getD (key k) else key k

theorem overwrite_cons (key : KeyInts) (i t : Nat) (ts : List Nat) :
    overwrite (Function.update key i t) (i + 1) ts = overwrite key i (t :: ts) := by
  funext k
  rw [overwrite, overwrite]
  rcases Nat.lt_trichotomy k i with below | rfl | above
  · rw [if_neg (by omega), if_neg (by omega), Function.update_of_ne (by omega)]
  · rw [if_neg (by omega), if_pos le_rfl, Nat.sub_self, Function.update_self]
    rfl
  · rw [if_pos (by omega), if_pos (by omega), Function.update_of_ne (by omega),
      show k - i = (k - (i + 1)) + 1 by omega, List.getElem?_cons_succ]

theorem overwrite_eq_iff (ts : List Nat) :
    overwrite key 0 ts = key ↔ ∀ i t, ts[i]? = some t → key i = t := by
  constructor
  · intro same i t found
    have at_i := congrFun same i
    rw [overwrite, if_pos (Nat.zero_le i), Nat.sub_zero, found] at at_i
    exact at_i.symm
  · intro each
    funext i
    rw [overwrite, if_pos (Nat.zero_le i), Nat.sub_zero]
    cases found : ts[i]? with
    | none => rfl
    | some t => exact (each i t found).symm

/-- Every integer that is complete is written, whatever comes after it. -/
theorem decodeinto_snd (numints i : Nat) (key : KeyInts) (data : Bytes) :
    (decodeinto numints i key data).2 = overwrite key i (completeints numints data) := by
  induction numints generalizing i key data with
  | zero =>
    funext k
    simp [decodeinto, completeints, overwrite]
  | succ numints ih =>
    match data with
    | [] | [_] =>
      funext k
      simp [decodeinto, completeints, overwrite]
    | high :: low :: data =>
      rw [decodeinto, completeints]
      split
      · funext k
        simp [overwrite]
      · rw [ih, overwrite_cons]

/-- The key is accepted exactly if the integers are decoded. -/
theorem decodeinto_fst (numints i : Nat) (key : KeyInts) (data : Bytes) :
    (decodeinto numints i key data).1 = (decodeintarray numints data).isSome := by
  induction numints generalizing i key data with
  | zero =>
    rw [decodeinto, decodeintarray, decodeints]
    by_cases short : data.length < 16
    · simp [short]
    · simp [short]
  | succ numints ih =>
    rcases data with _ | ⟨high, _ | ⟨low, data⟩⟩
    · rfl
    · rfl
    · rw [decodeinto, decodeintarray, decodeints]
      split
      · rfl
      · rw [ih, decodeintarray]
        cases decodeints numints (data.drop ((high.toNat * 256 + low.toNat + 7) / 8)) with
        | none => rfl
        | some read =>
          rw [Option.map_some]
          dsimp only
          split <;> rfl

/-- A rejected key leaves the old one alone exactly if the integers that are complete before the
fault are those that the key has already. -/
theorem rejected_keeps_iff (numints : Nat) (key : KeyInts) (data : Bytes) :
    ((setkey numints key data).1 = false → (setkey numints key data).2 = key ∧
        isvalid (setkey numints key data).2 = isvalid key) ↔
      (decodeintarray numints data).isSome ∨
        ∀ i t, (completeints numints data)[i]? = some t → key i = t := by
  rw [setkey, decodeinto_fst, decodeinto_snd, ← overwrite_eq_iff]
  cases decodeintarray numints data with
  | some ts => simp
  | none =>
    simp only [Option.isSome_none, true_implies, Bool.false_eq_true, false_or, and_iff_left_iff_imp]
    intro same
    rw [same]

/-- A public key of a user is rejected without being used or cached if it does not begin with
complete integers. -/
theorem procPubk_rejected (none : completeints PUBKEY data = []) :
    (procPubk key data).1 = (decodeintarray PUBKEY data).isSome ∧ (procPubk key data).2 = key ∧
      serializePubk (procPubk key data).2 = serializePubk key := by
  have same : (procPubk key data).2 = key := by
    rw [procPubk]
    split
    · rw [setkey, decodeinto_snd, none, overwrite_eq_iff]
      exact fun i t found => nomatch found
    · rfl
  refine ⟨?_, same, congrArg serializePubk same⟩
  rw [procPubk]
  split
  · exact decodeinto_fst PUBKEY 0 key data
  · next empty =>
    rw [not_not, List.length_eq_zero_iff] at empty
    rw [empty]
    rfl

/-- A public key with 16 bytes after it is rejected, but valid and cached from then on. -/
theorem tooLong_cached : ¬((setkey PUBKEY (fun _ => 0)
      (serializeintarray [5, 3] ++ List.replicate 16 0)).1 = false →
    ((setkey PUBKEY (fun _ => 0)
        (serializeintarray [5, 3] ++ List.replicate 16 0)).2 = fun _ => 0) ∧
      isvalid (setkey PUBKEY (fun _ => 0)
        (serializeintarray [5, 3] ++ List.replicate 16 0)).2 = isvalid fun _ => 0) ∧
    serializePubk (procPubk (fun _ => 0) (serializeintarray [5, 3] ++ List.replicate 16 0)).2 =
      serializeintarray [5, 3] := by
  refine ⟨fun keeps => ?_, by decide⟩
  have valid := (keeps (by decide)).2
  exact absurd valid (by decide)

end Reject

end MegaSdk.Crypto
