import MegaSdk.Lib.Runs
import MegaSdk.Xfer.FileAttributes

/-!
# What the parser of file attributes reads

The first position, the number of headers and the ends of the attributes come from
the response itself. Every call of `parse` is accompanied by the list of the
headers that it reads, of the ranges that it decrypts and delivers, and of its
unsigned subtractions. They are all within bounds exactly if each round of the
loop meets a condition on its own state; a response whose headers fill the space
before the first attribute and whose positions are ordered meets it in every round,
however it is cut into pieces.
-/

namespace MegaSdk.Xfer

open Crypto ByteOrder Runs

/-- What `parse` does that may go wrong: read a header, decrypt or deliver a range of the
received data, or take the difference of two unsigned numbers. -/
inductive FaAccess where
  | header (offset size : Nat)
  | range (fapos falen size : Nat)
  | difference (a b : Nat)
  deriving DecidableEq, Repr

/-- The header or the range lies in the data, and the difference does not wrap around. -/
def FaAccess.InBounds : FaAccess → Prop
  | .header offset size => offset + faPosSize ≤ size
  | .range fapos falen size => fapos + falen ≤ size
  | .difference a b => b ≤ a

instance : DecidablePred FaAccess.InBounds
  | .header offset size => inferInstanceAs (Decidable (offset + faPosSize ≤ size))
  | .range fapos falen size => inferInstanceAs (Decidable (fapos + falen ≤ size))
  | .difference a b => inferInstanceAs (Decidable (b ≤ a))

/-- The accesses of `parseEntry`. -/
def entryAccesses (client : FaClient) (falen : Nat) (c : FaChannel) : List FaAccess :=
  .header c.completed c.data.length ::
    match faPos c.data c.completed with
    | .error _ => []
    | .ok (h, fapos) =>
      match c.find h with
      | none => []
      | some f =>
        match client.nodekey f.nodehandle with
        | none => []
        | some _ =>
          let length := (falen + 2 ^ 32 - fapos) % 2 ^ 32
          .difference falen fapos ::
            if length % blockSize ≠ 0 then [] else [.range fapos length c.data.length]

/-- The accesses of `parseRound`. -/
def roundAccesses (client : FaClient) (final : Bool) (bod : Nat) (c : FaChannel) :
    List FaAccess :=
  .difference bod (if final then 0 else faPosSize) ::
    if c.completed < faLimit final bod then
      if final then entryAccesses client (c.data.length % 2 ^ 32) c
      else
        .header (c.completed + faPosSize) c.data.length ::
          match faPos c.data (c.completed + faPosSize) with
          | .error _ => []
          | .ok (_, falen) =>
            if falen ≤ c.data.length then entryAccesses client falen c else []
    else []

/-- The states in which the loop of `parse` begins a round. -/
def roundStates (client : FaClient) (final : Bool) (bod : Nat) : Nat → FaChannel → List FaChannel
  | 0, _ => []
  | fuel + 1, c =>
    c :: match parseRound client final bod c with
      | .ok (.next, c) => roundStates client final bod fuel c
      | _ => []

/-- The position of the first header, if `parse` comes to its loop. -/
def loopBod (c : FaChannel) : Option Nat :=
  match faPos c.data 0 with
  | .error _ => none
  | .ok (_, bod) => if c.data.length < bod then none else some bod

/-- The states in which a call of `parse` begins a round of its loop. -/
def callStates (client : FaClient) (final : Bool) (c : FaChannel) : List FaChannel :=
  match loopBod c with
  | none => []
  | some bod => roundStates client final bod (c.data.length + 1) c

/-- The accesses of a call of `parse`. -/
def callAccesses (client : FaClient) (final : Bool) (c : FaChannel) : List FaAccess :=
  if c.data.length < faPosSize then []
  else
    .header 0 c.data.length ::
      match loopBod c with
      | none => []
      | some bod => (callStates client final c).flatMap (roundAccesses client final bod)

/-- The header of the round is there, and if its fetch and node are known, the attribute does
not end before it starts. -/
def EntryFits (client : FaClient) (falen : Nat) (c : FaChannel) : Prop :=
  c.completed + faPosSize ≤ c.data.length ∧
    ∀ h fapos, faPos c.data c.completed = .ok (h, fapos) →
      ∀ f ∈ c.find h, (client.nodekey f.nodehandle).isSome → fapos ≤ falen

/-- The condition on the state before a round. While data is arriving, the first position
leaves room for a header, the next header is there, and the attribute that it ends fits. In
the final call, the attribute that the data ends fits. -/
def RoundFits (client : FaClient) (final : Bool) (bod : Nat) (c : FaChannel) : Prop :=
  (final = false → faPosSize ≤ bod) ∧
    (c.completed < faLimit final bod →
      if final then EntryFits client (c.data.length % 2 ^ 32) c
      else c.completed + 2 * faPosSize ≤ c.data.length ∧
        ∀ h falen, faPos c.data (c.completed + faPosSize) = .ok (h, falen) →
          falen ≤ c.data.length → EntryFits client falen c)

/-- Every round of a call of `parse` meets its condition. -/
def CallFits (client : FaClient) (final : Bool) (c : FaChannel) : Prop :=
  ∀ bod ∈ loopBod c, ∀ c' ∈ callStates client final c, RoundFits client final bod c'

theorem faPos_ok_iff (data : Bytes) (offset : Nat) :
    (∃ e, faPos data offset = .ok e) ↔ offset + faPosSize ≤ data.length := by
  unfold faPos
  split
  · rename_i room
    exact ⟨fun _ => room, fun _ => ⟨_, rfl⟩⟩
  · rename_i short
    exact ⟨nofun, fun room => absurd room short⟩

/-- Positions have 32 bits. -/
theorem faPos_lt {data : Bytes} {offset : Nat} {h : UInt64} {pos : Nat}
    (header : faPos data offset = .ok (h, pos)) : pos < 2 ^ 32 := by
  unfold faPos at header
  split at header
  · cases header
    refine Nat.lt_of_lt_of_le (ofLe_lt _) ?_
    exact Nat.pow_le_pow_right (by decide) (List.length_take_le 4 _)
  · cases header

section Round
variable {client : FaClient} {c : FaChannel}

/-- What a round does with its own header is within bounds exactly if the entry fits. -/
theorem entryAccesses_inBounds_iff {falen : Nat} (arrived : falen ≤ c.data.length)
    (small : falen < 2 ^ 32) :
    (∀ a ∈ entryAccesses client falen c, a.InBounds) ↔ EntryFits client falen c := by
  constructor
  · intro inBounds
    refine ⟨inBounds (.header c.completed c.data.length) List.mem_cons_self, ?_⟩
    intro h fapos header f found node
    obtain ⟨key, node⟩ := Option.isSome_iff_exists.mp node
    apply inBounds (.difference falen fapos)
    simp [entryAccesses, header, Option.mem_def.mp found, node]
  · rintro ⟨room, fits⟩ a mem
    obtain ⟨⟨h, fapos⟩, header⟩ := (faPos_ok_iff c.data c.completed).mpr room
    simp only [entryAccesses, header, List.mem_cons] at mem
    rcases mem with rfl | mem
    · exact room
    · cases found : c.find h with
      | none => simp [found] at mem
      | some f =>
        cases node : client.nodekey f.nodehandle with
        | none => simp [found, node] at mem
        | some key =>
          have ordered := fits h fapos header f found (by rw [node]; rfl)
          simp only [found, node, List.mem_cons] at mem
          rcases mem with rfl | mem
          · exact ordered
          · split at mem
            · cases mem
            · rw [List.mem_singleton.mp mem, FaAccess.InBounds]
              omega

/-- The accesses of a round are within bounds exactly if the round fits. -/
theorem roundAccesses_inBounds_iff {final : Bool} {bod : Nat} :
    (∀ a ∈ roundAccesses client final bod c, a.InBounds) ↔ RoundFits client final bod c := by
  rw [roundAccesses, RoundFits, List.forall_mem_cons]
  refine and_congr ?_ ?_
  · cases final <;> simp [FaAccess.InBounds]
  · by_cases more : c.completed < faLimit final bod
    · rw [if_pos more, forall_prop_of_true more]
      cases final with
      | true =>
        rw [if_pos rfl, if_pos rfl]
        exact entryAccesses_inBounds_iff (Nat.mod_le _ _) (Nat.mod_lt _ (by decide))
      | false =>
        rw [if_neg Bool.false_ne_true, if_neg Bool.false_ne_true, List.forall_mem_cons]
        refine and_congr ?_ ?_
        · rw [FaAccess.InBounds, Nat.add_assoc, ← Nat.two_mul]
        · cases header : faPos c.data (c.completed + faPosSize) with
          | error fault => simp
          | ok next =>
            obtain ⟨h, falen⟩ := next
            dsimp only
            by_cases arrived : falen ≤ c.data.length
            · rw [if_pos arrived, entryAccesses_inBounds_iff arrived (faPos_lt header)]
              constructor
              · rintro fits h' falen' same _
                cases same
                exact fits
              · exact fun fits => fits h falen rfl arrived
            · rw [if_neg arrived]
              constructor
              · rintro _ h' falen' same arrived'
                cases same
                exact absurd arrived' arrived
              · exact fun _ a mem => absurd mem List.not_mem_nil
    · rw [if_neg more]
      exact ⟨fun _ now => absurd now more, fun _ a mem => absurd mem List.not_mem_nil⟩

/-- The accesses of a call are within bounds exactly if all its rounds fit. -/
theorem callAccesses_inBounds_iff (client : FaClient) (final : Bool) (c : FaChannel) :
    (∀ a ∈ callAccesses client final c, a.InBounds) ↔ CallFits client final c := by
  unfold callAccesses CallFits
  split
  · rename_i short
    have none : loopBod c = none := by
      rw [loopBod, faPos, if_neg (by omega)]
    rw [none]
    simp
  · rename_i long
    rw [List.forall_mem_cons]
    cases bod : loopBod c with
    | none => simp [FaAccess.InBounds] at long ⊢; exact long
    | some bod =>
      dsimp only
      simp only [List.forall_mem_flatMap, roundAccesses_inBounds_iff, Option.mem_some_iff,
        forall_eq']
      refine and_iff_right ?_
      rw [FaAccess.InBounds, Nat.zero_add]
      exact Nat.le_of_not_lt long

end Round

/-- A round that goes on passes over its header or delivers its attribute. -/
theorem parseEntry_next {client : FaClient} {falen : Nat} {c c' : FaChannel}
    (next : parseEntry client falen c = .ok (.next, c')) :
    c' = { c with completed := c.completed + faPosSize } ∨
      ∃ h fapos f key n, faPos c.data c.completed = .ok (h, fapos) ∧ blockSize ∣ n ∧
        fapos + n ≤ c.data.length ∧ c' = deliver client c h f key fapos n := by
  unfold parseEntry at next
  split at next
  · cases next
  · rename_i h fapos header
    split at next
    · cases next
    · rename_i f found
      split at next
      · cases next
        exact Or.inl rfl
      · rename_i key node
        dsimp only at next
        split at next
        · cases next
        · rename_i whole
          split at next
          · rename_i room
            cases next
            exact Or.inr ⟨h, fapos, f, key, _, header,
              Nat.dvd_of_mod_eq_zero (by simpa using whole), room, rfl⟩
          · cases next

/-- Every round that goes on is one of an entry. -/
theorem parseRound_next {client : FaClient} {final : Bool} {bod : Nat} {c c' : FaChannel}
    (next : parseRound client final bod c = .ok (.next, c')) :
    c.completed < faLimit final bod ∧ ∃ falen, parseEntry client falen c = .ok (.next, c') := by
  unfold parseRound at next
  split at next
  · rename_i more
    refine ⟨more, ?_⟩
    cases final with
    | true =>
      rw [if_pos rfl] at next
      dsimp only at next
      rw [if_pos (Nat.mod_le _ _)] at next
      exact ⟨_, next⟩
    | false =>
      rw [if_neg Bool.false_ne_true] at next
      split at next
      · cases next
      · split at next
        · exact ⟨_, next⟩
        · cases next
  · cases next

theorem length_deliver {client : FaClient} {c : FaChannel} (h : UInt64) (f : FileAttributeFetch)
    (key : Block) {fapos n : Nat} (whole : blockSize ∣ n) (room : fapos + n ≤ c.data.length) :
    (deliver client c h f key fapos n).data.length = c.data.length := by
  have slice : ((c.data.drop fapos).take n).length = n := by
    rw [List.length_take, List.length_drop]
    omega
  have plain := length_cbcDecrypt (client.aesd key) (slice.symm ▸ whole)
  simp only [deliver, List.length_append, plain, slice, List.length_take, List.length_drop]
  omega

theorem parseRound_advances {client : FaClient} {final : Bool} {bod : Nat} {c c' : FaChannel}
    (next : parseRound client final bod c = .ok (.next, c')) :
    c'.data.length = c.data.length ∧ c'.completed = c.completed + faPosSize ∧
      c.completed + faPosSize ≤ c.data.length := by
  obtain ⟨_, falen, entry⟩ := parseRound_next next
  have room : c.completed + faPosSize ≤ c.data.length := by
    by_contra missing
    have fault : faPos c.data c.completed = .error .overrun := if_neg missing
    rw [parseEntry, fault] at entry
    cases entry
  rcases parseEntry_next entry with rfl | ⟨h, fapos, f, key, n, _, whole, inside, rfl⟩
  · exact ⟨rfl, rfl, room⟩
  · exact ⟨length_deliver h f key whole inside, rfl, room⟩

/-- The received data bounds the number of rounds, so `parse` sees the end of its loop. -/
theorem parseLoop_enough {client : FaClient} {final : Bool} {bod fuel : Nat} {c : FaChannel}
    (enough : c.data.length - c.completed < fuel) (more : Nat) :
    parseLoop client final bod (fuel + more) c = parseLoop client final bod fuel c := by
  induction fuel generalizing c with
  | zero => exact absurd enough (Nat.not_lt_zero _)
  | succ fuel ih =>
    rw [Nat.add_right_comm, parseLoop, parseLoop]
    split
    · rename_i c' next
      obtain ⟨length, completed, room⟩ := parseRound_advances next
      refine ih ?_
      simp only [faPosSize] at completed room
      omega
    · rfl

def FaAccess.touches : FaAccess → Prop
  | .header _ _ => True
  | .range _ _ _ => True
  | .difference _ _ => False

def Covered (accesses : List FaAccess) : Prop := ∀ a ∈ accesses, a.touches → a.InBounds

theorem covered_header {offset size : Nat} {rest : List FaAccess} :
    Covered (.header offset size :: rest) ↔ offset + faPosSize ≤ size ∧ Covered rest := by
  rw [Covered, List.forall_mem_cons]
  exact and_congr_left' (forall_prop_of_true trivial)

theorem covered_difference {a b : Nat} {rest : List FaAccess} :
    Covered (.difference a b :: rest) ↔ Covered rest := by
  rw [Covered, List.forall_mem_cons]
  exact and_iff_right nofun

theorem covered_nil : Covered [] := nofun

section Faults
variable {client : FaClient} {c : FaChannel}

theorem parseEntry_ok_iff {falen : Nat} :
    (∃ outcome, parseEntry client falen c = .ok outcome) ↔
      Covered (entryAccesses client falen c) := by
  rw [entryAccesses, covered_header, ← faPos_ok_iff, parseEntry]
  cases header : faPos c.data c.completed with
  | error fault => simp
  | ok entry =>
    obtain ⟨h, fapos⟩ := entry
    dsimp only
    cases found : c.find h with
    | none => simp [covered_nil]
    | some f =>
      dsimp only
      cases node : client.nodekey f.nodehandle with
      | none => simp [covered_nil]
      | some key =>
        dsimp only
        rw [covered_difference]
        split
        · simp [covered_nil]
        · split <;> simp_all [Covered, FaAccess.touches, FaAccess.InBounds]

theorem parseRound_ok_iff {final : Bool} {bod : Nat} :
    (∃ outcome, parseRound client final bod c = .ok outcome) ↔
      Covered (roundAccesses client final bod c) := by
  rw [roundAccesses, covered_difference, parseRound]
  split
  · cases final with
    | true =>
      rw [if_pos rfl, if_pos rfl]
      dsimp only
      rw [if_pos (Nat.mod_le _ _)]
      exact parseEntry_ok_iff
    | false =>
      rw [if_neg Bool.false_ne_true, if_neg Bool.false_ne_true, covered_header, ← faPos_ok_iff]
      cases header : faPos c.data (c.completed + faPosSize) with
      | error fault => simp
      | ok next =>
        dsimp only
        split
        · have entry := @parseEntry_ok_iff client c next.2
          simpa using entry
        · simp [covered_nil]
  · simp [covered_nil]

theorem parseLoop_ok_iff {final : Bool} {bod fuel : Nat} :
    (∃ outcome, parseLoop client final bod fuel c = .ok outcome) ↔
      ∀ c' ∈ roundStates client final bod fuel c,
        Covered (roundAccesses client final bod c') := by
  induction fuel generalizing c with
  | zero => simp [parseLoop, roundStates]
  | succ fuel ih =>
    rw [roundStates, List.forall_mem_cons, ← parseRound_ok_iff, parseLoop]
    cases round : parseRound client final bod c with
    | error fault => simp
    | ok outcome =>
      obtain ⟨flow, c'⟩ := outcome
      cases flow with
      | next => simpa using ih
      | done => simp
      | failed => simp

/-- A call of `parse` stays within the received data exactly if all its reads and writes
do. -/
theorem parse_ok_iff (client : FaClient) (fac : Int) (final : Bool) (c : FaChannel) :
    (∃ c', parse client fac final c = .ok c') ↔ Covered (callAccesses client final c) := by
  by_cases short : c.data.length < faPosSize
  · have missing : faPos c.data 0 = .error .overrun := if_neg (by omega)
    rw [callAccesses, if_pos short, parse, missing]
    exact ⟨fun _ => covered_nil, fun _ => ⟨_, rfl⟩⟩
  · obtain ⟨⟨h, bod⟩, header⟩ := (faPos_ok_iff c.data 0).mpr (by omega)
    rw [callAccesses, if_neg short, covered_header, and_iff_right (by omega), callStates, loopBod,
      parse, header]
    dsimp only
    split
    · exact ⟨fun _ => covered_nil, fun _ => ⟨_, rfl⟩⟩
    · dsimp only
      rw [Covered, List.forall_mem_flatMap]
      refine Iff.trans ?_ parseLoop_ok_iff
      generalize parseLoop client final bod (c.data.length + 1) c = outcome
      rcases outcome with fault | ⟨flow, c'⟩
      · simp
      · cases flow <;> simp

end Faults

/-- What happens to a channel: a piece of the response arrives, the client's pending fetches
change, `parse` is called, and the next request is posted. -/
inductive FaEvent where
  | receive (piece : Bytes)
  | pending (fafs : List (UInt64 × FileAttributeFetch))
  | parse (client : FaClient) (fac : Int) (final : Bool)
  | dispatch

/-- A channel, until a read or write leaves the data, with all accesses so far. -/
structure FaRun where
  channel : Except FaFault FaChannel
  log : List FaAccess

def faStep (r : FaRun) (e : FaEvent) : FaRun :=
  match r.channel with
  | .error _ => r
  | .ok c =>
    match e with
    | .receive piece => { r with channel := .ok { c with data := c.data ++ piece } }
    | .pending fafs => { r with channel := .ok { c with fafs := fafs } }
    | .parse client fac final => ⟨parse client fac final c, r.log ++ callAccesses client final c⟩
    | .dispatch => { r with channel := .ok { c with data := [], completed := 0 } }

/-- Every round of the call fits, if the event is a call. -/
def CallsFit (r : FaRun) (e : FaEvent) : Prop :=
  ∀ c, r.channel = .ok c → ∀ client fac final, e = .parse client fac final →
    CallFits client final c

theorem faStep_log (r : FaRun) (e : FaEvent) :
    (∀ a ∈ (faStep r e).log, a.InBounds) ↔ (∀ a ∈ r.log, a.InBounds) ∧ CallsFit r e := by
  obtain ⟨channel, log⟩ := r
  cases channel with
  | error fault => simp [faStep, CallsFit]
  | ok c =>
    cases e with
    | parse client fac final =>
      simp only [faStep, List.forall_mem_append, callAccesses_inBounds_iff]
      refine and_congr_right' ⟨?_, fun fits => fits c rfl client fac final rfl⟩
      intro fits _ channel _ _ _ call
      cases channel
      cases call
      exact fits
    | receive piece => simp [faStep, CallsFit]
    | pending fafs => simp [faStep, CallsFit]
    | dispatch => simp [faStep, CallsFit]

theorem log_inBounds_iff (r : FaRun) (events : List FaEvent) :
    (∀ a ∈ (run faStep r events).log, a.InBounds) ↔
      (∀ a ∈ r.log, a.InBounds) ∧ Meets faStep CallsFit r events := by
  induction events generalizing r with
  | nil => exact (and_iff_left trivial).symm
  | cons e rest ih => rw [run_cons, ih, faStep_log, Meets, and_assoc]

/-- The channel fails exactly if a read or write leaves the data. -/
theorem channel_ok_iff (r : FaRun) (events : List FaEvent)
    (before : (∃ c, r.channel = .ok c) ↔ Covered r.log) :
    (∃ c, (run faStep r events).channel = .ok c) ↔ Covered (run faStep r events).log := by
  induction events generalizing r with
  | nil => exact before
  | cons e rest ih =>
    refine ih (faStep r e) ?_
    obtain ⟨channel, log⟩ := r
    cases channel with
    | error fault => exact before
    | ok c =>
      cases e with
      | receive piece => simpa [faStep] using before
      | pending fafs => simpa [faStep] using before
      | dispatch => simpa [faStep] using before
      | parse client fac final =>
        have covered : Covered log := before.mp ⟨c, rfl⟩
        simp only [faStep, parse_ok_iff, Covered, List.forall_mem_append]
        exact (and_iff_right covered).symm

/-- The headers fill the space before the first attribute, the positions do not decrease, and
the last attribute starts within the response. -/
structure FaOrdered (response : Bytes) (bod : Nat) : Prop where
  small : response.length < 2 ^ 32
  room : faPosSize ≤ bod
  whole : faPosSize ∣ bod
  first : ∃ h, faPos response 0 = .ok (h, bod)
  increasing : ∀ k h pos h' pos', faPosSize * (k + 2) ≤ bod →
    faPos response (faPosSize * k) = .ok (h, pos) →
    faPos response (faPosSize * (k + 1)) = .ok (h', pos') → pos ≤ pos'
  within : ∀ k h pos, faPosSize * (k + 1) ≤ bod →
    faPos response (faPosSize * k) = .ok (h, pos) → pos ≤ response.length

/-- The pieces that arrive are those of the response, and a final call comes after the last
of them. -/
def Arrives (response : Bytes) : Nat → List FaEvent → Prop
  | _, [] => True
  | received, .receive piece :: rest =>
    (response.drop received).take piece.length = piece ∧
      Arrives response (received + piece.length) rest
  | received, .pending _ :: rest => Arrives response received rest
  | received, .parse _ _ final :: rest =>
    (final = true → received = response.length) ∧ Arrives response received rest
  | _, .dispatch :: _ => False

/-- What has arrived of the response; decryption in place has not touched the headers. -/
structure HeadersKept (response : Bytes) (bod received : Nat) (c : FaChannel) : Prop where
  length : c.data.length = received
  headers : c.data.take bod = (response.take received).take bod
  completed : faPosSize ∣ c.completed

/-- Headers in the part that two byte strings share are the same. -/
theorem faPos_of_take {data data' : Bytes} {offset m : Nat} (same : data.take m = data'.take m)
    (inside : offset + faPosSize ≤ m) : faPos data offset = faPos data' offset := by
  have lengths := congrArg List.length same
  rw [List.length_take, List.length_take] at lengths
  have slice : ∀ o w, o + w ≤ m → (data.drop o).take w = (data'.drop o).take w := by
    intro o w fits
    have shared := congrArg (fun l => (l.drop o).take w) same
    simpa only [List.drop_take, List.take_take, Nat.min_eq_left (show w ≤ m - o by omega)]
      using shared
  simp only [faPosSize] at inside
  unfold faPos
  rw [slice offset 8 (by omega), slice (offset + 8) 4 (by omega)]
  have room : offset + faPosSize ≤ data.length ↔ offset + faPosSize ≤ data'.length := by
    simp only [faPosSize]
    omega
  simp only [room]

/-- The positions of an ordered response lie behind its headers. -/
theorem FaOrdered.bod_le {response : Bytes} {bod : Nat} (ordered : FaOrdered response bod)
    {k pos : Nat} {h : UInt64} (inside : faPosSize * (k + 1) ≤ bod)
    (header : faPos response (faPosSize * k) = .ok (h, pos)) : bod ≤ pos := by
  induction k generalizing h pos with
  | zero =>
    obtain ⟨first, bod⟩ := ordered.first
    cases bod.symm.trans header
    exact Nat.le_refl _
  | succ k ih =>
    have here := (faPos_ok_iff response (faPosSize * (k + 1))).mp ⟨_, header⟩
    obtain ⟨⟨h', pos'⟩, previous⟩ := (faPos_ok_iff response (faPosSize * k)).mpr (by
      simp only [faPosSize] at here ⊢
      omega)
    have before := ih (by simp only [faPosSize] at inside ⊢; omega) previous
    exact Nat.le_trans before (ordered.increasing k h' pos' h pos inside previous header)

/-- A round that does not go on leaves the channel alone. -/
theorem parseRound_stops {client : FaClient} {final : Bool} {bod : Nat} {c c' : FaChannel}
    {flow : FaFlow} (round : parseRound client final bod c = .ok (flow, c'))
    (stops : flow ≠ .next) : c' = c := by
  have entry : ∀ falen, parseEntry client falen c = .ok (flow, c') → c' = c := by
    intro falen entry
    unfold parseEntry at entry
    split at entry
    · cases entry
    · split at entry
      · cases entry
        rfl
      · split at entry
        · cases entry
          exact absurd rfl stops
        · dsimp only at entry
          split at entry
          · cases entry
            rfl
          · split at entry
            · cases entry
              exact absurd rfl stops
            · cases entry
  unfold parseRound at round
  split at round
  · split at round
    · dsimp only at round
      split at round
      · exact entry _ round
      · cases round
        rfl
    · split at round
      · cases round
      · split at round
        · exact entry _ round
        · cases round
          rfl
  · cases round
    rfl

namespace HeadersKept
variable {response : Bytes} {bod received : Nat} {c : FaChannel} {client : FaClient} {final : Bool}

/-- Once all headers have arrived, each of them is read as it was sent. -/
theorem header (kept : HeadersKept response bod received c) (here : bod ≤ received) {k : Nat}
    (inside : faPosSize * (k + 1) ≤ bod) :
    faPos c.data (faPosSize * k) = faPos response (faPosSize * k) := by
  have same := kept.headers
  rw [List.take_take, Nat.min_eq_left here] at same
  exact faPos_of_take same (by simpa only [Nat.mul_succ] using inside)

theorem roundFits (kept : HeadersKept response bod received c) (ordered : FaOrdered response bod)
    (here : bod ≤ received) (all : final = true → received = response.length) :
    RoundFits client final bod c := by
  refine ⟨fun _ => ordered.room, fun more => ?_⟩
  obtain ⟨k, completed⟩ := kept.completed
  obtain ⟨n, whole⟩ := ordered.whole
  have length := kept.length
  cases final with
  | true =>
    have inside : faPosSize * (k + 1) ≤ bod := by
      simp only [faLimit, if_true, faPosSize] at more completed whole ⊢
      omega
    rw [if_pos rfl]
    refine ⟨by simp only [completed, faPosSize] at inside ⊢; omega, ?_⟩
    intro h fapos header _ _ _
    rw [completed, kept.header here inside] at header
    have within := ordered.within k h fapos inside header
    have small := ordered.small
    have received := all rfl
    rw [Nat.mod_eq_of_lt (by omega)]
    omega
  | false =>
    have inside : faPosSize * (k + 2) ≤ bod := by
      have room := ordered.room
      simp only [faLimit, Bool.false_eq_true, if_false, if_pos room] at more
      simp only [faPosSize] at more completed whole ⊢
      omega
    have first : faPosSize * (k + 1) ≤ bod := by
      simp only [faPosSize] at inside ⊢
      omega
    rw [if_neg Bool.false_ne_true, completed]
    refine ⟨by simp only [faPosSize] at inside ⊢; omega, ?_⟩
    intro h falen next _
    refine ⟨by simp only [completed, faPosSize] at inside ⊢; omega, ?_⟩
    intro h' fapos header _ _ _
    rw [← Nat.mul_succ, kept.header here inside] at next
    rw [completed, kept.header here first] at header
    exact ordered.increasing k h' fapos h falen inside header next

/-- A round leaves the headers as they were sent. -/
theorem round (kept : HeadersKept response bod received c) (ordered : FaOrdered response bod)
    (here : bod ≤ received) {c' : FaChannel}
    (next : parseRound client final bod c = .ok (.next, c')) :
    HeadersKept response bod received c' := by
  obtain ⟨more, falen, entry⟩ := parseRound_next next
  have completed := Nat.dvd_add kept.completed (Nat.dvd_refl faPosSize)
  rcases parseEntry_next entry with rfl | ⟨h, fapos, f, key, n, header, whole, room, rfl⟩
  · exact ⟨kept.length, kept.headers, completed⟩
  · obtain ⟨k, position⟩ := kept.completed
    have inside : faPosSize * (k + 1) ≤ bod := by
      obtain ⟨m, whole⟩ := ordered.whole
      have room := ordered.room
      cases final <;>
        simp only [faLimit, if_true, Bool.false_eq_true, if_false, if_pos room] at more
        <;> simp only [faPosSize] at more position whole ⊢ <;> omega
    rw [position, kept.header here inside] at header
    have behind := ordered.bod_le inside header
    refine ⟨(length_deliver h f key whole room).trans kept.length, ?_, completed⟩
    · rw [← kept.headers, deliver]
      dsimp only
      rw [List.append_assoc, List.take_append_of_le_length (by rw [List.length_take]; omega),
        List.take_take, Nat.min_eq_left behind]

/-- The loop comes to its first round with the position of the first header. -/
theorem loopBod_eq (kept : HeadersKept response bod received c)
    (ordered : FaOrdered response bod) {b : Nat} (loop : loopBod c = some b) :
    b = bod ∧ bod ≤ received := by
  unfold loopBod at loop
  split at loop
  · cases loop
  · rename_i h first header
    split at loop
    · cases loop
    · rename_i there
      cases loop
      have room := (faPos_ok_iff c.data 0).mp ⟨_, header⟩
      rw [kept.length] at room there
      rw [faPos_of_take kept.headers (Nat.zero_add _ ▸ ordered.room)] at header
      have same : (response.take received).take received = response.take received := by
        rw [List.take_take, Nat.min_self]
      rw [faPos_of_take same room] at header
      obtain ⟨_, first⟩ := ordered.first
      cases first.symm.trans header
      exact ⟨rfl, Nat.le_of_not_lt there⟩

theorem roundStates (kept : HeadersKept response bod received c)
    (ordered : FaOrdered response bod) (here : bod ≤ received) {fuel : Nat} :
    ∀ c' ∈ Xfer.roundStates client final bod fuel c, HeadersKept response bod received c' := by
  induction fuel generalizing c with
  | zero => nofun
  | succ fuel ih =>
    rw [Xfer.roundStates, List.forall_mem_cons]
    refine ⟨kept, ?_⟩
    split
    · rename_i c' next
      exact ih (kept.round ordered here next)
    · nofun

theorem callFits (kept : HeadersKept response bod received c) (ordered : FaOrdered response bod)
    (all : final = true → received = response.length) : CallFits client final c := by
  intro b loop c' mem
  obtain ⟨rfl, here⟩ := kept.loopBod_eq ordered loop
  rw [callStates, loop] at mem
  exact (kept.roundStates ordered here c' mem).roundFits ordered here all

/-- The loop leaves the headers as they were sent. -/
theorem loop (kept : HeadersKept response bod received c) (ordered : FaOrdered response bod)
    (here : bod ≤ received) {fuel : Nat} {flow : FaFlow} {c' : FaChannel}
    (ends : parseLoop client final bod fuel c = .ok (flow, c')) :
    HeadersKept response bod received c' := by
  induction fuel generalizing c with
  | zero =>
    cases ends
    exact kept
  | succ fuel ih =>
    rw [parseLoop] at ends
    split at ends
    · rename_i next
      exact ih (kept.round ordered here next) ends
    · rename_i other
      rw [parseRound_stops ends (by rintro rfl; exact other _ ends)]
      exact kept

/-- `faf_failed` changes the pending fetches only. -/
theorem failed (kept : HeadersKept response bod received c) (fac : Int) :
    HeadersKept response bod received (fafFailed client fac c) :=
  ⟨kept.length, kept.headers, kept.completed⟩

theorem call (kept : HeadersKept response bod received c) (ordered : FaOrdered response bod)
    {fac : Int} {c' : FaChannel} (called : parse client fac final c = .ok c') :
    HeadersKept response bod received c' := by
  have either : ∀ {given : Bool} {c₁ : FaChannel}, HeadersKept response bod received c₁ →
      HeadersKept response bod received (if given then fafFailed client fac c₁ else c₁) := by
    intro given c₁ kept
    split
    · exact kept.failed fac
    · exact kept
  unfold parse at called
  dsimp only at called
  split at called
  · cases called
    exact either kept
  · rename_i h b header
    split at called
    · cases called
      exact either kept
    · rename_i there
      have loop : loopBod c = some b := by
        rw [loopBod, header]
        exact if_neg there
      obtain ⟨rfl, here⟩ := kept.loopBod_eq ordered loop
      split at called
      · cases called
      · rename_i ends
        cases called
        exact (kept.loop ordered here ends).failed fac
      · rename_i ends
        cases called
        exact either (kept.loop ordered here ends)

theorem receive (kept : HeadersKept response bod received c) (bound : received ≤ response.length)
    {piece : Bytes} (next : (response.drop received).take piece.length = piece) :
    HeadersKept response bod (received + piece.length) { c with data := c.data ++ piece } := by
  refine ⟨?_, ?_, kept.completed⟩
  · rw [List.length_append, kept.length]
  · rw [List.take_add, next, List.take_append, List.take_append, kept.headers, kept.length,
      List.length_take, Nat.min_eq_left bound]

end HeadersKept

/-- Every call in a run in which an ordered response arrives fits. -/
theorem FaOrdered.meets {response : Bytes} {bod : Nat} (ordered : FaOrdered response bod)
    {events : List FaEvent} {received : Nat} {c : FaChannel} {log : List FaAccess}
    (kept : HeadersKept response bod received c) (bound : received ≤ response.length)
    (arrives : Arrives response received events) :
    Meets faStep CallsFit ⟨.ok c, log⟩ events := by
  induction events generalizing received c log with
  | nil => trivial
  | cons e rest ih =>
    cases e with
    | receive piece =>
      obtain ⟨next, arrives⟩ := arrives
      have more : piece.length ≤ response.length - received := by
        rw [← List.length_drop, ← next]
        exact List.length_take_le' _ _
      exact ⟨nofun, ih (kept.receive bound next) (by omega) arrives⟩
    | pending fafs =>
      exact ⟨nofun, ih ⟨kept.length, kept.headers, kept.completed⟩ bound arrives⟩
    | dispatch => exact arrives.elim
    | parse client fac final =>
      obtain ⟨all, arrives⟩ := arrives
      have fits : CallFits client final c := kept.callFits ordered all
      refine ⟨?_, ?_⟩
      · intro _ channel _ _ _ call
        cases channel
        cases call
        exact fits
      · have inBounds := (callAccesses_inBounds_iff client final c).mpr fits
        obtain ⟨c', called⟩ := (parse_ok_iff client fac final c).mpr fun a mem _ => inBounds a mem
        rw [faStep]
        dsimp only
        rw [called]
        exact ih (kept.call ordered called) bound arrives

/-- Over any run of a channel, all accesses are within bounds exactly if every round of every
call meets its condition, and only a read or write outside the data makes it fail. Every round meets
the condition if an ordered response arrives, in any pieces and with any calls in between. -/
theorem accesses_inBounds_iff (c : FaChannel) (events : List FaEvent) :
    ((∀ a ∈ (run faStep ⟨.ok c, []⟩ events).log, a.InBounds) ↔
      Meets faStep CallsFit ⟨.ok c, []⟩ events) ∧
      ((∃ c', (run faStep ⟨.ok c, []⟩ events).channel = .ok c') ↔
        Covered (run faStep ⟨.ok c, []⟩ events).log) ∧
      ∀ response bod, FaOrdered response bod → c.data = [] → c.completed = 0 →
        Arrives response 0 events → Meets faStep CallsFit ⟨.ok c, []⟩ events := by
  refine ⟨?_, channel_ok_iff _ events ⟨fun _ => covered_nil, fun _ => ⟨c, rfl⟩⟩, ?_⟩
  · rw [log_inBounds_iff]
    exact and_iff_right nofun
  · intro response bod ordered empty fresh arrives
    have kept : HeadersKept response bod 0 c :=
      ⟨by rw [empty]; rfl, by rw [empty, List.take_zero],
        by rw [fresh]; exact Nat.dvd_zero _⟩
    exact ordered.meets kept (Nat.zero_le _) arrives

/-- A header whose first position is below the size of a header. -/
def lowPosition : List FaEvent := [.receive (List.replicate 12 0), .parse sampleClient 0 false]

/-- The loop limit wraps around, and the parser looks for a second header. -/
theorem lowPosition_overrun :
    ¬ ∀ (fafs : List (UInt64 × FileAttributeFetch)) (events : List FaEvent),
      ∀ a ∈ (run faStep ⟨.ok ⟨[], 0, fafs, []⟩, []⟩ events).log, a.InBounds := by
  intro always
  have wraps := always [(0, ⟨0, 0, 0, true, 0, 0⟩)] lowPosition (.difference 0 faPosSize)
    (by decide)
  revert wraps
  decide

end MegaSdk.Xfer
