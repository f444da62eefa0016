import MegaSdk.Api.RequestQueue
import MegaSdk.Lib.Odometer
import Mathlib.Data.Nat.Digits.Defs

/-!
# Session and request ids

The constructor of `MegaClient` draws two ids of ten letters, and `exec` moves on to the next
request id with each reply. A number below a bound is drawn by a division of the random word by
the truncated quotient of 2^32 and the bound, so that the last words give the bound itself.
-/

namespace MegaSdk.Api

open Runs

/-- The divisor in `PrnGen::genuint32(max)`. -/
def unit (max : UInt64) : UInt64 := ((~~~(0 : UInt32)).toUInt64 + 1) / max

/-- `PrnGen::genuint32(max)` on a random word; a division by zero has no value. -/
def genuint32 (max : UInt64) (t : UInt32) : Option UInt32 :=
  if max = 0 ∨ unit max = 0 then none else some (t.toUInt64 / unit max).toUInt32

/-- A character of a new id: `'a' + PrnGen::genuint32(26)`. -/
def randomChar (t : UInt32) : Option UInt8 := (genuint32 26 t).map fun v => (97 + v).toUInt8

/-- A new id; the loop starts with the last character. -/
def randomId (words : Vector UInt32 10) : Option Bytes := words.toList.reverse.mapM randomChar

structure Session where
  sessionid : Bytes
  client : Client

namespace Session

/-- The ids that `MegaClient::MegaClient` draws. -/
def construct (sessionWords reqWords : Vector UInt32 10) : Option Session := do
  let sessionid ← randomId sessionWords
  let reqid ← randomId reqWords
  return ⟨sessionid, .start reqid⟩

def step (s : Session) (e : Event) : Session := { s with client := s.client.step e }

end Session

def IsLetter (c : UInt8) : Prop := 97 ≤ c ∧ c ≤ 122

structure IsId (id : Bytes) : Prop where
  length : id.length = 10
  letters : ∀ c ∈ id, IsLetter c

def digit (c : UInt8) : ℕ := c.toNat - 97

def number (id : Bytes) : ℕ := Nat.ofDigits 26 (id.reverse.map digit)

/-- The iteration of the loop in `exec` processes the reply to a request. -/
def Processes (s : Client) : Event → Prop
  | .pass _ _ _ => ∃ q, s.pendingcs = some q ∧ Client.Answered q
  | _ => False

/-- A processed request moves the request id on by one, and nothing else changes it. -/
structure Successor (s : Client) (e : Event) : Prop where
  next : Processes s e → number (s.step e).reqid = (number s.reqid + 1) % 26 ^ 10
  same : ¬Processes s e → (s.step e).reqid = s.reqid

/-- What the ids do in a run: both are ten lowercase letters all the time, processed requests
advance the request id, and within 26^10 of them it does not come back. -/
structure Advances (s : Session) (events : List Event) : Prop where
  wellFormed : Always Session.step (fun s => IsId s.sessionid ∧ IsId s.client.reqid) s events
  successors : ∀ done e rest, events = done ++ e :: rest →
    Successor (run Session.step s done).client e
  fresh : ∀ done more rest, events = done ++ more ++ rest →
    let i := (run Session.step s done).client.log.processed.length
    let j := (run Session.step s (done ++ more)).client.log.processed.length
    i < j → j < i + 26 ^ 10 →
      (run Session.step s done).client.reqid ≠ (run Session.step s (done ++ more)).client.reqid

/-- The words on which `genuint32(max)` stays below `max`. -/
def Uniform (max : ℕ) (t : UInt32) : Prop := t.toNat < max * (2 ^ 32 / max)

instance (max : ℕ) (t : UInt32) : Decidable (Uniform max t) :=
  inferInstanceAs (Decidable (_ < _))

theorem toNat_unit (max : UInt64) : (unit max).toNat = 2 ^ 32 / max.toNat := by
  have range : ((~~~(0 : UInt32)).toUInt64 + 1).toNat = 2 ^ 32 := by decide
  rw [unit, UInt64.toNat_div, range]

theorem genuint32_eq (max : UInt64) (t : UInt32) :
    genuint32 max t = if max = 0 ∨ unit max = 0 then none
      else some (UInt32.ofNat (t.toNat / (2 ^ 32 / max.toNat))) := by
  have value : (t.toUInt64 / unit max).toUInt32 =
      UInt32.ofNat (t.toNat / (2 ^ 32 / max.toNat)) := by
    apply UInt32.toNat_inj.mp
    rw [UInt64.toNat_toUInt32, UInt64.toNat_div, toNat_unit, UInt32.toNat_toUInt64,
      UInt32.toNat_ofNat']
  rw [genuint32, value]

/-- A number below the bound is drawn exactly on the words that the truncated division serves;
for the bound zero and the bounds above 2^32 that is no word. -/
theorem genuint32_below_iff (max : UInt64) (t : UInt32) :
    (∃ v, genuint32 max t = some v ∧ v.toNat < max.toNat) ↔ Uniform max.toNat t := by
  have word : t.toNat / (2 ^ 32 / max.toNat) < 2 ^ 32 :=
    Nat.lt_of_le_of_lt (Nat.div_le_self _ _) t.toNat_lt
  rw [genuint32_eq, Uniform]
  split
  · rename_i undefined
    have none : max.toNat * (2 ^ 32 / max.toNat) = 0 := by
      rw [← toNat_unit]
      rcases undefined with zero | zero
      · rw [zero]
        exact Nat.zero_mul _
      · rw [zero]
        exact Nat.mul_zero _
    rw [none]
    simp
  · rename_i defined
    have positive : 0 < 2 ^ 32 / max.toNat := by
      rw [← toNat_unit, Nat.pos_iff_ne_zero]
      exact fun zero => defined (.inr (UInt64.toNat_inj.mp zero))
    have value : (UInt32.ofNat (t.toNat / (2 ^ 32 / max.toNat))).toNat =
        t.toNat / (2 ^ 32 / max.toNat) := by
      rw [UInt32.toNat_ofNat', Nat.mod_eq_of_lt word]
    rw [← Nat.div_lt_iff_lt_mul positive]
    constructor
    · rintro ⟨v, drawn, below⟩
      rwa [← Option.some.inj drawn, value] at below
    · exact fun below => ⟨_, rfl, value.symm ▸ below⟩

/-- The character for a word; the last words give the one after `z`. -/
def charOf (t : UInt32) : UInt8 := (97 + UInt32.ofNat (t.toNat / 165191049)).toUInt8

theorem randomChar_eq (t : UInt32) : randomChar t = some (charOf t) := by
  have range : ¬((26 : UInt64) = 0 ∨ unit 26 = 0) := by decide
  rw [randomChar, genuint32_eq, if_neg range]
  rfl

theorem charOf_isLetter_iff (t : UInt32) : IsLetter (charOf t) ↔ Uniform 26 t := by
  have small : t.toNat / 165191049 < 27 := by
    have bound := t.toNat_lt
    omega
  have each : ∀ q < 27, IsLetter (97 + UInt32.ofNat q).toUInt8 ↔ q < 26 := by
    simp only [IsLetter]
    decide
  have share : 26 * (2 ^ 32 / 26) = 26 * 165191049 := by decide
  rw [charOf, each _ small, Uniform, share]
  omega

theorem randomId_eq (words : Vector UInt32 10) :
    randomId words = some (words.toList.reverse.map charOf) := by
  have drawn : randomChar = fun t => pure (charOf t) := funext randomChar_eq
  rw [randomId, drawn]
  exact List.mapM_pure

theorem randomId_isId_iff (words : Vector UInt32 10) :
    IsId (words.toList.reverse.map charOf) ↔ ∀ t ∈ words.toList, Uniform 26 t := by
  constructor
  · intro id t mem
    rw [← charOf_isLetter_iff]
    exact id.letters _ (List.mem_map_of_mem (List.mem_reverse.mpr mem))
  · intro uniform
    constructor
    · simp
    · intro c mem
      obtain ⟨t, drawn, rfl⟩ := List.mem_map.mp mem
      exact (charOf_isLetter_iff t).mpr (uniform t (List.mem_reverse.mp drawn))

theorem digit_bound : ∀ c : UInt8, IsLetter c → digit c < 26 := by
  simp only [IsLetter, digit]
  exact forall_byte (by decide +kernel)

/-- On letters `bump` advances the digits. -/
theorem digits_bump {cs : Bytes} (letters : ∀ c ∈ cs, IsLetter c) :
    (bump cs).map digit = Odometer.advance 26 (cs.map digit) ∧ ∀ c ∈ bump cs, IsLetter c := by
  have last : ∀ c : UInt8, IsLetter c → (c.toInt8 < 122 ↔ digit c + 1 < 26) := by
    simp only [IsLetter, digit]
    exact forall_byte (by decide +kernel)
  have more : ∀ c : UInt8, IsLetter c → digit c + 1 < 26 →
      digit (c + 1) = digit c + 1 ∧ IsLetter (c + 1) := by
    simp only [IsLetter, digit]
    exact forall_byte (by decide +kernel)
  induction cs with
  | nil => exact ⟨rfl, letters⟩
  | cons c rest ih =>
    obtain ⟨first, others⟩ := List.forall_mem_cons.mp letters
    obtain ⟨digits, kept⟩ := ih others
    rw [bump, List.map_cons, Odometer.advance]
    by_cases room : digit c + 1 < 26
    · obtain ⟨value, letter⟩ := more c first room
      rw [if_pos ((last c first).mpr room), if_pos room, List.map_cons, value]
      exact ⟨rfl, List.forall_mem_cons.mpr ⟨letter, others⟩⟩
    · rw [if_neg (room ∘ (last c first).mp), if_neg room, List.map_cons, digits]
      exact ⟨rfl, List.forall_mem_cons.mpr ⟨⟨by decide, by decide⟩, kept⟩⟩

theorem length_bump (cs : Bytes) : (bump cs).length = cs.length := by
  induction cs with
  | nil => rfl
  | cons c rest ih =>
    rw [bump]
    split
    · rfl
    · simp only [List.length_cons, ih]

theorem IsId.digits {id : Bytes} (isId : IsId id) : ∀ d ∈ id.reverse.map digit, d < 26 := by
  intro d mem
  obtain ⟨c, inside, rfl⟩ := List.mem_map.mp mem
  exact digit_bound c (isId.letters c (List.mem_reverse.mp inside))

/-- The next id is the successor, in ten letters again. -/
theorem IsId.next {id : Bytes} (isId : IsId id) :
    IsId (nextReqid id) ∧ number (nextReqid id) = (number id + 1) % 26 ^ 10 := by
  have letters : ∀ c ∈ id.reverse, IsLetter c := fun c mem =>
    isId.letters c (List.mem_reverse.mp mem)
  obtain ⟨digits, kept⟩ := digits_bump letters
  constructor
  · constructor
    · rw [nextReqid, List.length_reverse, length_bump, List.length_reverse, isId.length]
    · exact fun c mem => kept c (List.mem_reverse.mp mem)
  · have advanced := Odometer.ofDigits_advance (by decide) isId.digits
    rw [← digits, List.length_map, List.length_reverse, isId.length] at advanced
    rw [number, nextReqid, List.reverse_reverse]
    exact advanced

namespace Client
variable {s : Client}

/-- Handlers leave the id and the record of processed requests alone. -/
theorem callbacks_keep (s : Client) (calls : List Callback) :
    (calls.foldl callback s).reqid = s.reqid ∧
      (calls.foldl callback s).log.processed = s.log.processed := by
  induction calls generalizing s with
  | nil => exact ⟨rfl, rfl⟩
  | cons call rest ih =>
    obtain ⟨id, log⟩ := ih (s.callback call)
    rw [List.foldl_cons, id, log]
    cases call with
    | add json => exact ⟨rfl, rfl⟩
    | fetchNodes cached =>
      rw [callback, fetchNodes]
      split
      · exact ⟨rfl, rfl⟩
      · split
        · exact ⟨rfl, rfl⟩
        · exact ⟨rfl, rfl⟩

theorem procCommands_keep (s : Client) (cmds : List Command) (calls : List (List Callback)) :
    (procCommands cmds calls s).reqid = s.reqid ∧
      (procCommands cmds calls s).log.processed = s.log.processed := by
  induction cmds generalizing s calls with
  | nil => exact ⟨rfl, rfl⟩
  | cons c rest ih =>
    rw [procCommands]
    split
    · obtain ⟨id, log⟩ := ih ((calls.headD []).foldl callback { s with fetchingNodes := false })
        calls.tail
      obtain ⟨id', log'⟩ := callbacks_keep { s with fetchingNodes := false } (calls.headD [])
      exact ⟨id.trans id', log.trans log'⟩
    · obtain ⟨id, log⟩ := ih ((calls.headD []).foldl callback s) calls.tail
      obtain ⟨id', log'⟩ := callbacks_keep s (calls.headD [])
      exact ⟨id.trans id', log.trans log'⟩

theorem succeed_advances (s : Client) (q : HttpReq) (calls : List (List Callback)) :
    (s.succeed q calls).reqid = nextReqid s.reqid ∧
      (s.succeed q calls).log.processed.length = s.log.processed.length + 1 := by
  obtain ⟨id, log⟩ := procCommands_keep (s.logResult q) (s.reqs (!s.r)) calls
  constructor
  · exact congrArg nextReqid id
  · exact congrArg List.length log

theorem handlePending_answered {q : HttpReq} (pending : s.pendingcs = some q)
    (answered : Answered q) (ds : DsTime) (calls : List (List Callback)) :
    s.handlePending ds calls = s.succeed q calls := by
  obtain ⟨success, three, four, array⟩ := answered
  simp only [handlePending, pending, success]
  rw [if_pos ⟨three, four⟩, if_pos array]

theorem submit_keeps (s : Client) (ds : DsTime) (postOk : Bool) :
    (s.submit ds postOk).reqid = s.reqid ∧
      (s.submit ds postOk).log.processed = s.log.processed := by
  rw [submit]
  split
  · dsimp only
    split <;> split <;> exact ⟨rfl, rfl⟩
  · exact ⟨rfl, rfl⟩

theorem not_answered_of_rejected {q : HttpReq} (rejected : Rejected q) : ¬Answered q := by
  rintro ⟨success, notThree, notFour, -⟩
  rcases rejected with failure | ⟨-, three | four⟩
  · rw [failure] at success
    cases success
  · exact notThree three
  · exact notFour four

end Client

/-- A step either processes a reply and advances the id, or leaves both alone. -/
theorem step_ids (s : Client) (e : Event) :
    (Processes s e ∧ (s.step e).reqid = nextReqid s.reqid ∧
        (s.step e).log.processed.length = s.log.processed.length + 1) ∨
      (¬Processes s e ∧ (s.step e).reqid = s.reqid ∧
        (s.step e).log.processed.length = s.log.processed.length) := by
  cases e with
  | add json => exact .inr ⟨id, rfl, rfl⟩
  | fetchNodes cached =>
    obtain ⟨same, log⟩ := Client.callbacks_keep s [.fetchNodes cached]
    exact .inr ⟨id, same, congrArg List.length log⟩
  | arrive ok input =>
    refine .inr ⟨id, ?_⟩
    rw [Client.step, Client.arrive]
    split
    · split
      · exact ⟨rfl, rfl⟩
      · exact ⟨rfl, rfl⟩
    · exact ⟨rfl, rfl⟩
  | pass ds postOk calls =>
    have tail : (s.pass ds postOk calls).reqid = (s.handlePending ds calls).reqid ∧
        (s.pass ds postOk calls).log.processed = (s.handlePending ds calls).log.processed := by
      rw [Client.pass]
      split
      · exact ⟨rfl, rfl⟩
      · exact Client.submit_keeps _ ds postOk
    rw [Client.step, tail.1, tail.2]
    rcases s.handlePending_cases ds calls with
      same | ⟨q, pending, answered, same⟩ | ⟨q, pending, refused, same⟩
    · rw [same]
      refine .inr ⟨?_, rfl, rfl⟩
      rintro ⟨q, pending, answered⟩
      have done := congrArg Client.pendingcs same
      rw [Client.handlePending_answered pending answered, pending] at done
      cases done
    · rw [same]
      obtain ⟨next, counted⟩ := Client.succeed_advances s q calls
      exact .inl ⟨⟨q, pending, answered⟩, next, counted⟩
    · rw [same]
      refine .inr ⟨?_, rfl, rfl⟩
      rintro ⟨p, pending', answered⟩
      obtain rfl := Option.some.inj (pending.symm.trans pending')
      exact Client.not_answered_of_rejected refused answered
  | wait ds =>
    refine .inr ⟨id, ?_⟩
    rw [Client.step]
    split
    · exact ⟨rfl, rfl⟩
    · exact ⟨rfl, rfl⟩
  | abortBackoff ds => exact .inr ⟨id, rfl, rfl⟩

/-- The ids are well formed, and the request id counts the processed requests. -/
structure Counting (first : ℕ) (s : Session) : Prop where
  session : IsId s.sessionid
  request : IsId s.client.reqid
  count : number s.client.reqid = (first + s.client.log.processed.length) % 26 ^ 10

theorem number_lt {id : Bytes} (isId : IsId id) : number id < 26 ^ 10 := by
  have bound := Nat.ofDigits_lt_base_pow_length (by decide) isId.digits
  rwa [List.length_map, List.length_reverse, isId.length] at bound

theorem Counting.start {sessionid reqid : Bytes} (session : IsId sessionid)
    (request : IsId reqid) : Counting (number reqid) ⟨sessionid, .start reqid⟩ where
  session := session
  request := request
  count := (Nat.mod_eq_of_lt (number_lt request)).symm

theorem Counting.step {first : ℕ} {s : Session} (counting : Counting first s) (e : Event) :
    Counting first (s.step e) := by
  rcases step_ids s.client e with ⟨-, next, counted⟩ | ⟨-, same, counted⟩
  · obtain ⟨isId, successor⟩ := counting.request.next
    constructor
    · exact counting.session
    · exact next.symm ▸ isId
    · rw [Session.step, next, counted, successor, counting.count, Nat.mod_add_mod, Nat.add_assoc]
  · constructor
    · exact counting.session
    · exact same.symm ▸ counting.request
    · rw [Session.step, same, counted, counting.count]

theorem Counting.successor {first : ℕ} {s : Session} (counting : Counting first s) (e : Event) :
    Successor s.client e := by
  rcases step_ids s.client e with ⟨processes, next, -⟩ | ⟨not, same, -⟩
  · constructor
    · intro _
      rw [next]
      exact counting.request.next.2
    · exact fun not => absurd processes not
  · constructor
    · exact fun processes => absurd processes not
    · exact fun _ => same

/-- From well-formed ids a run does what is expected of it. -/
theorem Counting.advances {first : ℕ} {s : Session} (counting : Counting first s)
    (events : List Event) : Advances s events := by
  have always : Always Session.step (Counting first) s events :=
    always_of_step (fun s e inv => inv.step e) counting events
  have parts := always_iff_parts.mp always
  constructor
  · exact always.mono fun s inv => ⟨inv.session, inv.request⟩
  · intro done e rest split
    exact (parts done (e :: rest) split).successor e
  · intro done more rest split i j later within same
    have before := (parts done (more ++ rest) (by rw [split, List.append_assoc])).count
    have after := (parts (done ++ more) rest split).count
    rw [← same, before] at after
    exact Odometer.ne_of_within later within after

/-- Numbers below a bound are drawn exactly on the words that the truncated division serves, and
the ids of a client are well formed and advance exactly if all twenty words are such words. -/
theorem ids_advance_iff (max : UInt64) (t : UInt32) (sessionWords reqWords : Vector UInt32 10)
    (events : List Event) :
    ((∃ v, genuint32 max t = some v ∧ v.toNat < max.toNat) ↔ Uniform max.toNat t) ∧
    ((∃ s, Session.construct sessionWords reqWords = some s ∧ Advances s events) ↔
      ∀ t ∈ sessionWords.toList ++ reqWords.toList, Uniform 26 t) := by
  refine ⟨genuint32_below_iff max t, ?_⟩
  have built : Session.construct sessionWords reqWords =
      some ⟨sessionWords.toList.reverse.map charOf, .start (reqWords.toList.reverse.map charOf)⟩ := by
    simp [Session.construct, randomId_eq]
  rw [List.forall_mem_append, ← randomId_isId_iff, ← randomId_isId_iff]
  constructor
  · rintro ⟨s, drawn, advances⟩
    obtain rfl := Option.some.inj (built.symm.trans drawn)
    exact advances.wellFormed.start
  · rintro ⟨session, request⟩
    exact ⟨_, built, (Counting.start session request).advances events⟩

/-- The greatest word gives the character after `z`. -/
theorem greatest_word_leaves_letters :
    genuint32 26 0xFFFFFFFF = some 26 ∧
    ¬∀ sessionWords reqWords events, ∃ s,
      Session.construct sessionWords reqWords = some s ∧ Advances s events := by
  refine ⟨by decide, fun always => ?_⟩
  let zeros : Vector UInt32 10 := Vector.replicate 10 0
  obtain ⟨s, drawn, advances⟩ := always (zeros.set 0 0xFFFFFFFF) zeros []
  have session : randomId (zeros.set 0 0xFFFFFFFF) = some (ascii "aaaaaaaaa\x7b") := by
    decide +kernel
  have request : randomId zeros = some (ascii "aaaaaaaaaa") := by decide +kernel
  rw [Session.construct, session, request] at drawn
  obtain rfl := Option.some.inj drawn
  have letter := advances.wellFormed.1.letters 123 (by decide)
  exact absurd letter.2 (by decide)

end MegaSdk.Api
