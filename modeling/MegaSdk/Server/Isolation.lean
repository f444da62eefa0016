import MegaSdk.Server.Packets

/-!
# Isolation of action packets

A packet is regular if its handler does not lead the cursor out of it. The effect of a
regular packet depends on its own text and on the client only, and the packets of a
response are then processed one by one.
-/

namespace MegaSdk.Server

open Json

def TreeObject (v : Bytes) : Prop :=
  ∃ ms, v = object ms ∧ Legible ms ∧ ∀ m ∈ ms,
    (nameid m.1 = nameid (ascii "f") →
      Enters (· = openArray) (RecordArray True nodeColumns) m.2) ∧
    (nameid m.1 = nameid (ascii "u") →
      Enters (· = openArray) (RecordArray True userColumns) m.2)

/-- The node list of a key packet: strings, and all but the last one name known nodes. -/
def NodeList {σ : Type} (client : Client σ) (t : σ) (v : Bytes) : Prop :=
  ∃ xs, v = array xs ∧ (∀ x ∈ xs, IsValue x ∧ peek x = quote) ∧
    ∀ x ∈ xs.dropLast, ∃ h, handleOf 6 (Base64.atob (skip quote x) 9) = some h ∧
      client.nodebyhandle t (some h)

/-- A user attribute packet whose list is not entered: no user that was named before is known. -/
def UserattrAdmits {σ : Type} (client : Client σ) (t : σ) : Handle → List Member → Prop
  | _, [] => True
  | uh, m :: ms =>
    if nameid m.1 = nameid (ascii "u") then
      UserattrAdmits client t
        (if peek m.2 = quote then handleOf 8 (Base64.atob (skip quote m.2) 9) else none) ms
    else
      (nameid m.1 = nameid (ascii "ua") → peek m.2 = openArray →
        ¬(uh.isSome ∧ client.finduser t uh)) ∧ UserattrAdmits client t uh ms

/-- The members that the handler of a packet type reads have the kinds it can read. -/
structure Admitted {σ : Type} (client : Client σ) (t : σ) (name : UInt64) (ms : List Member) :
    Prop where
  legible : Legible ms
  columns : ∀ handler after, handlerOf client name = some (handler, after) → ∀ m ∈ ms, ∀ kind,
    handler.columns.kind (nameid m.1) = some kind → kind.Admits True m.2
  tree : name = nameid (ascii "t") → ∀ m ∈ ms, nameid m.1 = nameid (ascii "t") →
    Enters (· = openObject) TreeObject m.2
  users : name = nameid (ascii "t") ∨ name = nameid (ascii "c") → ∀ m ∈ ms,
    nameid m.1 = nameid (ascii "u") → Enters (· = openArray) (RecordArray True userColumns) m.2
  requests : name = nameid (ascii "k") → ∀ m ∈ ms, nameid m.1 = nameid (ascii "sr") →
    Enters (· = openArray) SrArray m.2
  responses : name = nameid (ascii "k") → ∀ m ∈ ms, nameid m.1 = nameid (ascii "cr") →
    Enters (fun c => c = openArray ∨ c = openObject) CrValue m.2
  nodes : name = nameid (ascii "k") → ∀ m ∈ ms, nameid m.1 = nameid (ascii "n") →
    Enters (· = openArray) (NodeList client t) m.2
  attributes : name = nameid (ascii "ua") → UserattrAdmits client t none ms

/-- A packet: the value of its `a` member, which comes first, and the other members. -/
structure Packet where
  type : Bytes
  others : List Member

def Packet.members (p : Packet) : List Member := (ascii "a", p.type) :: p.others

def Packet.text (p : Packet) : Bytes := object p.members

/-- A packet that is read to its end. A type that is a string has to be followed by another
member: `getnameid` skips the character behind its closing quote. -/
structure Regular {σ : Type} (client : Client σ) (t : σ) (p : Packet) : Prop where
  value : IsValue p.type
  formed : WellFormed p.others
  typed : peek p.type = quote → ∃ name, p.type = str name ∧ Plain name ∧ p.others ≠ [] ∧
    (selfMarker client <+: separated (p.others.map member) ∨
      handlerOf client (nameid name) = none ∨ Admitted client t (nameid name) p.others)

section Handlers
variable {σ : Type} (client : Client σ)

theorem callField_fits {f : Function σ} {inv : σ → Prop} {behind : Follow} {t : Locals × σ}
    {v : Bytes} (fits : Fits False behind (calls f) inv t.2 v) :
    Fits False behind (callField f) (fun t => inv t.2) t v := by
  obtain ⟨t', holds, outcome⟩ := fits
  have lifts : ∀ s s', calls f t.2 s = .ok (.next, t', s') →
      callField f t s = .ok (.next, (t.1, t'), s') := by
    intro s s' called
    rw [calls] at called
    rw [callField]
    cases result : f t.2 s with
    | error fault =>
      rw [result] at called
      cases called
    | ok x =>
      obtain ⟨b, t'', s''⟩ := x
      rw [result] at called
      cases called
      rfl
  refine ⟨(t.1, t'), holds, ?_⟩
  rcases outcome with takes | ⟨other, leaves⟩ | ⟨allowed, -⟩
  · exact .inl fun rest follows => lifts _ _ (takes rest follows)
  · exact .inr (.inl ⟨other, fun rest follows => lifts _ _ (leaves rest follows)⟩)
  · exact absurd allowed id

/-- The run of a handler over the members of a packet ends somewhere inside the packet. -/
def Handler.EndsInside (handler : Handler σ) (t : σ) (ms : List Member) : Prop :=
  ∃ t' left, Remainder left ∧ ∀ rest,
    handler.run t (separated (ms.map member) ++ closeObject :: rest) =
      .ok (t', left ++ closeObject :: rest)

/-- A handler ends somewhere inside its packet. -/
theorem Handler.run_isolated (handler : Handler σ) (inv : σ → Prop) {ms : List Member}
    (legible : Legible ms)
    (columns : ∀ m ∈ ms, ∀ kind, handler.columns.kind (nameid m.1) = some kind →
      kind.Admits True m.2)
    (called : ∀ behind : Follow, behind.Admissible True → ∀ t : Locals × σ, inv t.2 → ∀ m ∈ ms,
      ∀ read, handler.call (nameid m.1) = some read →
        Fits False behind read (fun t => inv t.2) t m.2)
    {t : σ} (holds : inv t) : handler.EndsInside t ms := by
  have fits : ∀ behind : Follow, behind.Admissible True → ∀ t : Locals × σ, inv t.2 →
      ∀ m ∈ ms, ∀ read, handler.cases (nameid m.1) = some read →
        Fits False behind read (fun t => inv t.2) t m.2 := by
    intro behind admissible t holds m mem read case
    rcases Option.or_eq_some_iff.mp case with column | ⟨-, call⟩
    · obtain ⟨kind, found, rfl⟩ := Columns.cases_eq_some column
      exact kind.fits_assign inv (nameid m.1) (legible m mem).2 (columns m mem kind found)
        admissible holds
    · exact called behind admissible t holds m mem read call
  obtain ⟨flow, t', left, -, ended, run⟩ := @run_of_fits _ True False anything _ ms
    (fun t => inv t.2) legible isolated_anything fits ([], t) holds
  obtain rfl := ended id
  refine ⟨handler.finish t'.1 t'.2, left, run.remainder legible.wellFormed, fun rest => ?_⟩
  rw [Handler.run, members_run run trivial]

theorem readusers_reads :
    Reads (fun _ => True) (readusers client) (RecordArray True userColumns) := by
  intro v shape t _
  obtain ⟨t', takes⟩ := readrecords_array anything shape
    isolated_anything t
  exact ⟨true, t', trivial, fun rest => takes rest trivial⟩

theorem readnodes_reads (notify : Bool) :
    Reads (fun _ => True) (readnodes client notify) (RecordArray True nodeColumns) := by
  intro v shape t _
  obtain ⟨t', takes⟩ := readrecords_array anything shape
    isolated_anything t
  exact ⟨true, t', trivial, fun rest => takes rest trivial⟩

theorem readrecords_ignores (columns : Columns) (finish : Locals → σ → σ) (reject : Flow)
    (last : σ → σ) : Ignores (readrecords columns finish reject last) (· = openArray) :=
  fun _ value other => ⟨false, fun t rest => readrecords_other value other t rest⟩

theorem readtree_reads : Reads (fun _ => True) (readtree client) TreeObject := by
  rintro v ⟨ms, rfl, legible, enters⟩ t holds
  have fits : ∀ behind : Follow, behind.Admissible True → ∀ t : σ, True → ∀ m ∈ ms, ∀ read,
      readtreeCases client (nameid m.1) = some read →
        Fits False behind read (fun _ => True) t m.2 := by
    intro behind _ t holds m mem read case
    have value := (legible m mem).2
    rw [readtreeCases] at case
    split at case
    · rename_i nodes
      cases case
      exact calls_fits _ (readnodes_reads client true) (readrecords_ignores _ _ _ _) value
        ((enters m mem).1 nodes) holds
    · split at case
      · rename_i users
        cases case
        exact calls_fits _ (readusers_reads client) (readrecords_ignores _ _ _ _) value
          ((enters m mem).2 users) holds
      · cases case
  obtain ⟨t', -, takes⟩ := inobject_object (fun _ => True) legible fits holds
  refine ⟨true, t', trivial, fun rest => ?_⟩
  rw [readtree, enterobject_object]
  exact takes rest

theorem readtree_ignores : Ignores (readtree client) (· = openObject) := by
  intro v value other
  refine ⟨true, fun t rest => ?_⟩
  rw [readtree, enterobject_other (value.starts rest) (by rwa [peek_append value.ne_nil])]

def SameNodes (t₀ t : σ) : Prop := ∀ h, client.nodebyhandle t h = client.nodebyhandle t₀ h

theorem sameNodes_requests (t₀ : σ) (call : Call) (t : σ) (requests : call.Requests)
    (same : SameNodes client t₀ t) : SameNodes client t₀ (client.perform call t) :=
  fun h => (client.requests call t h requests).trans (same h)

/-- The loop over the nodes of a key packet ends at the bracket. -/
theorem loopFrom_knodes {t₀ : σ} (id : UInt64) {xs : List Bytes}
    (strings : ∀ x ∈ xs, IsValue x ∧ peek x = quote)
    (known : ∀ x ∈ xs.dropLast, ∃ h, handleOf 6 (Base64.atob (skip quote x) 9) = some h ∧
      client.nodebyhandle t₀ (some h))
    {t : Locals × σ} (same : SameNodes client t₀ t.2) :
    ∃ t', SameNodes client t₀ t'.2 ∧ ∀ rest fuel, xs.length < fuel →
      loopFrom (knodesRound client id) fuel t (commas xs ++ closeArray :: rest) =
        .ok (.ended, t', closeArray :: rest) := by
  have ends : ∀ (t : Locals × σ) rest fuel, 0 < fuel →
      loopFrom (knodesRound client id) fuel t (closeArray :: rest) =
        .ok (.ended, t, closeArray :: rest) := by
    intro t rest fuel enough
    obtain ⟨fuel, rfl⟩ : ∃ f, fuel = f + 1 := ⟨fuel - 1, by omega⟩
    exact loopFrom_last fuel rfl (by decide)
  induction xs generalizing t with
  | nil => exact ⟨t, same, fun rest fuel enough => ends t rest fuel (by omega)⟩
  | cons x xs ih =>
    obtain ⟨value, string⟩ := strings x List.mem_cons_self
    have reads : ∀ rest, Stop rest → gethandle 6 (comma :: (x ++ rest)) =
        (handleOf 6 (Base64.atob (skip quote x) 9), rest) := by
      intro rest stop
      rw [gethandle_comma (value.starts rest), gethandle_value value string stop]
    by_cases goes : ∃ h, handleOf 6 (Base64.atob (skip quote x) 9) = some h ∧
        client.nodebyhandle t₀ (some h)
    · obtain ⟨h, decoded, present⟩ := goes
      have others : ∀ y ∈ xs.dropLast, ∃ h, handleOf 6 (Base64.atob (skip quote y) 9) = some h ∧
          client.nodebyhandle t₀ (some h) := by
        intro y mem
        refine known y ?_
        cases xs with
        | nil => cases mem
        | cons z zs => exact List.mem_cons_of_mem x mem
      obtain ⟨t', same', more⟩ := @ih (fun y mem => strings y (List.mem_cons_of_mem x mem)) others
        (t.1 ++ [(id, .handle (some h))], t.2) same
      refine ⟨t', same', fun rest fuel enough => ?_⟩
      rw [List.length_cons] at enough
      obtain ⟨fuel, rfl⟩ : ∃ f, fuel = f + 1 := ⟨fuel - 1, by omega⟩
      have round : knodesRound client id t (comma :: (x ++ (commas xs ++ closeArray :: rest))) =
          .ok (.next, (t.1 ++ [(id, .handle (some h))], t.2), commas xs ++ closeArray :: rest) := by
        rw [knodesRound, reads _ (stop_commas_closeArray xs rest), decoded]
        exact if_pos ((same (some h)).trans present)
      rw [commas_cons, List.cons_append, List.append_assoc, loopFrom_next fuel round]
      exact more rest fuel (by omega)
    · -- only the last one may be unknown
      obtain rfl : xs = [] := by
        cases xs with
        | nil => rfl
        | cons y ys => exact absurd (known x List.mem_cons_self) goes
      refine ⟨t, same, fun rest fuel enough => ?_⟩
      obtain ⟨fuel, rfl⟩ : ∃ f, fuel = f + 1 := ⟨fuel - 1, by omega⟩
      have round : knodesRound client id t (comma :: (x ++ closeArray :: rest)) =
          .ok (.ended, t, closeArray :: rest) := by
        rw [knodesRound, reads _ stop_closeArray]
        cases decoded : handleOf 6 (Base64.atob (skip quote x) 9) with
        | none => rfl
        | some h =>
          refine if_neg fun present => goes ⟨h, decoded, ?_⟩
          exact (same (some h)).symm.trans present
      rw [commas_cons, commas_nil, List.append_nil, List.cons_append]
      exact loopFrom_last fuel round (by decide)

theorem knodes_fits {t₀ : σ} (id : UInt64) {v : Bytes} (value : IsValue v)
    (enters : Enters (· = openArray) (NodeList client t₀) v) (behind : Follow)
    {t : Locals × σ} (same : SameNodes client t₀ t.2) :
    Fits False behind (knodes client id) (fun t => SameNodes client t₀ t.2) t v := by
  by_cases entered : peek v = openArray
  · obtain ⟨xs, rfl, strings, known⟩ := enters.shaped entered
    obtain ⟨t', same', run⟩ := loopFrom_knodes client id strings known same
    refine ⟨t', same', .inl fun rest _ => ?_⟩
    have enough : xs.length < (separated xs ++ closeArray :: rest).length + 1 := by
      have bound := length_le_separated fun x mem => (strings x mem).1.ne_nil
      rw [List.length_append]
      omega
    have first : knodesRound client id t (separated xs ++ closeArray :: rest) =
        knodesRound client id t (commas xs ++ closeArray :: rest) := by
      cases xs with
      | nil => rfl
      | cons x xs =>
        have starts := (strings x List.mem_cons_self).1.starts (commas xs ++ closeArray :: rest)
        rw [separated, List.append_assoc, commas_cons, List.cons_append, List.append_assoc,
          knodesRound, knodesRound, gethandle_comma starts]
    rw [knodes, enterarray_array]
    simp only [loop, loopFrom_congr first, run rest _ enough, leavearray_closeArray]
  · refine ⟨t, same, .inr (.inl ⟨enters.unnamed, fun rest _ => ?_⟩)⟩
    rw [knodes, enterarray_other (value.starts rest) (by rwa [peek_append value.ne_nil])]

theorem Locals.handle_append (locals : Locals) (id : UInt64) (h : Handle) :
    Locals.handle (locals ++ [(id, .handle h)]) id = h := by
  simp [Locals.handle]

theorem scUserattr_cases (id : UInt64) : (scUserattr client).cases id =
    if id = nameid (ascii "u") then some ((Kind.handle 8).assign id)
    else if id = nameid (ascii "ua") then some (userattr client) else none := by
  simp only [Handler.cases, Handler.call, scUserattr, Columns.cases, Columns.kind,
    List.find?_cons, List.find?_nil]
  by_cases user : id = nameid (ascii "u")
  · subst user
    simp
  · by_cases attributes : id = nameid (ascii "ua")
    · subst attributes
      rw [if_neg user]
      simp only [decide_eq_false (Ne.symm user), decide_true, Option.map_none, Option.map_some,
        Option.none_or, if_true]
    · simp [user, attributes, Ne.symm user, Ne.symm attributes]

/-- The list is skipped unless a user is known. -/
theorem userattr_takes {t : Locals × σ} {v : Bytes} (value : IsValue v) (behind : Follow)
    (stops : ∀ rest, behind rest → Stop rest)
    (skipped : peek v = openArray → ¬((t.1.handle (nameid (ascii "u"))).isSome ∧
      client.finduser t.2 (t.1.handle (nameid (ascii "u"))))) :
    Takes behind (userattr client) t v .next t := by
  intro rest follows
  have stored := storeobject_value value (stops rest follows).ends
  simp only [userattr]
  by_cases entered : peek v = openArray
  · rw [if_neg (skipped entered), stored]
  · rw [enterarray_other (value.starts rest) (by rwa [peek_append value.ne_nil])]
    simp only [stored, ite_self]

theorem userattr_run {ms : List Member} (legible : Legible ms) {t : Locals × σ}
    (admits : UserattrAdmits client t.2 (t.1.handle (nameid (ascii "u"))) ms) :
    ∃ t' left, Run anything (scUserattr client).cases t ms .ended t' left := by
  induction ms generalizing t with
  | nil => exact ⟨t, [], .nil⟩
  | cons m ms ih =>
    have value := (legible m List.mem_cons_self).2
    have admissible := Follow.admissible_inObject isolated_anything ms
    by_cases named : m.1 = []
    · obtain ⟨name, v⟩ := m
      obtain rfl : name = [] := named
      exact ⟨t, _, .unnamed⟩
    have cases := scUserattr_cases client (nameid m.1)
    rw [UserattrAdmits] at admits
    by_cases user : nameid m.1 = nameid (ascii "u")
    · rw [if_pos user] at cases admits
      by_cases string : peek m.2 = quote
      · -- the user is known from here on
        rw [if_pos string] at admits
        have takes : Takes (anything.inObject ms) ((Kind.handle 8).assign (nameid m.1)) t m.2 .next
            (t.1 ++ [(nameid m.1, .handle (handleOf 8 (Base64.atob (skip quote m.2) 9)))], t.2) := by
          intro rest follows
          rw [Kind.assign, Kind.read, gethandle_value value string (admissible.stop rest follows)]
        obtain ⟨t', left, run⟩ := @ih legible.tail
          (t.1 ++ [(nameid m.1, .handle (handleOf 8 (Base64.atob (skip quote m.2) 9)))], t.2)
          (by simpa only [user, Locals.handle_append] using admits)
        exact ⟨t', left, .read (legible m List.mem_cons_self) named cases takes run⟩
      · have leaves : Leaves (anything.inObject ms) ((Kind.handle 8).assign (nameid m.1)) t m.2 .next
            (t.1 ++ [(nameid m.1, .handle (handleOf 8 []))], t.2) := by
          intro rest _
          rw [Kind.assign, Kind.read, gethandle_other value string]
        exact ⟨_, _, .refused (legible m List.mem_cons_self) named cases leaves string⟩
    · rw [if_neg user] at cases admits
      obtain ⟨skipped, more⟩ := admits
      obtain ⟨t', left, run⟩ := ih legible.tail more
      by_cases attributes : nameid m.1 = nameid (ascii "ua")
      · rw [if_pos attributes] at cases
        exact ⟨t', left, .read (legible m List.mem_cons_self) named cases
          (userattr_takes client value _ admissible.stop (skipped attributes)) run⟩
      · rw [if_neg attributes] at cases
        exact ⟨t', left, .skipped (legible m List.mem_cons_self) named cases run⟩

theorem scUserattr_isolated {ms : List Member} (legible : Legible ms) {t : σ}
    (admits : UserattrAdmits client t none ms) : (scUserattr client).EndsInside t ms := by
  obtain ⟨t', left, run⟩ := @userattr_run σ client ms legible ([], t) admits
  refine ⟨t'.2, left, run.remainder legible.wellFormed, fun rest => ?_⟩
  rw [Handler.run, members_run run trivial]
  rfl

theorem Handler.call_eq_some {handler : Handler σ} {id : UInt64} {read : Reader (Locals × σ)}
    (case : handler.call id = some read) :
    ∃ call ∈ handler.calls, nameid (ascii call.1) = id ∧ read = call.2 id := by
  obtain ⟨call, found, rfl⟩ := Option.map_eq_some_iff.mp case
  refine ⟨call, List.mem_of_find?_eq_some found, ?_, rfl⟩
  simpa using List.find?_some found

section Kinds
variable {t : σ} {ms : List Member}

theorem assigning_isolated (legible : Legible ms) {handler : Handler σ}
    (columns : ∀ m ∈ ms, ∀ kind, handler.columns.kind (nameid m.1) = some kind →
      kind.Admits True m.2) (none : handler.calls = []) : handler.EndsInside t ms := by
  refine handler.run_isolated (fun _ => True) legible columns ?_ trivial
  intro behind _ t _ m _ read case
  obtain ⟨call, mem, -⟩ := Handler.call_eq_some case
  rw [none] at mem
  cases mem

theorem scNewnodes_isolated (legible : Legible ms)
    (columns : ∀ m ∈ ms, ∀ kind, (scNewnodes client).columns.kind (nameid m.1) = some kind →
      kind.Admits True m.2)
    (tree : ∀ m ∈ ms, nameid m.1 = nameid (ascii "t") → Enters (· = openObject) TreeObject m.2)
    (users : ∀ m ∈ ms, nameid m.1 = nameid (ascii "u") →
      Enters (· = openArray) (RecordArray True userColumns) m.2) :
    (scNewnodes client).EndsInside t ms := by
  refine (scNewnodes client).run_isolated (fun _ => True) legible columns ?_ trivial
  intro behind _ t holds m mem read case
  have value := (legible m mem).2
  obtain ⟨call, listed, named, rfl⟩ := Handler.call_eq_some case
  simp only [scNewnodes, List.mem_cons, List.not_mem_nil, or_false] at listed
  rcases listed with rfl | rfl
  · exact callField_fits (calls_fits _ (readtree_reads client) (readtree_ignores client) value
      (tree m mem named.symm) holds)
  · exact callField_fits (calls_fits _ (readusers_reads client) (readrecords_ignores _ _ _ _)
      value (users m mem named.symm) holds)

theorem scContacts_isolated (legible : Legible ms)
    (columns : ∀ m ∈ ms, ∀ kind, (scContacts client).columns.kind (nameid m.1) = some kind →
      kind.Admits True m.2)
    (users : ∀ m ∈ ms, nameid m.1 = nameid (ascii "u") →
      Enters (· = openArray) (RecordArray True userColumns) m.2) :
    (scContacts client).EndsInside t ms := by
  refine (scContacts client).run_isolated (fun _ => True) legible columns ?_ trivial
  intro behind _ t holds m mem read case
  have value := (legible m mem).2
  obtain ⟨call, listed, named, rfl⟩ := Handler.call_eq_some case
  simp only [scContacts, List.mem_cons, List.not_mem_nil, or_false] at listed
  subst listed
  exact callField_fits (calls_fits _ (readusers_reads client) (readrecords_ignores _ _ _ _)
    value (users m mem named.symm) holds)

/-- The key requests are answered for the nodes that the packet has found. -/
theorem scKeys_isolated (legible : Legible ms)
    (columns : ∀ m ∈ ms, ∀ kind, (scKeys client).columns.kind (nameid m.1) = some kind →
      kind.Admits True m.2)
    (requests : ∀ m ∈ ms, nameid m.1 = nameid (ascii "sr") → Enters (· = openArray) SrArray m.2)
    (responses : ∀ m ∈ ms, nameid m.1 = nameid (ascii "cr") →
      Enters (fun c => c = openArray ∨ c = openObject) CrValue m.2)
    (nodes : ∀ m ∈ ms, nameid m.1 = nameid (ascii "n") →
      Enters (· = openArray) (NodeList client t) m.2) : (scKeys client).EndsInside t ms := by
  have sameNodes := sameNodes_requests client t
  refine (scKeys client).run_isolated (SameNodes client t) legible columns ?_ fun _ => rfl
  intro behind _ t' same m mem read case
  have value := (legible m mem).2
  obtain ⟨call, listed, named, rfl⟩ := Handler.call_eq_some case
  simp only [scKeys, List.mem_cons, List.not_mem_nil, or_false] at listed
  rcases listed with rfl | rfl | rfl
  · exact callField_fits (calls_fits _ (procsr_reads client _ sameNodes) (procsr_ignores client)
      value (requests m mem named.symm) same)
  · exact knodes_fits client _ value (nodes m mem named.symm) behind same
  · exact callField_fits (calls_fits _ (proccr_reads client _ sameNodes) (proccr_ignores client)
      value (responses m mem named.symm) same)

end Kinds

/-- The handler of an admitted packet ends somewhere inside the packet. -/
theorem handler_isolated {name : UInt64} {handler : Handler σ} {after : σ → σ}
    (found : handlerOf client name = some (handler, after)) {t : σ} {ms : List Member}
    (admitted : Admitted client t name ms) : handler.EndsInside t ms := by
  have columns := admitted.columns handler after found
  have legible := admitted.legible
  rw [handlerOf] at found
  split at found
  · cases found
    exact assigning_isolated legible columns rfl
  split at found
  · rename_i newnodes
    cases found
    exact scNewnodes_isolated client legible columns (admitted.tree newnodes)
      (admitted.users (.inl newnodes))
  split at found
  · cases found
    exact assigning_isolated legible columns rfl
  split at found
  · cases found
    exact assigning_isolated legible columns rfl
  split at found
  · rename_i contacts
    cases found
    exact scContacts_isolated client legible columns (admitted.users (.inr contacts))
  split at found
  · rename_i keys
    cases found
    exact scKeys_isolated client legible columns (admitted.requests keys) (admitted.responses keys)
      (admitted.nodes keys)
  split at found
  · cases found
    exact assigning_isolated legible columns rfl
  split at found
  · rename_i userattr
    cases found
    exact scUserattr_isolated client legible (admitted.attributes userattr)
  · cases found

end Handlers

section Packets
variable {σ : Type} (client : Client σ)

theorem closeObject_not_mem_selfMarker : closeObject ∉ selfMarker client := by
  have prefix' : closeObject ∉ ascii "\"i\":\"" := by decide
  have suffix' : closeObject ∉ [quote] := by decide
  have letters : closeObject ∉ client.sessionid := by
    intro mem
    exact absurd (client.letters _ mem).2 (by decide)
  simp only [selfMarker, List.mem_append, not_or]
  exact ⟨⟨prefix', letters⟩, suffix'⟩

/-- The marker is found inside the packet or not at all. -/
theorem selfMarker_local (body rest : Text) :
    selfMarker client <+: body ++ closeObject :: rest ↔ selfMarker client <+: body := by
  refine ⟨fun leads => ?_, fun leads => leads.trans (List.prefix_append _ _)⟩
  rcases Nat.lt_or_ge body.length (selfMarker client).length with longer | shorter
  · have whole : body ++ [closeObject] <+: body ++ closeObject :: rest := ⟨rest, by simp⟩
    have inside : body ++ [closeObject] <+: selfMarker client := by
      refine List.prefix_of_prefix_length_le whole leads ?_
      rw [List.length_append, List.length_singleton]
      omega
    exact absurd (inside.subset (by simp)) (closeObject_not_mem_selfMarker client)
  · exact List.prefix_of_prefix_length_le leads (List.prefix_append _ _) shorter

theorem dispatch_isolated {t : σ} {name : UInt64} {ms : List Member} (formed : WellFormed ms)
    (processed : selfMarker client <+: separated (ms.map member) ∨ handlerOf client name = none ∨
      Admitted client t name ms) :
    ∃ t' left, Remainder left ∧ ∀ rest,
      dispatch client name t (separated (ms.map member) ++ closeObject :: rest) =
        .ok (t', left ++ closeObject :: rest) := by
  have skips : ∀ rest, (selfMarker client).isPrefixOf
      (separated (ms.map member) ++ closeObject :: rest) =
        decide (selfMarker client <+: separated (ms.map member)) := by
    intro rest
    rw [Bool.eq_iff_iff, List.isPrefixOf_iff_prefix, decide_eq_true_eq]
    exact selfMarker_local client _ rest
  by_cases own : selfMarker client <+: separated (ms.map member)
  · refine ⟨t, _, remainder_separated formed, fun rest => ?_⟩
    rw [dispatch, skips rest, if_pos (decide_eq_true own)]
  · rcases processed with self | unknown | admitted
    · exact absurd self own
    · refine ⟨t, _, remainder_separated formed, fun rest => ?_⟩
      rw [dispatch, skips rest, if_neg (by simpa using own), unknown]
    · cases found : handlerOf client name with
      | none =>
        refine ⟨t, _, remainder_separated formed, fun rest => ?_⟩
        rw [dispatch, skips rest, if_neg (by simpa using own), found]
      | some entry =>
        obtain ⟨handler, after⟩ := entry
        obtain ⟨t', left, remainder, runs⟩ := handler_isolated client found admitted
        refine ⟨after t', left, remainder, fun rest => ?_⟩
        rw [dispatch, skips rest, if_neg (by simpa using own), found]
        simp only [runs rest]

theorem action_isolated {t : σ} {p : Packet} (regular : Regular client t p) :
    ∃ t' left, Remainder left ∧ ∀ rest : Text,
      action client t (separated (p.members.map member) ++ closeObject :: rest) =
        .ok (t', left ++ closeObject :: rest) := by
  obtain ⟨type, ms⟩ := p
  obtain ⟨value, formed, typed⟩ := regular
  have plain : Plain (ascii "a") := by
    unfold Plain
    decide
  have head : ∀ rest : Text, getnameid (separated (((ascii "a", type) :: ms).map member) ++
      closeObject :: rest) = .ok (nameid (ascii "a"), type ++ (commas (ms.map member) ++
        closeObject :: rest)) :=
    fun rest => getnameid_separated plain ms (closeObject :: rest)
  by_cases string : peek type = quote
  · obtain ⟨name, rfl, plain', some, processed⟩ := typed string
    obtain ⟨t', left, remainder, runs⟩ := dispatch_isolated client formed processed
    refine ⟨t', left, remainder, fun rest => ?_⟩
    -- the comma behind the type is skipped with it
    obtain ⟨m, others, rfl⟩ := List.exists_cons_of_ne_nil some
    have text : commas ((m :: others).map member) ++ closeObject :: rest =
        comma :: (separated ((m :: others).map member) ++ closeObject :: rest) := by
      rw [List.map_cons, commas_cons, separated, List.cons_append]
    rw [action, Packet.members, head rest]
    simp only [if_true, text, getnameid_name plain' comma]
    exact runs rest
  · refine ⟨t, _, remainder_value value (remainder_commas formed), fun rest => ?_⟩
    have starts := value.starts (commas (ms.map member) ++ closeObject :: rest)
    have first : peek (type ++ (commas (ms.map member) ++ closeObject :: rest)) ≠ quote := by
      rwa [peek_append value.ne_nil]
    have unmarked : (selfMarker client).isPrefixOf
        (type ++ (commas (ms.map member) ++ closeObject :: rest)) = false := by
      rw [Bool.eq_false_iff, ne_eq, List.isPrefixOf_iff_prefix]
      rintro ⟨more, same⟩
      rw [← same] at first
      exact first rfl
    have none : getnameid (type ++ (commas (ms.map member) ++ closeObject :: rest)) =
        .ok (0, type ++ (commas (ms.map member) ++ closeObject :: rest)) := by
      refine getnameid_other ?_
      rwa [skipSeparator_of_starts starts]
    have unknown : handlerOf client 0 = Option.none := by
      simp only [handlerOf]
      rfl
    rw [action, Packet.members, head rest]
    simp only [if_true, none, dispatch, unmarked, unknown, Bool.false_eq_true, if_false]
    rw [List.append_assoc]

/-- A regular packet is left at its end, with the same effect whatever follows it. -/
theorem packet_isolated {t : σ} {p : Packet} (regular : Regular client t p) :
    ∃ t', ∀ rest : Text, packet client t
      (separated (p.members.map member) ++ closeObject :: rest) = .ok (.next, t', rest) := by
  obtain ⟨t', left, remainder, acts⟩ := action_isolated client regular
  refine ⟨t', fun rest => ?_⟩
  rw [packet, acts rest]
  simp only [leaveobject_of_remainder remainder rest]

/-- The effect of a packet, read from its own text. -/
def effect (t : σ) (p : Packet) : Except Fault σ :=
  match objectRound (packet client) t (p.text ++ [closeArray]) with
  | .error fault => .error fault
  | .ok (_, t', _) => .ok t'

/-- Packets each of which is regular in the state in which it is processed. -/
def RegularPackets : σ → List Packet → Prop
  | _, [] => True
  | t, p :: ps => Regular client t p ∧ ∀ t', effect client t p = .ok t' → RegularPackets t' ps

theorem effect_of_regular {t : σ} {p : Packet} (regular : Regular client t p) :
    ∃ t', effect client t p = .ok t' ∧ ∀ rest : Text,
      objectRound (packet client) t (p.text ++ rest) = .ok (.next, t', rest) := by
  obtain ⟨t', takes⟩ := packet_isolated client regular
  have round : ∀ rest : Text,
      objectRound (packet client) t (p.text ++ rest) = .ok (.next, t', rest) :=
    fun rest => (objectRound_object (packet client) t p.members).trans (takes rest)
  have alone := round [closeArray]
  refine ⟨t', ?_, round⟩
  unfold effect
  rw [alone]

theorem Regular.isValue {t : σ} {p : Packet} (regular : Regular client t p) :
    IsValue p.text := by
  refine .obj (fun m mem => ?_) fun m mem => ?_
  · rcases List.mem_cons.mp mem with rfl | mem
    · show isLiteral (ascii "a")
      decide
    · exact (regular.formed m mem).1
  · rcases List.mem_cons.mp mem with rfl | mem
    · exact regular.value
    · exact (regular.formed m mem).2

/-- The loop over regular packets applies their effects one after the other. -/
theorem loopFrom_packets {ps : List Packet} {t : σ} (regular : RegularPackets client t ps) :
    ∃ t', ps.foldlM (effect client) t = .ok t' ∧ ∀ rest fuel, ps.length < fuel →
      loopFrom (objectRound (packet client)) fuel t
        (commas (ps.map Packet.text) ++ closeArray :: rest) =
          .ok (.ended, t', closeArray :: rest) := by
  induction ps generalizing t with
  | nil =>
    refine ⟨t, rfl, fun rest fuel enough => ?_⟩
    obtain ⟨fuel, rfl⟩ : ∃ f, fuel = f + 1 := ⟨fuel - 1, by omega⟩
    exact loopFrom_last fuel rfl (by decide)
  | cons p ps ih =>
    obtain ⟨first, others⟩ := regular
    obtain ⟨t₁, effects, round⟩ := effect_of_regular client first
    obtain ⟨t', folds, more⟩ := ih (others t₁ effects)
    refine ⟨t', ?_, fun rest fuel enough => ?_⟩
    · rw [List.foldlM_cons, effects]
      exact folds
    · rw [List.length_cons] at enough
      obtain ⟨fuel, rfl⟩ : ∃ f, fuel = f + 1 := ⟨fuel - 1, by omega⟩
      have starts := (first.isValue client).starts
        (commas (ps.map Packet.text) ++ closeArray :: rest)
      have step := round (commas (ps.map Packet.text) ++ closeArray :: rest)
      rw [objectRound, ← enterobject_comma starts, ← objectRound] at step
      rw [List.map_cons, commas_cons, List.cons_append, List.append_assoc,
        loopFrom_next fuel step]
      exact more rest fuel (by omega)

theorem actionpackets_regular {ps : List Packet} {t : σ} (regular : RegularPackets client t ps) :
    ∃ t', ps.foldlM (effect client) t = .ok t' ∧ ∀ rest,
      actionpackets client t (array (ps.map Packet.text) ++ rest) = .ok (.next, t', rest) := by
  obtain ⟨t', folds, run⟩ := loopFrom_packets client regular
  refine ⟨t', folds, fun rest => ?_⟩
  have enough : ps.length <
      (separated (ps.map Packet.text) ++ closeArray :: rest).length + 1 := by
    have bound := @length_le_separated (ps.map Packet.text) (by
      intro x mem
      obtain ⟨p, -, rfl⟩ := List.mem_map.mp mem
      exact List.cons_ne_nil _ _)
    rw [List.length_map] at bound
    rw [List.length_append]
    omega
  have first : objectRound (packet client) t (separated (ps.map Packet.text) ++
      closeArray :: rest) = objectRound (packet client) t (commas (ps.map Packet.text) ++
        closeArray :: rest) := by
    cases ps with
    | nil => rfl
    | cons p ps =>
      have starts := (regular.1.isValue client).starts
        (commas (ps.map Packet.text) ++ closeArray :: rest)
      rw [List.map_cons, separated, List.append_assoc, commas_cons, List.cons_append,
        List.append_assoc, objectRound, objectRound, enterobject_comma starts]
  rw [actionpackets, enterarray_array]
  simp only [loop, loopFrom_congr first, run rest _ enough, leavearray_closeArray]

end Packets

/-- A member of a response: the action packets, or another one. -/
inductive ScMember where
  | packets (ps : List Packet)
  | other (m : Member)

def ScMember.member : ScMember → Member
  | packets ps => (ascii "a", array (ps.map Packet.text))
  | other m => m

section Responses
variable {σ : Type} (client : Client σ)

/-- What a member has the client do: the packets one by one, each by its own text. -/
def ScMember.effect (t : σ) : ScMember → Except Fault σ
  | packets ps => ps.foldlM (Server.effect client) t
  | other m =>
    if nameid m.1 = nameid (ascii "w") then
      .ok (client.perform (.scnotifyurl (stored m.2)) t)
    else if nameid m.1 = nameid (ascii "sn") ∧ (Base64.atob (skip quote m.2) 8).length = 8 then
      .ok (client.perform (.setscsn (Base64.atob (skip quote m.2) 8)) t)
    else .ok t

/-- A member that `procsc` gets past. -/
def ScMember.Regular (t : σ) : ScMember → Prop
  | packets ps => RegularPackets client t ps
  | other m => m.1 ≠ [] ∧ Plain m.1 ∧ IsValue m.2 ∧ nameid m.1 ≠ nameid (ascii "a") ∧
      (nameid m.1 = nameid (ascii "sn") → peek m.2 = quote)

def RegularResponse : σ → List ScMember → Prop
  | _, [] => True
  | t, m :: ms => m.Regular client t ∧ ∀ t', m.effect client t = .ok t' → RegularResponse t' ms

/-- The response is processed packet by packet: each packet takes effect once, in order, and
by its own text and the state of the client alone. -/
def Isolates (t : σ) (response : List ScMember) : Prop :=
  ∃ t', response.foldlM (ScMember.effect client) t = .ok t' ∧
    procsc client t (object (response.map ScMember.member)) =
      .ok (client.perform .applykeys (client.perform (.mergenewshares true) t'), [closeObject])

theorem RegularPackets.isValue {ps : List Packet} {t : σ} (regular : RegularPackets client t ps) :
    ∀ x ∈ ps.map Packet.text, IsValue x := by
  induction ps generalizing t with
  | nil => exact fun x mem => absurd mem List.not_mem_nil
  | cons p ps ih =>
    obtain ⟨t', effects, -⟩ := effect_of_regular client regular.1
    intro x mem
    rcases List.mem_cons.mp mem with rfl | mem
    · exact regular.1.isValue client
    · exact ih (regular.2 t' effects) x mem

theorem ScMember.Regular.legible {m : ScMember} {t : σ} (regular : m.Regular client t) :
    Plain m.member.1 ∧ IsValue m.member.2 ∧ m.member.1 ≠ [] := by
  cases m with
  | packets ps =>
    refine ⟨?_, .arr (RegularPackets.isValue client regular), List.cons_ne_nil _ _⟩
    show Plain (ascii "a")
    unfold Plain
    decide
  | other m => exact ⟨regular.2.1, regular.2.2.1, regular.1⟩

/-- `procsc` takes a regular member, with its effect. -/
theorem ScMember.Regular.reads {m : ScMember} {t : σ} (regular : m.Regular client t) :
    ∃ t', m.effect client t = .ok t' ∧
      ((procscCases client (nameid m.member.1) = none ∧ t' = t) ∨
        ∃ read, procscCases client (nameid m.member.1) = some read ∧ ∀ ms,
          Takes (anything.inObject ms) read t m.member.2 .next t') := by
  cases m with
  | packets ps =>
    obtain ⟨t', folds, takes⟩ := actionpackets_regular client regular
    have case : procscCases client (nameid (ascii "a")) = some (actionpackets client) := by
      rw [procscCases, if_neg (by decide), if_pos rfl]
    exact ⟨t', folds, .inr ⟨_, case, fun ms rest _ => takes rest⟩⟩
  | other m =>
    obtain ⟨-, -, value, notPackets, scsn⟩ := regular
    have stops := fun ms => (Follow.admissible_inObject isolated_anything ms).stop
    rw [ScMember.effect, ScMember.member, procscCases]
    by_cases url : nameid m.1 = nameid (ascii "w")
    · rw [if_pos url, if_pos url]
      refine ⟨_, rfl, .inr ⟨_, rfl, fun ms rest follows => ?_⟩⟩
      simp only [storeobject_value value (stops ms rest follows).ends]
    · rw [if_neg url, if_neg url, if_neg notPackets]
      by_cases sn : nameid m.1 = nameid (ascii "sn")
      · have string := scsn sn
        rw [if_pos sn]
        by_cases full : (Base64.atob (skip quote m.2) 8).length = 8
        · rw [if_pos ⟨sn, full⟩]
          refine ⟨_, rfl, .inr ⟨_, rfl, fun ms rest follows => ?_⟩⟩
          rw [calls, setscsn, storebinary_value value string (stops ms rest follows)]
          simp only [full, if_true]
        · rw [if_neg fun both => full both.2]
          refine ⟨_, rfl, .inr ⟨_, rfl, fun ms rest follows => ?_⟩⟩
          rw [calls, setscsn, storebinary_value value string (stops ms rest follows)]
          simp only [full, if_false]
      · rw [if_neg sn, if_neg fun both => sn both.1]
        exact ⟨t, rfl, .inl ⟨rfl, rfl⟩⟩

theorem response_run {response : List ScMember} {t : σ}
    (regular : RegularResponse client t response) :
    ∃ t', response.foldlM (ScMember.effect client) t = .ok t' ∧
      Run anything (procscCases client) t (response.map ScMember.member) .ended t' [] := by
  induction response generalizing t with
  | nil => exact ⟨t, rfl, .nil⟩
  | cons m response ih =>
    obtain ⟨first, others⟩ := regular
    obtain ⟨plain, value, named⟩ := first.legible client
    obtain ⟨t₁, effects, case⟩ := first.reads client
    obtain ⟨t', folds, run⟩ := ih (others t₁ effects)
    refine ⟨t', ?_, ?_⟩
    · rw [List.foldlM_cons, effects]
      exact folds
    · rcases case with ⟨skipped, rfl⟩ | ⟨read, case, takes⟩
      · exact .skipped ⟨plain, value⟩ named skipped run
      · exact .read ⟨plain, value⟩ named case (takes _) run

/-- A response whose packets are regular is processed packet by packet. -/
theorem isolates_of_regular {t : σ} {response : List ScMember}
    (regular : RegularResponse client t response) : Isolates client t response := by
  obtain ⟨t', folds, run⟩ := response_run client regular
  refine ⟨t', folds, ?_⟩
  have entered := @enterobject_object [] (response.map ScMember.member)
  rw [List.append_nil] at entered
  have read := @members_run _ _ _ _ _ _ _ _ run [] trivial
  rw [List.nil_append] at read
  unfold procsc
  rw [entered, read]

end Responses

/-- A response of proper JSON; each packet starts with its `a` member. -/
def WellFormedResponse (response : List ScMember) : Prop :=
  ∀ m ∈ response,
    match m with
    | .packets ps => ∀ p ∈ ps, IsValue p.type ∧ WellFormed p.others
    | .other m => isLiteral m.1 ∧ IsValue m.2

def recorder : Client (List Call) where
  perform call log := log ++ [call]
  nodebyhandle _ _ := true
  finduser _ _ := true
  fafc _ _ := true
  sharekey _ _ := true
  merges _ _ := false
  sessionid := ascii "abcdefghij"
  letters := sampleSession_letters
  requests := by
    intros
    rfl

def deletion : Packet := ⟨str (ascii "d"), [(ascii "n", str (ascii "AAAAAAAE"))]⟩

def unknownPacket : Packet := ⟨str (ascii "z"), [(ascii "y", array [ascii "1"])]⟩

theorem deletion_regular {σ : Type} (client : Client σ) (t : σ) : Regular client t deletion where
  value := .str (by decide)
  formed := by
    intro m mem
    obtain rfl := List.mem_singleton.mp mem
    exact ⟨by decide, .str (by decide)⟩
  typed _ := by
    refine ⟨ascii "d", rfl, by unfold Plain; decide, List.cons_ne_nil _ _, .inr (.inr ?_)⟩
    constructor
    · intro m mem
      obtain rfl := List.mem_singleton.mp mem
      exact ⟨by unfold Plain; decide, .str (by decide)⟩
    · intro handler after found m mem kind column
      obtain rfl := List.mem_singleton.mp mem
      cases found
      cases column
      trivial
    all_goals intro other; exact absurd other (by decide)

theorem unknownPacket_regular (t : List Call) : Regular recorder t unknownPacket where
  value := .str (by decide)
  formed := by
    intro m mem
    obtain rfl := List.mem_singleton.mp mem
    refine ⟨by decide, .arr fun x listed => ?_⟩
    obtain rfl := List.mem_singleton.mp listed
    exact .num (by decide)
  typed _ := ⟨ascii "z", rfl, by unfold Plain; decide, List.cons_ne_nil _ _, .inr (.inl rfl)⟩

theorem isolates_deletions :
    Isolates recorder [] [.packets [deletion, unknownPacket, deletion]] :=
  isolates_of_regular recorder
    ⟨⟨deletion_regular recorder _, fun _ _ => ⟨unknownPacket_regular _, fun _ _ =>
      ⟨deletion_regular recorder _, fun _ _ => trivial⟩⟩⟩, fun _ _ => trivial⟩

def typeOnly : Packet := ⟨str (ascii "d"), []⟩

/-- `getnameid` skips the brace behind the type, and the next packet is swallowed. -/
theorem typeOnly_swallows :
    WellFormedResponse [.packets [typeOnly, deletion]] ∧
      ¬Isolates recorder [] [.packets [typeOnly, deletion]] := by
  constructor
  · intro m mem
    obtain rfl := List.mem_singleton.mp mem
    intro p listed
    simp only [List.mem_cons, List.not_mem_nil, or_false] at listed
    rcases listed with rfl | rfl
    · exact ⟨.str (by decide), fun m mem => absurd mem List.not_mem_nil⟩
    · exact ⟨(deletion_regular recorder []).value, (deletion_regular recorder []).formed⟩
  · rintro ⟨t', folds, processed⟩
    have expected : [ScMember.packets [typeOnly, deletion]].foldlM (ScMember.effect recorder) [] =
        .ok [.deltree [], .deltree [(nameid (ascii "n"), .handle (some [0, 0, 0, 0, 0, 4]))]] := rfl
    have actual : procsc recorder []
        (object ([ScMember.packets [typeOnly, deletion]].map ScMember.member)) =
          .ok ([.deltree [], .mergenewshares true, .applykeys], [closeObject]) := rfl
    rw [expected] at folds
    cases folds
    rw [actual] at processed
    cases processed

end MegaSdk.Server
