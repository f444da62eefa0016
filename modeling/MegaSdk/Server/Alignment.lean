import MegaSdk.Server.Isolation
import MegaSdk.Server.Commands

/-!
# Results and their commands

For which results a command of a request leaves the cursor exactly behind its own result.
If every command of a request gets such a result, each one is run at its own.
-/

namespace MegaSdk.Server

open Json

/-- A member of a kind that the loop of a command can read. -/
structure Field (columns : Columns) (others : List (String × (Bytes → Prop))) (m : Member) :
    Prop where
  plain : Plain m.1
  columns : ∀ kind, columns.kind (nameid m.1) = some kind → kind.Admits False m.2
  others : ∀ other ∈ others, nameid (ascii other.1) = nameid m.1 → other.2 m.2

section Reached
variable {τ : Type} (cases : UInt64 → Option (Reader τ)) (shape : Member → Prop) (rest : Text)

/-- Each member that the loop reaches, with `rest` behind the object, has the shape. -/
inductive ReachedMembers : τ → List Member → Prop
  | nil {t : τ} : ReachedMembers t []
  | cons {t : τ} {m : Member} {ms : List Member} (shaped : shape m)
      (more : ∀ t', memberRound cases t
        (member m ++ (commas (ms.map member) ++ closeObject :: rest)) =
          .ok (.next, t', commas (ms.map member) ++ closeObject :: rest) → ReachedMembers t' ms) :
      ReachedMembers t (m :: ms)

end Reached

/-- A member that is not read must not be taken for a name. -/
def Unnamed (v : Bytes) : Prop := peek v ≠ quote

/-- An array, if it is one, of records that are read in full. -/
def Records (columns : Columns) (v : Bytes) : Prop :=
  peek v = openArray → RecordArray False columns v

def Codes (v : Bytes) : Prop := ∃ xs, v = array xs ∧ ∀ x ∈ xs, isNumber x

def Amounts (v : Bytes) : Prop :=
  ∃ xs, v = array xs ∧ ∀ x ∈ xs, isNumber x ∧ 0 ≤ atoll x

def Row (kinds : List Kind) (row : List Bytes) : Prop :=
  List.Forall₂ (fun kind x => IsValue x ∧ kind.Exact False x) kinds row

def Rows (kinds : List Kind) (xs : List Bytes) : Prop :=
  ∃ rows : List (List Bytes), xs = rows.map array ∧ ∀ row ∈ rows, Row kinds row

def RowArray (kinds : List Kind) (v : Bytes) : Prop := ∃ xs, v = array xs ∧ Rows kinds xs

/-- A number that is not negative as an `int`. -/
structure IsAmount (v : Bytes) : Prop where
  value : IsValue v
  numeric : Numeric v
  nonneg : 0 ≤ toInt32 (atoll (skip quote v))

/-- A quota item: a handle, four amounts and two values. -/
def QuotaRow (row : List Bytes) : Prop :=
  ∃ product prolevel gbstorage gbtransfer months amount currency,
    row = [product, prolevel, gbstorage, gbtransfer, months, amount, currency] ∧
      IsHandle 6 product ∧ IsAmount prolevel ∧ IsAmount gbstorage ∧ IsAmount gbtransfer ∧
        IsAmount months ∧ IsValue amount ∧ IsValue currency

/-- The keys of a signup link are accepted if they have sixteen bytes each. -/
def SignupAccepted (uh pwkey kc : Bytes) : Prop :=
  (handleOf 8 (Base64.atob (skip quote uh) 9)).isSome ∧
    (Base64.atob (skip quote pwkey) 16).length = 16 ∧
      (Base64.atob (skip quote kc) 16).length = 16

/-- The result of a signup link query: five strings, the third not the zero handle, and not
both accepted and the last result of the response. -/
def SignupRow (last : Prop) (xs : List Bytes) : Prop :=
  ∃ name email uh pwkey kc, xs = [name, email, uh, pwkey, kc] ∧
    (∀ x ∈ xs, IsValue x ∧ peek x = quote) ∧
      isNull (handleOf 8 (Base64.atob (skip quote uh) 9)) = false ∧
        ¬(last ∧ SignupAccepted uh pwkey kc)

namespace Command

def TakesCode : Command → Prop
  | putFA | getFA _ | putFile true | pubKeyRequest | getUserTransactions | getUserPurchases
  | getUserSessions | purchaseAddItem => False
  | _ => True

/-- The commands that skip a result that is no code. -/
def Stores : Command → Prop
  | attachFA | setAttr | moveNode | delNode | userRequest | putUA | sendSignupLink
  | confirmSignupLink | setKeyPair | purchaseCheckout => True
  | _ => False

def TakesString : Command → Prop
  | setPH | createEphemeralSession | getUA => True
  | c => c.Stores

section Objects
variable {σ : Type} (client : Client σ) (rest : Text) (t : σ)

/-- The members that the loop of a command reaches have the kinds that it can read. -/
def Fields (columns : Columns) (readers : List (String × Reader (Locals × σ)))
    (others : List (String × (Bytes → Prop))) (ms : List Member) : Prop :=
  ReachedMembers (casesOf columns readers) (Field columns others) rest ([], t) ms

/-- The objects that a command reads up to where its loop ends, and leaves to `leaveobject`. -/
def TakesObject : Command → List Member → Prop
  | putFA => Fields rest t [("p", .value)] [] []
  | getFA part => fun ms => client.fafc t part → Fields rest t [("p", .value)] [] [] ms
  | putFile true => Fields rest t [] [("p", unread)] [("p", Unnamed)]
  | putFile false => Fields rest t [("p", .stored)] [] []
  | getFile true => Fields rest t (getFileColumns true) (getFileReaders true) [("d", Unnamed)]
  | getFile false => Fields rest t (getFileColumns false) (getFileReaders false)
      [("d", Unnamed), ("pfa", Unnamed)]
  | putNodes => Fields rest t [] (putNodesReaders client)
      [("f", fun v => Unnamed v ∧ Records nodeColumns v)]
  | fetchNodes => Fields rest t [] (fetchNodesReaders client)
      [("f", Records nodeColumns), ("ok", fun v => Unnamed v ∧ Records okColumns v),
        ("s", fun v => Unnamed v ∧ Records outshareColumns v), ("u", Records userColumns),
        ("cr", Enters (fun c => c = openArray ∨ c = openObject) CrValue),
        ("sr", Enters (· = openArray) SrArray)]
  | getPH => ReachedMembers (getPHCases client) (Field getPHColumns []) rest ([], t)
  | setShare sh => Fields rest t [] (setShareReaders client sh)
      [("u", fun v => Unnamed v ∧ peek v ≠ openArray), ("r", Enters (· = openArray) Codes),
        ("snk", Enters (· = openArray) SnkArray), ("suk", Enters (· = openArray) SukArray),
        ("cr", Enters (fun c => c = openArray ∨ c = openObject) CrValue)]
  | shareKeyUpdate | nodeKeyUpdate | singleKeyCR | keyCR => Fields rest t [] [] []
  | pubKeyRequest => Fields rest t pubKeyRequestColumns [] []
  | login => Fields rest t loginColumns [] []
  | resumeEphemeralSession => Fields rest t resumeEphemeralSessionColumns [] []
  | getUserQuota => Fields rest t getUserQuotaColumns (getUserQuotaReaders client)
      [("tah", Enters (· = openArray) Amounts),
        ("balance", Enters (· = openArray) (RowArray [.value, .value]))]
  | setMasterKey | purchaseAddItem => fun _ => True
  | c => fun ms => c.Stores ∧ ms ≠ []

end Objects

/-- The arrays that a command reads up to the closing bracket. -/
def TakesArray (last : Prop) : Command → List Bytes → Prop
  | getUserTransactions => Rows transactionRow
  | getUserPurchases => Rows purchaseRow
  | getUserSessions => Rows sessionRow
  | enumerateQuotaItems => fun xs =>
      ∃ rows : List (List Bytes), xs = rows.map array ∧ ∀ row ∈ rows, QuotaRow row
  | querySignupLink => SignupRow last
  | setMasterKey | purchaseAddItem => fun xs => xs = []
  | c => fun xs => c.Stores ∧ ∃ x, xs = [x] ∧ IsValue x

section Results
variable {σ : Type} (client : Client σ) (last : Prop) (rest : Text) (t : σ)

/-- The codes, and the other results with which a command leaves the cursor behind its result,
in the state in which it is run and with the text behind the result. -/
inductive Accepts (c : Command) : Bytes → Prop
  | code {text : Bytes} (number : isNumber text) : Accepts c text
  | string {content : Bytes} (literal : isLiteral content) (takes : c.TakesString) :
      Accepts c (str content)
  | array {xs : List Bytes} (values : ∀ x ∈ xs, IsValue x) (takes : c.TakesArray last xs) :
      Accepts c (Json.array xs)
  | object {ms : List Member} (formed : WellFormed ms) (takes : c.TakesObject client rest t ms) :
      Accepts c (Json.object ms)

variable {client last rest t}

theorem Accepts.value {c : Command} {result : Bytes}
    (accepts : c.Accepts client last rest t result) : IsValue result := by
  cases accepts with
  | code number => exact .num number
  | string literal _ => exact .str literal
  | array values _ => exact .arr values
  | object formed _ => exact .obj (fun m mem => (formed m mem).1) fun m mem => (formed m mem).2

end Results

end Command

/-- Every result of a response is a code or one that its command consumes, in each state in
which the command is run at it. -/
def Accepted {σ : Type} (client : Client σ) : σ → List Command → List Bytes → Prop
  | _, [], [] => True
  | t, c :: commands, result :: results =>
    c.Accepts client (results = []) (commas results ++ [closeArray]) t result ∧
      ∀ t', process client c t (result ++ (commas results ++ [closeArray])) =
        .ok (t', commas results ++ [closeArray]) → Accepted client t' commands results
  | _, _, _ => False

def CodesTaken : List Command → List Bytes → Prop
  | c :: commands, result :: results =>
    (isNumber result → c.TakesCode) ∧ CodesTaken commands results
  | _, _ => True

def cursorsAfter : List Bytes → List Text
  | [] => []
  | _ :: results => (commas results ++ [closeArray]) :: cursorsAfter results

/-- Each command was run at its own result, and left the cursor behind it. -/
def Aligned {σ : Type} (client : Client σ) (t : σ) (commands : List Command)
    (results : List Bytes) : Prop :=
  ∃ t', procresult client commands t (array results) = .ok (cursorsAfter results, t')

section Codes
variable {σ : Type} (client : Client σ) {v : Bytes} {rest : Text}

/-- Neither a separator nor the start of a number. -/
def Unnumbered (c : UInt8) : Prop := c ≠ comma ∧ c ≠ minus ∧ isDigit c = false

instance (c : UInt8) : Decidable (Unnumbered c) := inferInstanceAs (Decidable (_ ∧ _))

theorem isnumeric_other {s : Text} (other : Unnumbered (peek s)) : isnumeric s = (false, s) := by
  obtain ⟨noComma, noMinus, noDigit⟩ := other
  simp only [isnumeric, skip_of_ne noComma, skip_of_ne noMinus, noDigit]

theorem isnumeric_number (number : isNumber v) : isnumeric (v ++ rest) = (true, v ++ rest) := by
  have starts := (IsValue.num number).starts rest
  cases v with
  | nil => cases number
  | cons c tail =>
    simp only [isnumeric, skip_of_ne starts.ne_comma]
    simp only [isNumber] at number
    split at number
    case isTrue negative =>
      cases tail with
      | nil => cases number
      | cons d tail =>
        rw [Bool.and_eq_true] at number
        rw [negative, List.cons_append, List.cons_append, skip_cons, peek_cons, number.1]
    case isFalse positive =>
      rw [Bool.and_eq_true] at number
      rw [List.cons_append, skip_of_ne (by rwa [peek_cons]), peek_cons, number.1]

theorem number_or_unnumbered (value : IsValue v) (rest : Text) :
    isNumber v ∨ Unnumbered (peek (v ++ rest)) := by
  cases value with
  | str literal => exact .inr (by decide : Unnumbered quote)
  | num number => exact .inl number
  | arr values => exact .inr (by decide : Unnumbered openArray)
  | obj names values => exact .inr (by decide : Unnumbered openObject)

theorem numeric_of_number (number : isNumber v) : Numeric v := by
  obtain ⟨c, tail, rfl, starts⟩ := startsValue_of_number number
  have other : c ≠ quote := by
    rintro rfl
    exact absurd starts (by decide)
  rw [Bool.or_eq_true, decide_eq_true_eq] at starts
  rwa [Numeric, skip_of_ne (by rwa [peek_cons]), peek_cons]

theorem numericOr_code {otherwise : Procresult σ} (number : isNumber v) (stop : Stop rest) (t : σ) :
    ∃ t', numericOr client otherwise t (v ++ rest) = .ok (t', rest) := by
  have reads := getint_value (.num number) (numeric_of_number number) stop
  refine ⟨report client (some (atoll (skip quote v))) [] t, ?_⟩
  simp only [numericOr, isnumeric_number number, reads]

theorem numericOr_other {otherwise : Procresult σ} {s : Text} (other : Unnumbered (peek s))
    (t : σ) :
    numericOr client otherwise t s = otherwise t s := by
  simp only [numericOr, isnumeric_other other]

theorem unnumbered_members (ms : List Member) :
    Unnumbered (peek (separated (ms.map member) ++ closeObject :: rest)) := by
  cases ms with
  | nil => exact (by decide : Unnumbered closeObject)
  | cons m ms => exact (by decide : Unnumbered quote)

end Codes

section Members
variable {σ : Type} (client : Client σ) {behind : Follow} {t : Locals × σ} {v : Bytes}

abbrev anyState : Locals × σ → Prop := fun _ => True

/-- What a command may do at a member: read it, leave something that is no name, or return. -/
abbrev Settles (behind : Follow) (read : Reader (Locals × σ)) (t : Locals × σ) (v : Bytes) : Prop :=
  Fits True behind read anyState t v

theorem callField_takes {f : Function σ}
    (takes : ∃ b t', ∀ rest, behind rest → f t.2 (v ++ rest) = .ok (b, t', rest)) :
    Settles behind (callField f) t v := by
  obtain ⟨b, t', reads⟩ := takes
  refine ⟨(t.1, t'), trivial, .inl fun rest follows => ?_⟩
  rw [callField, reads rest follows]

theorem callField_leaves {f : Function σ} (unnamed : Unnamed v)
    (leaves : ∃ b, ∀ rest, f t.2 (v ++ rest) = .ok (b, t.2, v ++ rest)) :
    Settles behind (callField f) t v := by
  obtain ⟨b, stays⟩ := leaves
  refine ⟨t, trivial, .inr (.inl ⟨unnamed, fun rest _ => ?_⟩)⟩
  rw [callField, stays]

theorem callOrReturn_takes {f : Function σ}
    (takes : ∃ b t', ∀ rest, behind rest → f t.2 (v ++ rest) = .ok (b, t', rest)) :
    Settles behind (callOrReturn client f) t v := by
  obtain ⟨b, t', reads⟩ := takes
  cases b with
  | true =>
    refine ⟨(t.1, t'), trivial, .inl fun rest follows => ?_⟩
    rw [callOrReturn, reads rest follows]
  | false =>
    refine ⟨(t.1, report client (some einternal) [] t'), trivial,
      .inr (.inr ⟨trivial, .inl fun rest follows => ?_⟩)⟩
    rw [callOrReturn, reads rest follows]

theorem callOrReturn_leaves {f : Function σ}
    (leaves : ∀ rest, f t.2 (v ++ rest) = .ok (false, t.2, v ++ rest)) :
    Settles behind (callOrReturn client f) t v := by
  refine ⟨(t.1, report client (some einternal) [] t.2), trivial,
    .inr (.inr ⟨trivial, .inr fun rest _ => ?_⟩)⟩
  rw [callOrReturn, leaves]

theorem callField_enters {f : Function σ} {opens : UInt8 → Prop} {shape : Bytes → Prop}
    (reads : Reads (fun _ => True) f shape) (ignores : Ignores f opens) (value : IsValue v)
    (enters : Enters opens shape v) : Settles behind (callField f) t v := by
  by_cases entered : opens (peek v)
  · obtain ⟨b, t', -, takes⟩ := reads v (enters.shaped entered) t.2 trivial
    exact callField_takes ⟨b, t', fun rest _ => takes rest⟩
  · obtain ⟨b, leaves⟩ := ignores v value entered
    exact callField_leaves enters.unnamed ⟨b, leaves t.2⟩

theorem unread_settles (unnamed : Unnamed v) : Settles behind unread t v :=
  ⟨t, trivial, .inr (.inl ⟨unnamed, fun _ _ => rfl⟩)⟩

section Records
variable {columns : Columns} {finish : Locals → σ → σ} {reject : Flow} {last : σ → σ}

theorem readrecords_settles (value : IsValue v) (admissible : behind.Admissible False)
    (records : Unnamed v ∧ Records columns v) :
    Settles behind (callField (readrecords columns finish reject last)) t v := by
  by_cases entered : peek v = openArray
  · obtain ⟨t', takes⟩ := readrecords_array behind (records.2 entered) admissible.single t.2
    exact callField_takes ⟨true, t', takes⟩
  · exact callField_leaves records.1 ⟨false, fun rest => readrecords_other value entered t.2 rest⟩

theorem readrecords_returns (value : IsValue v) (admissible : behind.Admissible False)
    (records : Records columns v) :
    Settles behind (callOrReturn client (readrecords columns finish reject last)) t v := by
  by_cases entered : peek v = openArray
  · obtain ⟨t', takes⟩ := readrecords_array behind (records entered) admissible.single t.2
    exact callOrReturn_takes client ⟨true, t', takes⟩
  · exact callOrReturn_leaves client fun rest => readrecords_other value entered t.2 rest

end Records

section Runs
variable {τ : Type} {cases : UInt64 → Option (Reader τ)} {shape : Member → Prop} {rest : Text}
  {ms : List Member}

/-- A loop at whose members it stays inside the object runs to some end. -/
theorem ReachedMembers.run (formed : WellFormed ms) (plain : ∀ m, shape m → Plain m.1)
    (settles : ∀ behind : Follow, behind.Admissible False → ∀ t m, shape m → IsValue m.2 →
      ∀ read, cases (nameid m.1) = some read → Fits True behind read (fun _ => True) t m.2)
    {t : τ} (reached : ReachedMembers cases shape rest t ms) :
    ∃ flow t' left, Run (· = rest) cases t ms flow t' left := by
  induction reached with
  | nil => exact ⟨_, _, _, .nil⟩
  | @cons t m ms shaped more ih =>
    have legible : m.Legible := ⟨plain m shaped, (formed m List.mem_cons_self).2⟩
    by_cases named : m.1 = []
    · obtain ⟨name, v⟩ := m
      obtain rfl : name = [] := named
      exact ⟨_, _, _, .unnamed⟩
    have name : getnameid (member m ++ (commas (ms.map member) ++ closeObject :: rest)) =
        .ok (nameid m.1, m.2 ++ (commas (ms.map member) ++ closeObject :: rest)) := by
      rw [member, List.append_assoc]
      exact getnameid_name legible.1 colon _
    have id := nameid_ne_zero legible.1.1 named
    cases case : cases (nameid m.1) with
    | none =>
      obtain ⟨flow, t', left, run⟩ := ih t
        (memberRound_skip name id case legible.2 (ends_commas_closeObject _ rest)) formed.tail
      exact ⟨flow, t', left, .skipped legible named case run⟩
    | some read =>
      obtain ⟨t₁, -, outcome⟩ := settles _
        (Follow.admissible_inObject (Follow.single_eq rest) ms) t m shaped legible.2 read case
      rcases outcome with takes | ⟨other, leaves⟩ | ⟨-, takes | leaves⟩
      · have round := memberRound_case (t := t) name id case
        rw [takes _ ⟨rest, rfl, rfl⟩] at round
        obtain ⟨flow, t', left, run⟩ := ih t₁ round formed.tail
        exact ⟨flow, t', left, .read legible named case takes run⟩
      · exact ⟨_, _, _, .refused legible named case leaves other⟩
      · exact ⟨_, _, _, .returned legible named case takes⟩
      · exact ⟨_, _, _, .left legible named case leaves⟩

end Runs

/-- The loop of a command ends inside its result. -/
theorem readmembers_reached {cases : UInt64 → Option (Reader (Locals × σ))} {shape : Member → Prop}
    {ms : List Member} {rest : Text} (formed : WellFormed ms) (plain : ∀ m, shape m → Plain m.1)
    (settles : ∀ behind : Follow, behind.Admissible False → ∀ t m, shape m → IsValue m.2 →
      ∀ read, cases (nameid m.1) = some read → Settles behind read t m.2) {t : σ}
    (reached : ReachedMembers cases shape rest ([], t) ms) :
    ∃ t' left, Remainder left ∧
      readmembers client cases t (separated (ms.map member) ++ closeObject :: rest) =
        .ok (t', left ++ closeObject :: rest) := by
  obtain ⟨flow, t', left, run⟩ := reached.run formed plain settles
  have read := members_run run rfl
  have inside := run.remainder formed
  rw [readmembers, read]
  cases flow with
  | next => exact ⟨_, left, inside, rfl⟩
  | ended => exact ⟨_, left, inside, rfl⟩
  | returned => exact ⟨_, left, inside, rfl⟩
  | rejected => exact ⟨_, left, inside, rfl⟩

/-- The same for a loop given by its columns and other cases. -/
theorem readmembers_fields {columns : Columns} {readers : List (String × Reader (Locals × σ))}
    {shapes : List (String × (Bytes → Prop))} {ms : List Member} {rest : Text} {t : σ}
    (formed : WellFormed ms) (fields : Command.Fields rest t columns readers shapes ms)
    (settles : ∀ behind : Follow, behind.Admissible False → ∀ t v, IsValue v →
      ∀ reader ∈ readers,
        (∀ shape ∈ shapes, nameid (ascii shape.1) = nameid (ascii reader.1) → shape.2 v) →
          Settles behind reader.2 t v) :
    ∃ t' left, Remainder left ∧ readmembers client (casesOf columns readers) t
      (separated (ms.map member) ++ closeObject :: rest) =
        .ok (t', left ++ closeObject :: rest) := by
  refine readmembers_reached client formed (fun m field => field.plain) ?_ fields
  intro behind admissible t m field value read case
  rcases Option.or_eq_some_iff.mp case with column | ⟨-, other⟩
  · obtain ⟨kind, found, rfl⟩ := Columns.cases_eq_some column
    exact kind.fits_assign (fun _ => True) (nameid m.1) value (field.columns kind found)
      admissible trivial
  · obtain ⟨reader, found, rfl⟩ := Option.map_eq_some_iff.mp other
    have name : nameid (ascii reader.1) = nameid m.1 := by
      simpa using List.find?_some found
    refine settles behind admissible t m.2 value reader (List.mem_of_find?_eq_some found) ?_
    intro shape listed same
    exact field.others shape listed (same.trans name)

end Members

section Rows
variable {σ : Type} (client : Client σ) {rest : Text}

theorem Kind.read_comma (kind : Kind) {s : Text} (starts : Starts s) :
    kind.read (comma :: s) = kind.read s := by
  cases kind with
  | int => simp only [Kind.read, getint_comma starts]
  | float => simp only [Kind.read, getfloat_comma starts]
  | handle size => simp only [Kind.read, gethandle_comma starts]
  | link => simp only [Kind.read, is_comma starts, gethandle_comma starts]
  | value => simp only [Kind.read, getvalue_comma starts]
  | token len => simp only [Kind.read, payload_comma starts, getvalue_comma starts]
  | binary len => simp only [Kind.read, storebinary_comma starts]
  | stored => simp only [Kind.read, storeobject_comma starts]

/-- A value that is followed by a known text. -/
theorem Kind.read_cursor (kind : Kind) {v : Bytes} (value : IsValue v) (exact : kind.Exact False v)
    (stop : Stop rest) : (kind.read (v ++ rest)).2 = rest := by
  have admissible : Follow.Admissible False (· = rest) := by
    constructor
    · rintro _ rfl
      exact stop
    · exact Follow.single_eq rest
  obtain ⟨x, reads⟩ := kind.read_exact value exact admissible
  rw [reads rest rfl]

/-- From the second value of a row on. -/
theorem readrow_commas {kinds : List Kind} {row : List Bytes} (shape : Row kinds row)
    (stop : Stop rest) : (readrow kinds (commas row ++ rest)).2 = rest := by
  induction shape with
  | nil => rfl
  | @cons kind x kinds row first others ih =>
    have follows : Stop (commas row ++ rest) := by
      cases row with
      | nil => exact stop
      | cons y row =>
        rw [commas_cons]
        exact stop_comma
    have cursor := kind.read_cursor first.1 first.2 follows
    rw [commas_cons, List.cons_append, List.append_assoc, readrow,
      kind.read_comma (first.1.starts _), cursor]
    exact ih

theorem readrow_row {kinds : List Kind} {row : List Bytes} (shape : Row kinds row)
    (stop : Stop rest) : (readrow kinds (separated row ++ rest)).2 = rest := by
  cases shape with
  | nil => rfl
  | @cons kind x kinds row first others =>
    have second := readrow_commas (List.Forall₂.cons first others) stop
    rw [commas_cons, List.cons_append, List.append_assoc, readrow,
      kind.read_comma (first.1.starts _)] at second
    rw [separated, List.append_assoc, readrow]
    exact second

theorem Row.values {kinds : List Kind} {row : List Bytes} (shape : Row kinds row) :
    ∀ x ∈ row, IsValue x := by
  induction shape with
  | nil => exact fun x mem => absurd mem List.not_mem_nil
  | @cons kind y kinds row first others ih =>
    intro x mem
    rcases List.mem_cons.mp mem with rfl | later
    · exact first.1
    · exact ih x later

/-- The rows of a result, up to the closing bracket. -/
theorem loop_row {kinds : List Kind} {xs : List Bytes} (shape : Rows kinds xs) (t : σ)
    (rest : Text) :
    ∃ t', loop (arrayRound (row client kinds)) t (separated xs ++ closeArray :: rest) =
      .ok (.ended, t', closeArray :: rest) := by
  obtain ⟨rows, rfl, shapes⟩ := shape
  have each : ∀ behind : Follow, behind.Admissible False → ∀ r ∈ rows, ∀ t, True →
      ∃ t', True ∧ ∀ rest, behind rest →
        row client kinds t (separated r ++ closeArray :: rest) = .ok (.next, t', rest) := by
    intro behind admissible r mem t _
    have cursor : ∀ rest, ∃ t', row client kinds t (separated r ++ closeArray :: rest) =
        .ok (.next, t', rest) := by
      intro rest
      rw [row, readrow_row (shapes r mem) stop_closeArray, leavearray_closeArray]
      exact ⟨_, rfl⟩
    obtain ⟨t', reads⟩ := admissible.uniform t fun rest _ => cursor rest
    exact ⟨t', trivial, reads⟩
  obtain ⟨t', -, run⟩ := loop_rows False (· = rest) (row client kinds) (fun _ => True)
    (Follow.single_eq rest) (fun row mem => (shapes row mem).values) each (t := t) trivial
  exact ⟨t', run rest rfl⟩

theorem readrows_array {kinds : List Kind} {xs : List Bytes} (shape : Rows kinds xs) (t : σ) :
    ∃ t', readrows client kinds t (separated xs ++ closeArray :: rest) =
      .ok (t', closeArray :: rest) := by
  obtain ⟨t', run⟩ := loop_row client shape t rest
  exact ⟨_, by rw [readrows, run]⟩

end Rows

section Cases
variable {σ : Type} (client : Client σ) {behind : Follow} {t : Locals × σ} {v : Bytes}

/-- With an owner key for a node that has a share key the loop ends. -/
theorem ownerkey_returns {sh : Handle} (value : IsValue v) (string : peek v = quote)
    (owner : (Base64.atob (skip quote v) 18).length = 16 ∧ client.sharekey t.2 sh) {rest : Text}
    (stop : Stop rest) : ownerkey client sh t (v ++ rest) =
      .ok (.returned, (t.1, client.perform
        (.result none [(0, .binary (Base64.atob (skip quote v) 18))]) t.2), rest) := by
  rw [ownerkey, storebinary_value value string stop 18]
  exact if_pos owner

theorem ownerkey_settles (sh : Handle) (value : IsValue v) (admissible : behind.Admissible False) :
    Settles behind (ownerkey client sh) t v := by
  by_cases string : peek v = quote
  · by_cases owner : (Base64.atob (skip quote v) 18).length = 16 ∧ client.sharekey t.2 sh
    · exact ⟨_, trivial, .inr (.inr ⟨trivial, .inl fun rest follows =>
        ownerkey_returns client value string owner (admissible.stop rest follows)⟩)⟩
    · refine ⟨t, trivial, .inl fun rest follows => ?_⟩
      rw [ownerkey, storebinary_value value string (admissible.stop rest follows) 18]
      exact if_neg owner
  · refine ⟨t, trivial, .inr (.inl ⟨string, fun rest _ => ?_⟩)⟩
    rw [ownerkey, storebinary_other value string]
    exact if_neg fun owner => absurd owner.1 (by decide)

theorem setscsn_settles (value : IsValue v) (admissible : behind.Admissible False) :
    Settles behind (callOrReturn client (setscsn client)) t v := by
  by_cases string : peek v = quote
  · have reads : ∀ rest, behind rest →
        storebinary 8 (v ++ rest) = (Base64.atob (skip quote v) 8, rest) :=
      fun rest follows => storebinary_value value string (admissible.stop rest follows) 8
    by_cases whole : (Base64.atob (skip quote v) 8).length = 8
    · refine callOrReturn_takes client ⟨true,
        client.perform (.setscsn (Base64.atob (skip quote v) 8)) t.2, fun rest follows => ?_⟩
      rw [setscsn, reads rest follows]
      exact if_pos whole
    · refine callOrReturn_takes client ⟨false, t.2, fun rest follows => ?_⟩
      rw [setscsn, reads rest follows]
      exact if_neg whole
  · refine callOrReturn_leaves client fun rest => ?_
    rw [setscsn, storebinary_other value string]
    exact if_neg (by decide)

theorem shareusers_settles (value : IsValue v) (skipped : Unnamed v ∧ peek v ≠ openArray) :
    Settles behind (shareusers client) t v := by
  refine ⟨t, trivial, .inr (.inl ⟨skipped.1, fun rest _ => ?_⟩)⟩
  have other : peek (v ++ rest) ≠ openArray := by
    rw [peek_append value.ne_nil]
    exact skipped.2
  rw [shareusers, enterarray_other (value.starts rest) other]

theorem inarray_settles {round : Reader σ} {shape : Bytes → Prop} (value : IsValue v)
    (admissible : behind.Admissible False) (enters : Enters (· = openArray) shape v)
    (reads : shape v → ∃ xs, v = array xs ∧ ∀ t rest, ∃ t',
      loop round t (separated xs ++ closeArray :: rest) = .ok (.ended, t', closeArray :: rest)) :
    Settles behind (inarray round) t v := by
  by_cases entered : peek v = openArray
  · obtain ⟨xs, rfl, run⟩ := reads (enters.shaped entered)
    have cursor : ∀ rest, ∃ t', inarray round t (array xs ++ rest) =
        .ok (.next, (t.1, t'), rest) := by
      intro rest
      obtain ⟨t', goes⟩ := run t.2 rest
      refine ⟨t', ?_⟩
      rw [inarray, enterarray_array]
      simp only [goes, leavearray_closeArray]
    obtain ⟨t', takes⟩ := admissible.uniform t.2 fun rest _ => cursor rest
    exact ⟨(t.1, t'), trivial, .inl takes⟩
  · refine ⟨t, trivial, .inr (.inl ⟨enters.unnamed, fun rest _ => ?_⟩)⟩
    rw [inarray, enterarray_other (value.starts rest) (by rwa [peek_append value.ne_nil])]

/-- A loop that takes one number in each round and ends where there is none. -/
theorem loop_numbers {round : Reader σ} {xs : List Bytes} (numbers : ∀ x ∈ xs, isNumber x)
    (skips : ∀ t s, Starts s → round t (comma :: s) = round t s)
    (last : ∀ t rest, round t (closeArray :: rest) = .ok (.ended, t, closeArray :: rest))
    (each : ∀ x ∈ xs, ∀ t, ∃ t', ∀ rest, Stop rest → round t (x ++ rest) = .ok (.next, t', rest))
    (t : σ) (rest : Text) :
    ∃ t', loop round t (separated xs ++ closeArray :: rest) =
      .ok (.ended, t', closeArray :: rest) := by
  obtain ⟨t', -, run⟩ := loop_elements round (fun _ _ => True) [] (Follow.single_eq rest) skips last
    last (fun x mem => .num (numbers x mem))
    (fun behind admissible x mem _ t _ => by
      obtain ⟨t', takes⟩ := each x mem t
      exact ⟨t', trivial, fun rest follows => takes rest (admissible.stop rest follows)⟩)
    (t := t) trivial
  exact ⟨t', run rest rfl⟩

theorem shareresults_settles (value : IsValue v) (admissible : behind.Admissible False)
    (enters : Enters (· = openArray) Codes v) : Settles behind (shareresults client) t v := by
  refine inarray_settles value admissible enters ?_
  rintro ⟨xs, rfl, numbers⟩
  refine ⟨xs, rfl, fun t rest => loop_numbers numbers ?_ ?_ ?_ t rest⟩
  · intro t s starts
    simp only [shareresultRound, isnumeric_comma starts]
  · intro t rest
    rfl
  · intro x mem t
    refine ⟨report client (some (atoll (skip quote x))) [] t, fun rest stop => ?_⟩
    simp only [shareresultRound, isnumeric_number (numbers x mem),
      getint_value (.num (numbers x mem)) (numeric_of_number (numbers x mem)) stop]

theorem history_settles (value : IsValue v) (admissible : behind.Admissible False)
    (enters : Enters (· = openArray) Amounts v) : Settles behind (history client) t v := by
  refine inarray_settles value admissible enters ?_
  rintro ⟨xs, rfl, amounts⟩
  refine ⟨xs, rfl, fun t rest => loop_numbers (fun x mem => (amounts x mem).1) ?_ ?_ ?_ t rest⟩
  · intro t s starts
    simp only [historyRound, getint_comma starts]
  · intro t rest
    rfl
  · intro x mem t
    obtain ⟨number, nonneg⟩ := amounts x mem
    obtain ⟨c, tail, rfl, starts⟩ := startsValue_of_number number
    have other : peek (c :: tail) ≠ quote := by
      rintro rfl
      exact absurd starts (by decide)
    refine ⟨report client none [(0, .number (atoll (c :: tail)))] t, fun rest stop => ?_⟩
    simp only [historyRound, getint_value (.num number) (numeric_of_number number) stop,
      skip_of_ne other, if_pos nonneg]

theorem balances_settles (value : IsValue v) (admissible : behind.Admissible False)
    (enters : Enters (· = openArray) (RowArray [.value, .value]) v) :
    Settles behind (balances client) t v := by
  refine inarray_settles value admissible enters ?_
  rintro ⟨xs, rfl, shape⟩
  exact ⟨xs, rfl, fun t rest => loop_row client shape t rest⟩

end Cases

section Arrays
variable {σ : Type} (client : Client σ) {rest : Text}

theorem IsAmount.getint {v : Bytes} (amount : IsAmount v) (stop : Stop rest) :
    getint (comma :: (v ++ rest)) = (atoll (skip quote v), rest) :=
  (getint_element amount.value amount.numeric stop).2

theorem quotaitem_row {row : List Bytes} (shape : QuotaRow row) (t : σ) (rest : Text) :
    ∃ t', quotaitem client t (separated row ++ closeArray :: rest) = .ok (.next, t', rest) := by
  obtain ⟨product, prolevel, gbstorage, gbtransfer, months, amount, currency, rfl, handle, level,
    storage, transfer, period, amountValue, currencyValue⟩ := shape
  obtain ⟨h, product'⟩ := handle.gethandle
  have values : Row [.value, .value] [amount, currency] :=
    .cons ⟨amountValue, False.elim⟩ (.cons ⟨currencyValue, False.elim⟩ .nil)
  have cursor := readrow_commas values (@stop_closeArray rest)
  have text : separated [product, prolevel, gbstorage, gbtransfer, months, amount, currency] ++
      closeArray :: rest = product ++ comma :: (prolevel ++ comma :: (gbstorage ++
        comma :: (gbtransfer ++ comma :: (months ++ (commas [amount, currency] ++
          closeArray :: rest))))) := by
    simp [separated]
  have next : Stop (commas [amount, currency] ++ closeArray :: rest) := by
    rw [commas_cons]
    exact stop_comma
  cases read : readrow [.value, .value] (commas [amount, currency] ++ closeArray :: rest) with
  | mk texts after =>
    rw [read] at cursor
    obtain rfl := cursor
    rw [text, quotaitem]
    simp only [product' _ stop_comma, level.getint stop_comma, storage.getint stop_comma,
      transfer.getint stop_comma, period.getint next, Int.not_lt.mpr level.nonneg,
      Int.not_lt.mpr storage.nonneg, Int.not_lt.mpr transfer.nonneg, Int.not_lt.mpr period.nonneg,
      if_false, read, leavearray_closeArray]
    exact ⟨_, rfl⟩

theorem QuotaRow.values {row : List Bytes} (shape : QuotaRow row) : ∀ x ∈ row, IsValue x := by
  obtain ⟨product, prolevel, gbstorage, gbtransfer, months, amount, currency, rfl, handle, level,
    storage, transfer, period, amountValue, currencyValue⟩ := shape
  simp only [List.forall_mem_cons, List.not_mem_nil, false_imp_iff, implies_true, and_true]
  exact ⟨handle.value, level.value, storage.value, transfer.value, period.value, amountValue,
    currencyValue⟩

theorem enumerateQuotaItems_array {rows : List (List Bytes)} (shapes : ∀ row ∈ rows, QuotaRow row)
    (t : σ) : ∃ t', enumerateQuotaItems client t
      (separated (rows.map array) ++ closeArray :: rest) = .ok (t', closeArray :: rest) := by
  have each : ∀ behind : Follow, behind.Admissible False → ∀ r ∈ rows, ∀ t, True →
      ∃ t', True ∧ ∀ rest, behind rest →
        quotaitem client t (separated r ++ closeArray :: rest) = .ok (.next, t', rest) := by
    intro behind admissible r mem t _
    obtain ⟨t', reads⟩ := admissible.uniform t fun rest _ =>
      quotaitem_row client (shapes r mem) t rest
    exact ⟨t', trivial, reads⟩
  obtain ⟨t', -, run⟩ := loop_rows False (· = rest) (quotaitem client) (fun _ => True)
    (Follow.single_eq rest) (fun row mem => (shapes row mem).values) each (t := t) trivial
  have open' : Unnumbered (peek (separated (rows.map array) ++ closeArray :: rest)) := by
    cases rows with
    | nil => exact (by decide : Unnumbered closeArray)
    | cons r rows => exact (by decide : Unnumbered openArray)
  refine ⟨report client none [] t', ?_⟩
  rw [enumerateQuotaItems, numericOr_other client open', run rest rfl]

end Arrays

section Signup
variable {σ : Type} (client : Client σ) {rest : Text} {v : Bytes}

theorem storebinarystring_comma {s : Text} (starts : Starts s) :
    storebinarystring (comma :: s) = storebinarystring s := by
  simp only [storebinarystring, skip_cons, skip_of_ne starts.ne_comma]

theorem storebinarystring_value (value : IsValue v) (string : peek v = quote) (ends : Ends rest) :
    ∃ x, storebinarystring (v ++ rest) = (some x, rest) := by
  have closed : quote ∈ (v ++ rest).tail := by
    obtain ⟨content, -, rfl⟩ := value.exists_str string
    simp [str]
  have opened : peek (v ++ rest) = quote := by rwa [peek_append value.ne_nil]
  simp only [storebinarystring, skip_of_ne (value.starts rest).ne_comma, if_pos opened,
    if_pos closed, storeobject_value value ends]
  exact ⟨_, rfl⟩

theorem readrow_tokens {first second : Bytes} (firstValue : IsValue first)
    (secondValue : IsValue second) :
    readrow [.token 16, .token 16] (commas [first, second] ++ closeArray :: rest) =
      ([.binary (Base64.atob (skip quote first) 16), .binary (Base64.atob (skip quote second) 16)],
        closeArray :: rest) := by
  have token : ∀ {v : Bytes} {rest : Text}, IsValue v → Stop rest →
      Kind.read (.token 16) (comma :: (v ++ rest)) =
        (.binary (Base64.atob (skip quote v) 16), rest) := by
    intro v rest value stop
    rw [Kind.read_comma _ (value.starts rest), Kind.read, getvalue_cursor value stop.ends,
      payload_value value, Base64.atob_append stop.from64]
  have text : commas [first, second] ++ closeArray :: rest =
      comma :: (first ++ comma :: (second ++ closeArray :: rest)) := by simp
  rw [text]
  simp only [readrow, token firstValue stop_comma, token secondValue stop_closeArray]

/-- The command leaves the array itself if it accepts the link. -/
theorem querySignupLink_array {last : Prop} {xs : List Bytes} (shape : SignupRow last xs)
    (follows : ¬last → peek rest ≠ closeArray) (t : σ) :
    ∃ t' s', querySignupLink client t (separated xs ++ closeArray :: rest) = .ok (t', s') ∧
      (leavearray s').2 = rest := by
  obtain ⟨name, email, uh, pwkey, kc, rfl, strings, defined, notBoth⟩ := shape
  simp only [List.forall_mem_cons, List.not_mem_nil, false_imp_iff, implies_true, and_true]
    at strings
  obtain ⟨⟨nameValue, nameString⟩, ⟨emailValue, emailString⟩, ⟨uhValue, uhString⟩,
    ⟨pwkeyValue, -⟩, kcValue, -⟩ := strings
  have text : separated [name, email, uh, pwkey, kc] ++ closeArray :: rest =
      name ++ comma :: (email ++ comma :: (uh ++ (commas [pwkey, kc] ++ closeArray :: rest))) := by
    simp [separated]
  have first : Unnumbered (peek (name ++ comma :: (email ++ comma :: (uh ++
      (commas [pwkey, kc] ++ closeArray :: rest))))) := by
    rw [peek_append nameValue.ne_nil, nameString]
    decide
  have next : Stop (commas [pwkey, kc] ++ closeArray :: rest) := by
    rw [commas_cons]
    exact stop_comma
  obtain ⟨n, readName⟩ := storebinarystring_value nameValue nameString
    (@stop_comma (email ++ comma :: (uh ++ (commas [pwkey, kc] ++ closeArray :: rest)))).ends
  obtain ⟨e, readEmail⟩ := storebinarystring_value emailValue emailString
    (@stop_comma (uh ++ (commas [pwkey, kc] ++ closeArray :: rest))).ends
  rw [← storebinarystring_comma (emailValue.starts _)] at readEmail
  have readHandle := gethandle_value uhValue uhString next 8
  rw [← gethandle_comma (uhValue.starts _)] at readHandle
  rw [text, querySignupLink, numericOr_other client first]
  simp only [readName, readEmail, readHandle, defined, Bool.false_eq_true, if_false,
    readrow_tokens pwkeyValue kcValue]
  split
  case isTrue accepted =>
    have both : SignupAccepted uh pwkey kc := by
      simpa [SignupAccepted, Option.ne_none_iff_isSome, and_assoc] using accepted
    refine ⟨_, rest, rfl, ?_⟩
    rw [leavearray, if_neg (follows fun last => notBoth ⟨last, both⟩)]
  case isFalse => exact ⟨_, closeArray :: rest, rfl, rfl⟩

end Signup

section Objects
variable {σ : Type} (client : Client σ) {ms : List Member} {rest : Text} {t : σ}

/-- The command ends somewhere inside the object. -/
def EndsInside (read : Procresult σ) (t : σ) (ms : List Member) (rest : Text) : Prop :=
  ∃ t' left, Remainder left ∧ read t (separated (ms.map member) ++ closeObject :: rest) =
    .ok (t', left ++ closeObject :: rest)

theorem endsInside_numericOr {otherwise : Procresult σ} (inside : EndsInside otherwise t ms rest) :
    EndsInside (numericOr client otherwise) t ms rest := by
  rw [EndsInside, numericOr_other client (unnumbered_members ms)]
  exact inside

/-- The name of the first member is stored, and the rest is left. -/
theorem endsInside_storeresult (nonempty : ms ≠ []) (formed : WellFormed ms) :
    EndsInside (storeresult client) t ms rest := by
  cases ms with
  | nil => exact absurd rfl nonempty
  | cons m ms =>
    obtain ⟨name, value⟩ := formed m List.mem_cons_self
    have text : separated ((m :: ms).map member) ++ closeObject :: rest =
        str m.1 ++ (colon :: (m.2 ++ commas (ms.map member)) ++ closeObject :: rest) := by
      simp [separated, member]
    refine ⟨report client none [(0, .stored (some (Json.stored (str m.1))))] t,
      colon :: (m.2 ++ commas (ms.map member)),
      .separator (.inr rfl) (remainder_value value (remainder_commas formed.tail)), ?_⟩
    have ends : Ends (colon :: (m.2 ++ commas (ms.map member)) ++ closeObject :: rest) := rfl
    rw [storeresult, text, storeobject_value (.str name) ends]

variable (formed : WellFormed ms)
include formed

theorem endsInside_columns {columns : Columns} (fields : Command.Fields rest t columns [] [] ms) :
    EndsInside (readmembers client (casesOf columns [])) t ms rest :=
  readmembers_fields client formed fields fun _ _ _ _ _ _ listed => absurd listed List.not_mem_nil

/-- A command that reads nothing leaves everything. -/
theorem endsInside_unread (f : σ → σ) : EndsInside (fun t s => .ok (f t, s)) t ms rest :=
  ⟨f t, separated (ms.map member), remainder_separated formed, rfl⟩

theorem endsInside_putFA (fields : Command.putFA.TakesObject client rest t ms) :
    EndsInside (putFA client) t ms rest := by
  rw [EndsInside, putFA, isnumeric_other (unnumbered_members ms)]
  exact endsInside_columns client formed fields

theorem endsInside_getFA {part : Int}
    (fields : (Command.getFA part).TakesObject client rest t ms) :
    EndsInside (getFA client part) t ms rest := by
  rw [EndsInside, getFA]
  split
  case isTrue requested =>
    rw [isnumeric_other (unnumbered_members ms)]
    exact endsInside_columns client formed (fields requested)
  case isFalse => exact endsInside_unread formed id

theorem endsInside_putFile {canceled : Bool}
    (fields : (Command.putFile canceled).TakesObject client rest t ms) :
    EndsInside (putFile client canceled) t ms rest := by
  rw [EndsInside, putFile, isnumeric_other (unnumbered_members ms)]
  cases canceled with
  | false => exact endsInside_columns client formed fields
  | true =>
    refine readmembers_fields client formed fields ?_
    intro behind _ t v _ reader listed shape
    obtain rfl := List.mem_singleton.mp listed
    exact unread_settles (shape ("p", Unnamed) List.mem_cons_self rfl)

theorem endsInside_getFile {tslot : Bool}
    (fields : (Command.getFile tslot).TakesObject client rest t ms) :
    EndsInside (getFile client tslot) t ms rest := by
  refine endsInside_numericOr client ?_
  cases tslot with
  | true =>
    refine readmembers_fields client formed fields ?_
    intro behind _ t v _ reader listed shape
    obtain rfl := List.mem_singleton.mp listed
    exact unread_settles (shape ("d", Unnamed) List.mem_cons_self rfl)
  | false =>
    refine readmembers_fields client formed fields ?_
    intro behind _ t v _ reader listed shape
    rcases List.mem_cons.mp listed with rfl | listed
    · exact unread_settles (shape ("d", Unnamed) List.mem_cons_self rfl)
    · obtain rfl := List.mem_singleton.mp listed
      exact unread_settles (shape ("pfa", Unnamed) (by simp) rfl)

theorem endsInside_putNodes (fields : Command.putNodes.TakesObject client rest t ms) :
    EndsInside (putNodes client) t ms rest := by
  refine endsInside_numericOr client (readmembers_fields client formed fields ?_)
  intro behind admissible t v value reader listed shape
  obtain rfl := List.mem_singleton.mp listed
  exact readrecords_settles value admissible (shape ("f", _) List.mem_cons_self rfl)

theorem endsInside_getPH (fields : Command.getPH.TakesObject client rest t ms) :
    EndsInside (getPH client) t ms rest := by
  refine endsInside_numericOr client ?_
  refine readmembers_reached client formed (fun m field => field.plain) ?_ fields
  intro behind admissible t m field value read case
  rcases Option.or_eq_some_iff.mp case with column | ⟨-, other⟩
  · rcases Option.or_eq_some_iff.mp column with column | ⟨-, none⟩
    · obtain ⟨kind, found, rfl⟩ := Columns.cases_eq_some column
      exact kind.fits_assign (fun _ => True) (nameid m.1) value (field.columns kind found)
        admissible trivial
    · cases none
  · cases other
    refine ⟨t, trivial, .inl fun rest follows => ?_⟩
    simp only [storeobject_value value (admissible.stop rest follows).ends]

omit formed in
theorem requests_any (call : Call) (_ : σ) (_ : call.Requests) (_ : True) : True := trivial

theorem endsInside_fetchNodes (fields : Command.fetchNodes.TakesObject client rest t ms) :
    EndsInside (fetchNodes client) t ms rest := by
  refine endsInside_numericOr client (readmembers_fields client formed fields ?_)
  intro behind admissible t v value reader listed shape
  simp only [List.forall_mem_cons] at shape
  obtain ⟨f, ok, s, u, cr, sr, -⟩ := shape
  simp only [fetchNodesReaders, List.mem_cons, List.not_mem_nil, or_false] at listed
  rcases listed with rfl | rfl | rfl | rfl | rfl | rfl | rfl
  · exact readrecords_returns client value admissible (f rfl)
  · exact readrecords_settles value admissible (ok rfl)
  · exact readrecords_settles value admissible (s rfl)
  · exact readrecords_returns client value admissible (u rfl)
  · exact callField_enters (proccr_reads client _ requests_any) (proccr_ignores client) value
      (cr rfl)
  · exact callField_enters (procsr_reads client _ requests_any) (procsr_ignores client) value
      (sr rfl)
  · exact setscsn_settles client value admissible

theorem endsInside_setShare {sh : Handle}
    (fields : (Command.setShare sh).TakesObject client rest t ms) :
    EndsInside (setShare client sh) t ms rest := by
  refine endsInside_numericOr client (readmembers_fields client formed fields ?_)
  intro behind admissible t v value reader listed shape
  simp only [List.forall_mem_cons] at shape
  obtain ⟨u, r, snk, suk, cr, -⟩ := shape
  simp only [setShareReaders, List.mem_cons, List.not_mem_nil, or_false] at listed
  rcases listed with rfl | rfl | rfl | rfl | rfl | rfl
  · exact ownerkey_settles client sh value admissible
  · exact shareusers_settles client value (u rfl)
  · exact shareresults_settles client value admissible (r rfl)
  · exact callField_enters (procsnk_reads client _ requests_any) (procsnk_ignores client) value
      (snk rfl)
  · exact callField_enters (procsuk_reads _) procsuk_ignores value (suk rfl)
  · exact callField_enters (proccr_reads client _ requests_any) (proccr_ignores client) value
      (cr rfl)

theorem endsInside_getUserQuota (fields : Command.getUserQuota.TakesObject client rest t ms) :
    EndsInside (getUserQuota client) t ms rest := by
  refine endsInside_numericOr client (readmembers_fields client formed fields ?_)
  intro behind admissible t v value reader listed shape
  simp only [List.forall_mem_cons] at shape
  obtain ⟨tah, balance, -⟩ := shape
  simp only [getUserQuotaReaders, List.mem_cons, List.not_mem_nil, or_false] at listed
  rcases listed with rfl | rfl
  · exact history_settles client value admissible (tah rfl)
  · exact balances_settles client value admissible (balance rfl)

/-- Every command ends inside an object that it accepts. -/
theorem endsInside_procresult {c : Command} (takes : c.TakesObject client rest t ms) :
    EndsInside (c.procresult client) t ms rest := by
  cases c with
  | putFA => exact endsInside_putFA client formed takes
  | getFA part => exact endsInside_getFA client formed takes
  | putFile canceled => exact endsInside_putFile client formed takes
  | getFile tslot => exact endsInside_getFile client formed takes
  | putNodes => exact endsInside_putNodes client formed takes
  | fetchNodes => exact endsInside_fetchNodes client formed takes
  | getPH => exact endsInside_getPH client formed takes
  | setShare sh => exact endsInside_setShare client formed takes
  | getUserQuota => exact endsInside_getUserQuota client formed takes
  | pubKeyRequest =>
    rw [EndsInside, Command.procresult, pubKeyRequest, isnumeric_other (unnumbered_members ms)]
    exact endsInside_columns client formed takes
  | shareKeyUpdate | nodeKeyUpdate | singleKeyCR | keyCR =>
    exact endsInside_numericOr client (endsInside_columns client formed takes)
  | login => exact endsInside_numericOr client (endsInside_columns client formed takes)
  | resumeEphemeralSession =>
    exact endsInside_numericOr client (endsInside_columns client formed takes)
  | setMasterKey => exact endsInside_numericOr client (endsInside_unread formed _)
  | purchaseAddItem => exact endsInside_unread formed id
  | attachFA | setAttr | moveNode | delNode | userRequest | putUA | sendSignupLink
  | confirmSignupLink | setKeyPair | purchaseCheckout =>
    exact endsInside_numericOr client (endsInside_storeresult client takes.2 formed)
  | setPH | getUA | createEphemeralSession | querySignupLink | getUserTransactions
  | getUserPurchases | getUserSessions | enumerateQuotaItems => exact absurd takes.1 id

end Objects

section Elements
variable {σ : Type} (client : Client σ) {rest : Text}

theorem procresult_code {c : Command} (takes : c.TakesCode) {v : Bytes} (number : isNumber v)
    (stop : Stop rest) (t : σ) : ∃ t', c.procresult client t (v ++ rest) = .ok (t', rest) := by
  cases c with
  | putFA | getFA _ | pubKeyRequest | getUserTransactions | getUserPurchases | getUserSessions
  | purchaseAddItem => exact absurd takes id
  | putFile canceled =>
    cases canceled with
    | true => exact absurd takes id
    | false =>
      have reads := getint_value (.num number) (numeric_of_number number) stop
      refine ⟨report client (some (atoll (skip quote v))) [] t, ?_⟩
      simp only [Command.procresult, putFile, isnumeric_number number, reads, Bool.false_eq_true,
        if_false]
  | setMasterKey =>
    rw [Command.procresult, setMasterKey]
    exact numericOr_code client number stop t
  | querySignupLink =>
    rw [Command.procresult, querySignupLink]
    exact numericOr_code client number stop t
  | enumerateQuotaItems =>
    rw [Command.procresult, enumerateQuotaItems]
    exact numericOr_code client number stop t
  | _ => exact numericOr_code client number stop t

theorem procresult_string {c : Command} (takes : c.TakesString) {content : Bytes}
    (literal : isLiteral content) (stop : Stop rest) (t : σ) :
    ∃ t', c.procresult client t (str content ++ rest) = .ok (t', rest) := by
  have value : IsValue (str content) := .str literal
  have string : Unnumbered (peek (str content ++ rest)) := (by decide : Unnumbered quote)
  have stores : ∃ t', numericOr client (storeresult client) t (str content ++ rest) =
      .ok (t', rest) := by
    rw [numericOr_other client string, storeresult, storeobject_value value stop.ends]
    exact ⟨_, rfl⟩
  have reads : ∀ kind : Kind, kind.Exact False (str content) →
      ∃ t', numericOr client (readvalue client kind) t (str content ++ rest) = .ok (t', rest) := by
    intro kind exact
    rw [numericOr_other client string, readvalue, kind.read_cursor value exact stop]
    exact ⟨_, rfl⟩
  cases c with
  | setPH => exact reads (.handle 6) rfl
  | createEphemeralSession => exact reads (.handle 8) rfl
  | getUA => exact reads .value False.elim
  | attachFA | setAttr | moveNode | delNode | userRequest | putUA | sendSignupLink
  | confirmSignupLink | setKeyPair | purchaseCheckout => exact stores
  | _ => exact absurd takes id

theorem procresult_array {c : Command} {last : Prop} {xs : List Bytes}
    (takes : c.TakesArray last xs)
    (follows : ¬last → peek rest ≠ closeArray) (t : σ) :
    ∃ t' s', c.procresult client t (separated xs ++ closeArray :: rest) = .ok (t', s') ∧
      (leavearray s').2 = rest := by
  have closes : ∀ {read : Procresult σ},
      (∃ t', read t (separated xs ++ closeArray :: rest) = .ok (t', closeArray :: rest)) →
        ∃ t' s', read t (separated xs ++ closeArray :: rest) = .ok (t', s') ∧
          (leavearray s').2 = rest := by
    rintro read ⟨t', reads⟩
    exact ⟨t', _, reads, rfl⟩
  have stores : (∃ x, xs = [x] ∧ IsValue x) → ∃ t', numericOr client (storeresult client) t
      (separated xs ++ closeArray :: rest) = .ok (t', closeArray :: rest) := by
    rintro ⟨x, rfl, value⟩
    have text : separated [x] ++ closeArray :: rest = x ++ closeArray :: rest := by
      simp [separated]
    rw [text]
    rcases number_or_unnumbered value (closeArray :: rest) with number | other
    · exact numericOr_code client number stop_closeArray t
    · rw [numericOr_other client other, storeresult, storeobject_value value stop_closeArray.ends]
      exact ⟨_, rfl⟩
  cases c with
  | getUserTransactions => exact closes (readrows_array client takes t)
  | getUserPurchases => exact closes (readrows_array client takes t)
  | getUserSessions => exact closes (readrows_array client takes t)
  | enumerateQuotaItems =>
    obtain ⟨rows, rfl, shapes⟩ := takes
    exact closes (enumerateQuotaItems_array client shapes t)
  | querySignupLink => exact querySignupLink_array client takes follows t
  | setMasterKey =>
    obtain rfl : xs = [] := takes
    exact closes ⟨_, rfl⟩
  | purchaseAddItem =>
    obtain rfl : xs = [] := takes
    exact closes ⟨_, rfl⟩
  | attachFA | setAttr | moveNode | delNode | userRequest | putUA | sendSignupLink
  | confirmSignupLink | setKeyPair | purchaseCheckout => exact closes (stores takes.2)
  | _ => exact absurd takes.1 id

end Elements

section Requests
variable {σ : Type} (client : Client σ) {rest : Text}

theorem process_comma (c : Command) (t : σ) {s : Text} (starts : Starts s) :
    process client c t (comma :: s) = process client c t s := by
  rw [process, enterobject_comma starts, process]

theorem stop_results (results : List Bytes) : Stop (commas results ++ [closeArray]) :=
  stop_commas_closeArray results []

/-- A result that is neither an object nor an array is not entered. -/
theorem process_scalar (c : Command) (t : σ) {s : Text} (starts : Starts s)
    (noObject : peek s ≠ openObject) (noArray : peek s ≠ openArray) :
    process client c t s = c.procresult client t s := by
  rw [process, enterobject_other starts noObject]
  simp only [enterarray_other starts noArray]

theorem process_number (c : Command) (t : σ) {result : Bytes} (number : isNumber result) :
    process client c t (result ++ rest) = c.procresult client t (result ++ rest) := by
  have starts := (IsValue.num number).starts rest
  obtain ⟨d, tail, rfl, first⟩ := startsValue_of_number number
  refine process_scalar client c t starts ?_ ?_
  · rintro rfl
    exact absurd first (by decide)
  · rintro rfl
    exact absurd first (by decide)

/-- A code that the command does not consume stays where it is. -/
theorem process_untaken {c : Command} (untaken : ¬c.TakesCode) {result : Bytes}
    (number : isNumber result) (t : σ) (rest : Text) :
    ∃ t', process client c t (result ++ rest) = .ok (t', result ++ rest) := by
  have noArray : enterarray (result ++ rest) = (false, result ++ rest) := by
    have starts := (IsValue.num number).starts rest
    obtain ⟨d, tail, rfl, first⟩ := startsValue_of_number number
    refine enterarray_other starts ?_
    rintro rfl
    exact absurd first (by decide)
  have rows : ∀ kinds : List Kind,
      ∃ t', readrows client kinds t (result ++ rest) = .ok (t', result ++ rest) := by
    intro kinds
    have round : arrayRound (row client kinds) t (result ++ rest) =
        .ok (.ended, t, result ++ rest) := by
      rw [arrayRound, noArray]
    rw [readrows, loop, loopFrom_last _ round (by decide)]
    exact ⟨_, rfl⟩
  rw [process_number client c t number]
  cases c with
  | putFA =>
    rw [Command.procresult, putFA, isnumeric_number number]
    exact ⟨_, rfl⟩
  | getFA part =>
    rw [Command.procresult, getFA, isnumeric_number number]
    split
    · exact ⟨_, rfl⟩
    · exact ⟨_, rfl⟩
  | putFile canceled =>
    cases canceled with
    | true =>
      rw [Command.procresult, putFile, isnumeric_number number]
      exact ⟨t, rfl⟩
    | false => exact absurd trivial untaken
  | pubKeyRequest =>
    have noName : peek (skipSeparator (result ++ rest)) ≠ quote := by
      rw [skipSeparator_of_starts ((IsValue.num number).starts rest)]
      obtain ⟨d, tail, rfl, first⟩ := startsValue_of_number number
      rintro rfl
      exact absurd first (by decide)
    rw [Command.procresult, pubKeyRequest, isnumeric_number number, readmembers, members, loop,
      loopFrom_last _ (memberRound_eoo noName) (by decide)]
    exact ⟨_, rfl⟩
  | getUserTransactions => exact rows _
  | getUserPurchases => exact rows _
  | getUserSessions => exact rows _
  | purchaseAddItem => exact ⟨t, rfl⟩
  | _ => exact absurd trivial untaken

/-- A command that accepts its result leaves the cursor behind it. -/
theorem process_accepts {c : Command} {last : Prop} {result : Bytes} {t : σ}
    (accepts : c.Accepts client last rest t result) (code : isNumber result → c.TakesCode)
    (stop : Stop rest) (follows : ¬last → peek rest ≠ closeArray) :
    ∃ t', process client c t (result ++ rest) = .ok (t', rest) := by
  have starts := accepts.value.starts rest
  cases accepts with
  | code number =>
    rw [process_number client c t number]
    exact procresult_code client (code number) number stop t
  | string literal takes =>
    rw [process_scalar client c t starts (by decide : quote ≠ openObject)
      (by decide : quote ≠ openArray)]
    exact procresult_string client takes literal stop t
  | @array xs values takes =>
    obtain ⟨t', s', reads, leaves⟩ := procresult_array client takes follows t
    have noObject : peek (Json.array xs ++ rest) ≠ openObject :=
      (by decide : openArray ≠ openObject)
    refine ⟨t', ?_⟩
    rw [process, enterobject_other starts noObject]
    simp only [enterarray_array, reads, leaves]
  | object formed takes =>
    obtain ⟨t', left, inside, reads⟩ := endsInside_procresult client formed takes
    refine ⟨t', ?_⟩
    rw [process, enterobject_object]
    simp only [reads, leaveobject_of_remainder inside]

theorem processAll_cons {c : Command} {commands : List Command} {t : σ} {s cursor : Text}
    {cursors : List Text} :
    (∃ t', processAll client (c :: commands) t s = .ok (cursor :: cursors, t')) ↔
      ∃ t₁, process client c t s = .ok (t₁, cursor) ∧
        ∃ t', processAll client commands t₁ cursor = .ok (cursors, t') := by
  rw [processAll]
  constructor
  · rintro ⟨t', processed⟩
    split at processed
    case h_1 => cases processed
    case h_2 t₁ after first =>
      split at processed
      case h_1 => cases processed
      case h_2 others t₂ more =>
        cases processed
        exact ⟨t₁, first, t', more⟩
  · rintro ⟨t₁, first, t', more⟩
    refine ⟨t', ?_⟩
    simp only [first, more]

/-- From the comma in front of a result on: the cursors are right exactly if the codes are
consumed. -/
theorem processAll_iff {commands : List Command} {results : List Bytes} {t : σ}
    (accepted : Accepted client t commands results) :
    (∃ t', processAll client commands t (commas results ++ [closeArray]) =
      .ok (cursorsAfter results, t')) ↔ CodesTaken commands results := by
  induction commands generalizing results t with
  | nil =>
    cases results with
    | nil => exact iff_of_true ⟨t, rfl⟩ trivial
    | cons result results => exact absurd accepted id
  | cons c commands ih =>
    cases results with
    | nil => exact absurd accepted id
    | cons result results =>
      obtain ⟨accepts, others⟩ := accepted
      have follows : ¬results = [] → peek (commas results ++ [closeArray]) ≠ closeArray := by
        intro more
        obtain ⟨next, others, rfl⟩ := List.exists_cons_of_ne_nil more
        rw [commas_cons]
        exact (by decide : comma ≠ closeArray)
      rw [cursorsAfter, processAll_cons, commas_cons, List.cons_append, List.append_assoc,
        process_comma client c t (accepts.value.starts _), CodesTaken]
      constructor
      · rintro ⟨t₁, first, more⟩
        refine ⟨fun number => ?_, (ih (others t₁ first)).mp more⟩
        by_contra untaken
        obtain ⟨t₂, stays⟩ := process_untaken client untaken number t
          (commas results ++ [closeArray])
        rw [first] at stays
        have same : commas results ++ [closeArray] = result ++ (commas results ++ [closeArray]) :=
          congrArg Prod.snd (Except.ok.inj stays)
        exact accepts.value.ne_nil (List.self_eq_append_left.mp same)
      · rintro ⟨code, more⟩
        obtain ⟨t₁, first⟩ := process_accepts client accepts code (stop_results results) follows
        exact ⟨t₁, first, (ih (others t₁ first)).mpr more⟩

/-- In a response whose results are codes or consumed by their commands, each command is run at
its own result and leaves the cursor behind it exactly if every code goes to a command that
consumes codes. -/
theorem aligned_iff_codesTaken {commands : List Command} {results : List Bytes} {t : σ}
    (accepted : Accepted client t commands results) :
    Aligned client t commands results ↔ CodesTaken commands results := by
  have entered : procresult client commands t (array results) =
      processAll client commands t (separated results ++ [closeArray]) := by
    have opened := @enterarray_array [] results
    rw [List.append_nil] at opened
    rw [procresult, opened]
  have same : processAll client commands t (separated results ++ [closeArray]) =
      processAll client commands t (commas results ++ [closeArray]) := by
    cases commands with
    | nil => rfl
    | cons c commands =>
      cases results with
      | nil => exact absurd accepted id
      | cons result results =>
        rw [separated, List.append_assoc, commas_cons, List.cons_append, List.append_assoc,
          processAll, processAll, process_comma client c t (accepted.1.value.starts _)]
  rw [Aligned, entered, same]
  exact processAll_iff client accepted

end Requests

/-- The result of a share whose owner key is returned: the users behind it are not read. -/
def ownedShare : List Member :=
  [(ascii "ok", str (ascii "AAAAAAAAAAAAAAAAAAAAAA")),
    (ascii "u", array [object [(ascii "u", str (ascii "AAAAAAAAAAA"))]])]

def ownedFolder : Handle := some [1, 0, 0, 0, 0, 0]

theorem ownedShare_wellFormed : WellFormed ownedShare := by
  have user : IsValue (array [object [(ascii "u", str (ascii "AAAAAAAAAAA"))]]) := by
    refine .arr fun x mem => ?_
    obtain rfl := List.mem_singleton.mp mem
    refine .obj (fun m mem => ?_) fun m mem => ?_
    · obtain rfl := List.mem_singleton.mp mem
      exact (by decide : isLiteral (ascii "u"))
    · obtain rfl := List.mem_singleton.mp mem
      exact .str (by decide)
  intro m mem
  simp only [ownedShare, List.mem_cons, List.not_mem_nil, or_false] at mem
  rcases mem with rfl | rfl
  · exact ⟨by decide, .str (by decide)⟩
  · exact ⟨by decide, user⟩

theorem ownedShare_taken (rest : Text) (t : List Call) :
    (Command.setShare ownedFolder).TakesObject recorder rest t ownedShare := by
  refine .cons ⟨by unfold Plain; decide, ?_, ?_⟩ fun t' round => ?_
  · intro kind found
    cases found
  · intro other listed named
    simp only [List.mem_cons, List.not_mem_nil, or_false] at listed
    rcases listed with rfl | rfl | rfl | rfl | rfl <;> exact absurd named (by decide)
  · have key : IsValue (str (ascii "AAAAAAAAAAAAAAAAAAAAAA")) := .str (by decide)
    have returns := fun tail => @ownerkey_returns _ recorder ([], t) _ ownedFolder key rfl
      ⟨by decide, rfl⟩ (commas (ownedShare.tail.map member) ++ closeObject :: tail)
      (stop_commas_closeObject _ tail)
    have name : getnameid (str (ascii "ok") ++ colon :: (str (ascii "AAAAAAAAAAAAAAAAAAAAAA") ++
        (commas (ownedShare.tail.map member) ++ closeObject :: rest))) = .ok _ :=
      getnameid_name (by unfold Plain; decide) colon _
    have ends := memberRound_case (t := (([], t) : Locals × List Call)) name (by decide)
      (rfl : casesOf [] (setShareReaders recorder ownedFolder) _ = some (ownerkey recorder _))
    rw [returns] at ends
    cases ends.symm.trans round

/-- An upload of file attributes that succeeds, a share, a deletion that fails and a user
attribute. -/
theorem aligned_upload :
    Aligned recorder [] [.putFA, .setShare ownedFolder, .delNode, .getUA]
      [object [(ascii "p", str (ascii "http://x"))], object ownedShare, ascii "-9",
        str (ascii "AAAA")] := by
  have formed : WellFormed [(ascii "p", str (ascii "http://x"))] := by
    intro m mem
    obtain rfl := List.mem_singleton.mp mem
    exact ⟨by decide, .str (by decide)⟩
  have fields : ∀ rest, Command.putFA.TakesObject recorder rest []
      [(ascii "p", str (ascii "http://x"))] := by
    intro rest
    refine .cons ⟨by unfold Plain; decide, ?_, fun other listed => absurd listed List.not_mem_nil⟩
      fun t' _ => .nil
    intro kind found
    cases found
    exact False.elim
  have accepted : Accepted recorder [] [.putFA, .setShare ownedFolder, .delNode, .getUA]
      [object [(ascii "p", str (ascii "http://x"))], object ownedShare, ascii "-9",
        str (ascii "AAAA")] :=
    ⟨.object formed (fields _), fun t _ => ⟨.object ownedShare_wellFormed (ownedShare_taken _ t),
      fun _ _ => ⟨.code (by decide), fun _ _ => ⟨.string (by decide) trivial,
        fun _ _ => trivial⟩⟩⟩⟩
  refine (aligned_iff_codesTaken recorder accepted).mpr ⟨fun number => ?_, fun _ => trivial,
    fun _ => trivial, fun _ => trivial, trivial⟩
  exact absurd number (by decide)

/-- The error of an upload of file attributes is read again by the next command. -/
theorem putFA_code_shifts :
    isNumber (ascii "-9") ∧ isNumber (ascii "0") ∧
      ¬Aligned recorder [] [.putFA, .delNode] [ascii "-9", ascii "0"] := by
  refine ⟨by decide, by decide, ?_⟩
  rintro ⟨t', processed⟩
  have actual : procresult recorder [.putFA, .delNode] [] (array [ascii "-9", ascii "0"]) =
      .ok ([ascii "-9,0]", ascii ",0]"], [.result none [], .result (some (-9)) []]) := rfl
  rw [actual] at processed
  have cursors : [ascii "-9,0]", ascii ",0]"] = cursorsAfter [ascii "-9", ascii "0"] :=
    congrArg Prod.fst (Except.ok.inj processed)
  exact absurd cursors (by decide)

end MegaSdk.Server
