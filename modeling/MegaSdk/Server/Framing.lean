import MegaSdk.Server.Records

/-!
# The readers keep to their value

For which values the functions that read a response leave the cursor exactly behind the
value, and with the same effect whatever follows it.
-/

namespace MegaSdk.Server

open Json

/-- The values that are read in full. A pointer returned by `getvalue` is used up to the next
quote, which is inside the value if the effect is to be isolated. -/
def Kind.Exact (isolated : Prop) : Kind → Bytes → Prop
  | int, v => Numeric v
  | float, v => isDigit (peek v) ∨ peek v = minus
  | handle _, v => peek v = quote
  | link, v => peek v = quote
  | value, v => isolated → quote ∈ skip quote v
  | token _, _ => True
  | binary _, v => peek v = quote
  | stored, _ => True

/-- The values that are read in full or left to `leaveobject`. -/
def Kind.Admits (isolated : Prop) : Kind → Bytes → Prop
  | int, v => peek v = quote → Numeric v
  | float, v => peek v ≠ quote
  | value, v => isolated → quote ∈ skip quote v
  | _, _ => True

section Kinds
variable {isolated : Prop} {behind : Follow} {v : Bytes}

/-- What is read from a single text need not be named. -/
theorem read_of_single {α : Type} {read : Text → α × Text} (single : behind.Single)
    (cursor : ∀ rest, behind rest → (read (v ++ rest)).2 = rest) [Inhabited α] :
    ∃ x, ∀ rest, behind rest → read (v ++ rest) = (x, rest) := by
  by_cases possible : ∃ rest, behind rest
  · obtain ⟨rest, follows⟩ := possible
    refine ⟨(read (v ++ rest)).1, fun rest' follows' => ?_⟩
    rw [single rest' rest follows' follows]
    exact Prod.ext rfl (cursor rest follows)
  · exact ⟨default, fun rest follows => absurd ⟨rest, follows⟩ possible⟩

theorem exportedlink_plain : ∀ c ∈ exportedlink, c ≠ quote ∧ c ≠ backslash :=
  forall_mem_of_all (by decide)

theorem Kind.read_exact (kind : Kind) (value : IsValue v) (exact : kind.Exact isolated v)
    (admissible : behind.Admissible isolated) :
    ∃ x, ∀ rest, behind rest → kind.read (v ++ rest) = (x, rest) := by
  cases kind with
  | int =>
    refine ⟨.number (atoll (skip quote v)), fun rest follows => ?_⟩
    rw [Kind.read, getint_value value exact (admissible.stop rest follows)]
  | float =>
    refine ⟨.stored (some (Json.stored v)), fun rest follows => ?_⟩
    rw [Kind.read, getfloat_number value exact (admissible.stop rest follows).ends]
  | handle size =>
    refine ⟨.handle (handleOf size (Base64.atob (skip quote v) 9)), fun rest follows => ?_⟩
    rw [Kind.read, gethandle_value value exact (admissible.stop rest follows)]
  | link =>
    obtain ⟨content, literal, rfl⟩ := value.exists_str exact
    by_cases link : content = exportedlink
    · refine ⟨.handle (some (List.replicate 8 0)), fun rest follows => ?_⟩
      simp only [Kind.read, is_str literal exportedlink_plain, if_pos link, if_true]
    · refine ⟨.handle (handleOf 8 (Base64.atob (skip quote (str content)) 9)),
        fun rest follows => ?_⟩
      simp only [Kind.read, is_str literal exportedlink_plain, if_neg link,
        gethandle_value value exact (admissible.stop rest follows), Bool.false_eq_true, if_false]
  | value =>
    by_cases alone : isolated
    · refine ⟨.text (nameChars (skip quote v)), fun rest follows => ?_⟩
      rw [Kind.read, getvalue_value value (exact alone) (admissible.stop rest follows).ends]
    · have : Inhabited Value := ⟨.text []⟩
      refine read_of_single (admissible.single alone) fun rest follows => ?_
      exact getvalue_cursor value (admissible.stop rest follows).ends
  | token len =>
    refine ⟨.binary (Base64.atob (skip quote v) len), fun rest follows => ?_⟩
    have stop := admissible.stop rest follows
    rw [Kind.read, getvalue_cursor value stop.ends, payload_value value,
      Base64.atob_append stop.from64]
  | binary len =>
    refine ⟨.binary (Base64.atob (skip quote v) len), fun rest follows => ?_⟩
    rw [Kind.read, storebinary_value value exact (admissible.stop rest follows)]
  | stored =>
    refine ⟨.stored (some (Json.stored v)), fun rest follows => ?_⟩
    rw [Kind.read, storeobject_value value (admissible.stop rest follows).ends]

theorem Kind.read_other (kind : Kind) (value : IsValue v) (admits : kind.Admits isolated v)
    (other : ¬kind.Exact isolated v) :
    peek v ≠ quote ∧ ∃ x, ∀ rest, kind.read (v ++ rest) = (x, v ++ rest) := by
  cases kind with
  | int =>
    refine ⟨fun string => other (admits string), .number (-1), fun rest => ?_⟩
    rw [Kind.read, getint_other value other]
  | float =>
    refine ⟨admits, .stored none, fun rest => ?_⟩
    rw [Kind.read, getfloat_other value other]
  | handle size =>
    refine ⟨other, .handle (handleOf size []), fun rest => ?_⟩
    rw [Kind.read, gethandle_other value other]
  | link =>
    refine ⟨other, .handle (handleOf 8 []), fun rest => ?_⟩
    simp only [Kind.read, is_other value other, gethandle_other value other,
      Bool.false_eq_true, if_false]
  | value => exact absurd admits other
  | token len => exact absurd trivial other
  | binary len =>
    refine ⟨other, .binary [], fun rest => ?_⟩
    rw [Kind.read, storebinary_other value other]
  | stored => exact absurd trivial other

variable {σ : Type} (inv : σ → Prop) {t : Locals × σ}

theorem Kind.takes_assign (kind : Kind) (id : UInt64) (value : IsValue v)
    (exact : kind.Exact isolated v) (admissible : behind.Admissible isolated)
    (holds : inv t.2) : ∃ t', inv t'.2 ∧ Takes behind (kind.assign id) t v .next t' := by
  obtain ⟨x, reads⟩ := kind.read_exact value exact admissible
  refine ⟨(t.1 ++ [(id, x)], t.2), holds, fun rest follows => ?_⟩
  rw [Kind.assign, reads rest follows]

theorem Kind.fits_assign (kind : Kind) (id : UInt64) (value : IsValue v)
    (admits : kind.Admits isolated v) (admissible : behind.Admissible isolated)
    (holds : inv t.2) {returns : Prop} :
    Fits returns behind (kind.assign id) (fun t => inv t.2) t v := by
  by_cases exact : kind.Exact isolated v
  · obtain ⟨t', holds', takes⟩ := kind.takes_assign inv id value exact admissible holds
    exact ⟨t', holds', .inl takes⟩
  · obtain ⟨other, x, reads⟩ := kind.read_other value admits exact
    refine ⟨(t.1 ++ [(id, x)], t.2), holds, .inr (.inl ⟨other, fun rest _ => ?_⟩)⟩
    rw [Kind.assign, reads rest]

end Kinds

section Enter
variable {σ : Type} {rest : Text}

theorem enterobject_object (ms : List Member) :
    enterobject (object ms ++ rest) =
      (true, separated (ms.map member) ++ closeObject :: rest) := by
  simp [enterobject, object, skip, peek, openObject, closeObject, comma]

theorem enterobject_other {s : Text} (starts : Starts s) (other : peek s ≠ openObject) :
    enterobject s = (false, s) := by
  simp only [enterobject, skip_of_ne starts.ne_closeObject, skip_of_ne starts.ne_comma,
    if_neg other]

theorem enterobject_next {s : Text} (starts : Starts s) :
    enterobject (closeObject :: comma :: s) = enterobject s := by
  simp only [enterobject, skip_cons, skip_of_ne starts.ne_closeObject, skip_of_ne starts.ne_comma]

theorem enterobject_closeArray : enterobject (closeArray :: rest) = (false, closeArray :: rest) :=
  rfl

theorem enterobject_last :
    enterobject (closeObject :: closeArray :: rest) = (false, closeArray :: rest) := rfl

theorem enterarray_array (xs : List Bytes) :
    enterarray (array xs ++ rest) = (true, separated xs ++ closeArray :: rest) := by
  simp [enterarray, array, skip, peek, openArray, comma]

theorem enterarray_other {s : Text} (starts : Starts s) (other : peek s ≠ openArray) :
    enterarray s = (false, s) := by
  simp only [enterarray, skip_of_ne starts.ne_comma, if_neg other]

theorem leavearray_closeArray : leavearray (closeArray :: rest) = (true, rest) := rfl

variable (body : Reader σ) (t : σ)

theorem objectRound_object (ms : List Member) :
    objectRound body t (object ms ++ rest) =
      body t (separated (ms.map member) ++ closeObject :: rest) := by
  rw [objectRound, enterobject_object]

theorem arrayRound_array (xs : List Bytes) :
    arrayRound body t (array xs ++ rest) = body t (separated xs ++ closeArray :: rest) := by
  rw [arrayRound, enterarray_array]

theorem arrayRound_comma {s : Text} (starts : Starts s) :
    arrayRound body t (comma :: s) = arrayRound body t s := by
  rw [arrayRound, enterarray_comma starts, arrayRound]

theorem arrayRound_last :
    arrayRound body t (closeArray :: rest) = .ok (.ended, t, closeArray :: rest) := rfl

end Enter

/-- A record all of whose members are read in full. -/
structure Record (isolated : Prop) (columns : Columns) (ms : List Member) : Prop where
  legible : Legible ms
  named : ∀ m ∈ ms, m.1 ≠ []
  exact : ∀ m ∈ ms, ∀ kind, columns.kind (nameid m.1) = some kind → kind.Exact isolated m.2

def RecordArray (isolated : Prop) (columns : Columns) (v : Bytes) : Prop :=
  ∃ records : List (List Member), v = array (records.map object) ∧
    ∀ ms ∈ records, Record isolated columns ms

section Records
variable {isolated : Prop} {follow : Follow} {σ : Type} {columns : Columns}
  {finish : Locals → σ → σ} {reject : Flow} {last : σ → σ} {v : Bytes}

theorem Columns.cases_eq_some {id : UInt64} {read : Reader (Locals × σ)}
    (case : columns.cases id = some read) :
    ∃ kind, columns.kind id = some kind ∧ read = kind.assign id := by
  obtain ⟨kind, found, rfl⟩ := Option.map_eq_some_iff.mp case
  exact ⟨kind, found, rfl⟩

theorem Record.run {ms : List Member} (shape : Record isolated columns ms)
    (single : ¬isolated → follow.Single) (t : Locals × σ) :
    ∃ t', Run follow columns.cases t ms .ended t' [] := by
  have takes : ∀ behind : Follow, behind.Admissible isolated → ∀ t : Locals × σ, True →
      ∀ m ∈ ms, ∀ read, columns.cases (nameid m.1) = some read →
        ∃ t', True ∧ Takes behind read t m.2 .next t' := by
    intro behind admissible t _ m mem read case
    obtain ⟨kind, found, rfl⟩ := Columns.cases_eq_some case
    exact kind.takes_assign (fun _ => True) (nameid m.1) (shape.legible m mem).2
      (shape.exact m mem kind found) admissible trivial
  obtain ⟨t', -, run⟩ :=
    run_of_takes (fun _ => True) shape.legible single shape.named takes (t := t) trivial
  exact ⟨t', run⟩

/-- A record is read up to its closing brace. -/
theorem record_takes {ms : List Member} (shape : Record isolated columns ms)
    (single : ¬isolated → follow.Single) (t : σ) :
    ∃ t', ∀ rest, follow rest → record columns finish reject t
      (separated (ms.map member) ++ closeObject :: rest) =
        .ok (.next, t', closeObject :: rest) := by
  obtain ⟨t', run⟩ := shape.run single ([], t)
  refine ⟨finish t'.1 t'.2, fun rest follows => ?_⟩
  rw [record, members_run run follows]
  rfl

theorem isValue_object {ms : List Member} (legible : Legible ms) : IsValue (object ms) :=
  .obj (fun m mem => (legible m mem).1.1) fun m mem => (legible m mem).2

variable (follow) in
theorem readrecords_array (shape : RecordArray isolated columns v)
    (single : ¬isolated → follow.Single) (t : σ) :
    ∃ t', ∀ rest, follow rest →
      readrecords columns finish reject last t (v ++ rest) = .ok (true, t', rest) := by
  obtain ⟨records, rfl, shapes⟩ := shape
  have values : ∀ x ∈ records.map object, IsValue x := by
    intro x mem
    obtain ⟨ms, listed, rfl⟩ := List.mem_map.mp mem
    exact isValue_object (shapes ms listed).legible
  have each : ∀ behind : Follow, behind.Admissible isolated → ∀ x ∈ records.map object,
      ∀ (_ : List Bytes) (t : σ), True → ∃ t', True ∧ ∀ rest, behind rest →
        objectRound (record columns finish reject) t (x ++ rest) =
          .ok (.next, t', [closeObject] ++ rest) := by
    intro behind admissible x mem _ t _
    obtain ⟨ms, listed, rfl⟩ := List.mem_map.mp mem
    obtain ⟨t', takes⟩ := record_takes (shapes ms listed) admissible.single t
    refine ⟨t', trivial, fun rest follows => ?_⟩
    rw [objectRound_object, takes rest follows, List.singleton_append]
  obtain ⟨t', -, run⟩ := loop_elements (objectRound (record columns finish reject))
    (fun _ _ => True) [closeObject] single
    (fun t s starts => by rw [objectRound, List.singleton_append, enterobject_next starts,
      objectRound])
    (fun t rest => by rw [objectRound, List.singleton_append, enterobject_last])
    (fun t rest => by rw [objectRound, enterobject_closeArray]) values each (t := t) trivial
  refine ⟨last t', fun rest follows => ?_⟩
  rw [readrecords, enterarray_array]
  simp only [run rest follows, leavearray_closeArray]

theorem readrecords_other (value : IsValue v) (other : peek v ≠ openArray) (t : σ) (rest : Text) :
    readrecords columns finish reject last t (v ++ rest) = .ok (false, t, v ++ rest) := by
  rw [readrecords, enterarray_other (value.starts rest) (by rwa [peek_append value.ne_nil])]

end Records

def anything : Follow := fun _ => True

theorem isolated_anything : ¬True → anything.Single := fun shared => absurd trivial shared

section Rows
variable {σ : Type}

/-- A loop over an array of arrays. -/
theorem loop_rows (isolated : Prop) (follow : Follow) (body : Reader σ) (inv : σ → Prop)
    {rows : List (List Bytes)} (single : ¬isolated → follow.Single)
    (values : ∀ row ∈ rows, ∀ x ∈ row, IsValue x)
    (each : ∀ behind : Follow, behind.Admissible isolated → ∀ row ∈ rows, ∀ t, inv t →
      ∃ t', inv t' ∧ ∀ rest, behind rest →
        body t (separated row ++ closeArray :: rest) = .ok (.next, t', rest))
    {t : σ} (holds : inv t) :
    ∃ t', inv t' ∧ ∀ rest, follow rest →
      loop (arrayRound body) t (separated (rows.map array) ++ closeArray :: rest) =
        .ok (.ended, t', closeArray :: rest) := by
  refine loop_elements (arrayRound body) (fun _ => inv) [] single
    (fun t s starts => arrayRound_comma body t starts) (fun t rest => arrayRound_last body t)
    (fun t rest => arrayRound_last body t) ?_ ?_ holds
  · intro x mem
    obtain ⟨row, listed, rfl⟩ := List.mem_map.mp mem
    exact .arr (values row listed)
  · intro behind admissible x mem _ t holds
    obtain ⟨row, listed, rfl⟩ := List.mem_map.mp mem
    obtain ⟨t', holds', takes⟩ := each behind admissible row listed t holds
    refine ⟨t', holds', fun rest follows => ?_⟩
    rw [arrayRound_array, takes rest follows, List.nil_append]

end Rows

/-- A member that a function reads: nothing that is taken for a name, and if the function
enters it, a value that it reads in full. -/
structure Enters (opens : UInt8 → Prop) (shape : Bytes → Prop) (v : Bytes) : Prop where
  unnamed : peek v ≠ quote
  shaped : opens (peek v) → shape v

section Calls
variable {σ : Type} (inv : σ → Prop)

/-- The function takes the values of a shape, with the same effect whatever follows. -/
def Reads (f : Function σ) (shape : Bytes → Prop) : Prop :=
  ∀ v, shape v → ∀ t, inv t → ∃ b t', inv t' ∧ ∀ rest, f t (v ++ rest) = .ok (b, t', rest)

def Ignores (f : Function σ) (opens : UInt8 → Prop) : Prop :=
  ∀ v, IsValue v → ¬opens (peek v) → ∃ b, ∀ t rest, f t (v ++ rest) = .ok (b, t, v ++ rest)

variable {opens : UInt8 → Prop} {shape : Bytes → Prop} {f : Function σ} {v : Bytes}
  {behind : Follow} {returns : Prop}

theorem calls_fits (reads : Reads inv f shape) (ignores : Ignores f opens) (value : IsValue v)
    (enters : Enters opens shape v) {t : σ} (holds : inv t) :
    Fits returns behind (calls f) inv t v := by
  by_cases entered : opens (peek v)
  · obtain ⟨b, t', holds', takes⟩ := reads v (enters.shaped entered) t holds
    refine ⟨t', holds', .inl fun rest _ => ?_⟩
    rw [calls, takes]
  · obtain ⟨b, leaves⟩ := ignores v value entered
    refine ⟨t, holds, .inr (.inl ⟨enters.unnamed, fun rest _ => ?_⟩)⟩
    rw [calls, leaves]

/-- A function that has entered an object reads it to its end, whatever it does with the
members, as long as each of them fits. -/
theorem inobject_object {cases : UInt64 → Option (Reader σ)} {ms : List Member}
    (legible : Legible ms)
    (fits : ∀ behind : Follow, behind.Admissible True → ∀ t, inv t → ∀ m ∈ ms, ∀ read,
      cases (nameid m.1) = some read → Fits False behind read inv t m.2)
    {t : σ} (holds : inv t) :
    ∃ t', inv t' ∧ ∀ rest, inobject cases t (separated (ms.map member) ++ closeObject :: rest) =
      .ok (true, t', rest) := by
  obtain ⟨flow, t', left, holds', ended, run⟩ := @run_of_fits _ True False anything _ ms inv
    legible isolated_anything fits t holds
  obtain rfl := ended id
  refine ⟨t', holds', fun rest => ?_⟩
  rw [inobject]
  simp only [members_run run trivial,
    leaveobject_of_remainder (run.remainder legible.wellFormed) rest]

end Calls

end MegaSdk.Server
