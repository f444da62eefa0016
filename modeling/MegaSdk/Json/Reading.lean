import MegaSdk.Json.Grammar

/-!
# The scanner at a value

What each operation of the scanner reads from a value and where it leaves the cursor,
whatever text follows the value.
-/

namespace MegaSdk.Json

/-- The text that follows a value: a separator or the end of its container. -/
def Stop (rest : Text) : Prop :=
  peek rest = comma ∨ peek rest = closeArray ∨ peek rest = closeObject

theorem Stop.ends {rest : Text} (stop : Stop rest) : Ends rest := by
  rcases stop with next | next | next <;> (rw [Ends, next]; decide)

theorem Stop.from64 {rest : Text} (stop : Stop rest) : Base64.from64 (peek rest) = 255 := by
  rcases stop with next | next | next <;> (rw [next]; decide)

theorem stop_comma {rest : Text} : Stop (comma :: rest) := .inl rfl

theorem stop_closeArray {rest : Text} : Stop (closeArray :: rest) := .inr (.inl rfl)

theorem stop_closeObject {rest : Text} : Stop (closeObject :: rest) := .inr (.inr rfl)

@[simp]
theorem peek_cons (c : UInt8) (rest : Text) : peek (c :: rest) = c := rfl

def Starts (s : Text) : Prop := startsValue (peek s)

theorem startsValue_of_number {text : Bytes} (number : isNumber text) :
    ∃ c tail, text = c :: tail ∧ (isDigit c || c = minus) := by
  cases text with
  | nil => cases number
  | cons c tail =>
    refine ⟨c, tail, rfl, ?_⟩
    simp only [isNumber] at number
    split at number
    · rename_i negative
      simp [negative]
    · rw [Bool.and_eq_true] at number
      simp [number.1]

theorem IsValue.starts {v : Bytes} (value : IsValue v) (rest : Text) : Starts (v ++ rest) := by
  cases value with
  | str literal => rfl
  | num number =>
    obtain ⟨c, tail, rfl, starts⟩ := startsValue_of_number number
    simp only [Starts, startsValue, List.cons_append, peek_cons]
    simp only [Bool.or_eq_true, decide_eq_true_eq] at starts ⊢
    rcases starts with digit | negative
    · simp [digit]
    · simp [negative]
  | arr values => rfl
  | obj names values => rfl

section Separators
variable {s : Text}

theorem Starts.ne_comma (starts : Starts s) : peek s ≠ comma := by
  intro next
  rw [Starts, next] at starts
  exact absurd starts (by decide)

theorem Starts.ne_colon (starts : Starts s) : peek s ≠ colon := by
  intro next
  rw [Starts, next] at starts
  exact absurd starts (by decide)

theorem Starts.ne_closeObject (starts : Starts s) : peek s ≠ closeObject := by
  intro next
  rw [Starts, next] at starts
  exact absurd starts (by decide)

theorem Starts.not_blank (starts : Starts s) : ¬(0 < peek s && peek s ≤ 32) := by
  simp only [Starts, startsValue, isDigit, Bool.or_eq_true, Bool.and_eq_true,
    decide_eq_true_eq] at starts
  intro blank
  rw [Bool.and_eq_true, decide_eq_true_eq, decide_eq_true_eq] at blank
  rcases starts with (((next | ⟨low, -⟩) | next) | next) | next
  · exact absurd (next ▸ blank.2) (by decide)
  · exact absurd (UInt8.le_trans low blank.2) (by decide)
  · exact absurd (next ▸ blank.2) (by decide)
  · exact absurd (next ▸ blank.2) (by decide)
  · exact absurd (next ▸ blank.2) (by decide)

theorem skip_of_ne {c : UInt8} (other : peek s ≠ c) : skip c s = s := if_neg other

theorem skip_cons (c : UInt8) : skip c (c :: s) = s := if_pos rfl

theorem skipBlanks_of_starts (starts : Starts s) : skipBlanks s = s := by
  have kept : s.dropWhile (fun c => 0 < c && c ≤ 32) = s := by
    cases s with
    | nil => rfl
    | cons c rest => exact List.dropWhile_cons_of_neg starts.not_blank
  rw [skipBlanks, kept]
  exact skip_of_ne starts.ne_comma

theorem skipBlanks_comma (s : Text) : skipBlanks (comma :: s) = s := by
  rw [skipBlanks, List.dropWhile_cons_of_neg (by decide), skip_cons]

theorem Starts.not_separator (starts : Starts s) : ¬(peek s = colon ∨ peek s = comma) := by
  rintro (next | next)
  · exact starts.ne_colon next
  · exact starts.ne_comma next

theorem skipSeparator_of_starts (starts : Starts s) : skipSeparator s = s :=
  if_neg starts.not_separator

theorem skipSeparator_comma (s : Text) : skipSeparator (comma :: s) = s := if_pos (.inr rfl)

end Separators

/-! The operations skip a comma before the value. -/

section Comma
variable {s : Text} (starts : Starts s)
include starts

theorem storeobject_comma : storeobject (comma :: s) = storeobject s := by
  simp only [storeobject, skipBlanks_comma, skipBlanks_of_starts starts]

theorem isnumeric_comma : isnumeric (comma :: s) = isnumeric s := by
  simp only [isnumeric, skip_cons, skip_of_ne starts.ne_comma]

theorem is_comma (value : Bytes) : is value (comma :: s) = is value s := by
  simp only [is, skip_cons, skip_of_ne starts.ne_comma]

theorem storebinary_comma (len : Nat) : storebinary len (comma :: s) = storebinary len s := by
  simp only [storebinary, skip_cons, skip_of_ne starts.ne_comma]

theorem ishandle_comma (size : Nat) : ishandle size (comma :: s) = ishandle size s := by
  simp only [ishandle, skip_cons, skip_of_ne starts.ne_comma]

theorem gethandle_comma (size : Nat) : gethandle size (comma :: s) = gethandle size s := by
  simp only [gethandle, storebinary_comma starts]

theorem getint_comma : getint (comma :: s) = getint s := by
  simp only [getint, skipSeparator_comma, skipSeparator_of_starts starts]

theorem getfloat_comma : getfloat (comma :: s) = getfloat s := by
  simp only [getfloat, skipSeparator_comma, skipSeparator_of_starts starts]

theorem payload_comma : payload (comma :: s) = payload s := by
  simp only [payload, skipSeparator_comma, skipSeparator_of_starts starts]

theorem getvalue_comma : getvalue (comma :: s) = getvalue s := by
  simp only [getvalue, payload_comma starts, skipSeparator_comma, skipSeparator_of_starts starts]

theorem enterarray_comma : enterarray (comma :: s) = enterarray s := by
  simp only [enterarray, skip_cons, skip_of_ne starts.ne_comma]

theorem enterobject_comma : enterobject (comma :: s) = enterobject s := by
  have brace : skip closeObject (comma :: s) = comma :: s := by
    refine skip_of_ne ?_
    rw [peek_cons]
    decide
  simp only [enterobject, brace, skip_cons, skip_of_ne starts.ne_closeObject,
    skip_of_ne starts.ne_comma]

end Comma

theorem peek_append {v : Bytes} (nonempty : v ≠ []) (rest : Text) :
    peek (v ++ rest) = peek v := by
  cases v with
  | nil => exact absurd rfl nonempty
  | cons c tail => rfl

theorem IsValue.ne_nil {v : Bytes} (value : IsValue v) : v ≠ [] := by
  rintro rfl
  exact absurd (value.starts []) (by unfold Starts; decide)

/-- What `storeobject` assigns: a string loses its quotes. -/
def stored (v : Bytes) : Bytes := if peek v = quote then v.tail.dropLast else v

theorem stored_str (content : Bytes) : stored (str content) = content := by
  have quoted : peek (str content) = quote := rfl
  rw [stored, if_pos quoted, str, List.tail_cons, List.dropLast_concat]

theorem stored_of_ne {v : Bytes} (other : peek v ≠ quote) : stored v = v := if_neg other

/-- Behind blanks and a comma, `storeobject` consumes exactly one value. -/
theorem storeobject_at {s : Text} {v : Bytes} (value : IsValue v) {rest : Text}
    (start : skipBlanks s = v ++ rest) (ends : isNumber v → Ends rest) :
    storeobject s = (some (stored v), rest) := by
  have whole : between (v ++ rest) rest = v := by simp [between]
  simp only [storeobject, start, scan_value value ends le_rfl, whole, peek_append value.ne_nil,
    stored]
  split <;> rfl

theorem storeobject_value {v : Bytes} (value : IsValue v) {rest : Text} (ends : Ends rest) :
    storeobject (v ++ rest) = (some (stored v), rest) :=
  storeobject_at value (skipBlanks_of_starts (value.starts rest)) fun _ => ends

/-- What may stand before a value: blanks, then at most one comma. -/
def IsLead (lead : Bytes) : Prop :=
  ∃ blanks separator, lead = blanks ++ separator ∧
    (∀ c ∈ blanks, 0 < c ∧ c ≤ 32) ∧ (separator = [] ∨ separator = [comma])

theorem dropWhile_blanks {blanks : Bytes} (blank : ∀ c ∈ blanks, 0 < c ∧ c ≤ 32) {s : Text}
    (stop : ¬(0 < peek s && peek s ≤ 32)) :
    (blanks ++ s).dropWhile (fun c => 0 < c && c ≤ 32) = s := by
  rw [List.dropWhile_append_of_pos]
  · cases s with
    | nil => rfl
    | cons c rest => exact List.dropWhile_cons_of_neg stop
  · intro c mem
    simpa using blank c mem

theorem skipBlanks_lead {lead : Bytes} (isLead : IsLead lead) {s : Text} (starts : Starts s) :
    skipBlanks (lead ++ s) = s := by
  obtain ⟨blanks, separator, rfl, blank, optional⟩ := isLead
  rw [List.append_assoc, skipBlanks]
  rcases optional with rfl | rfl
  · rw [List.nil_append, dropWhile_blanks blank starts.not_blank, skip_of_ne starts.ne_comma]
  · have stop : ¬(0 < peek ([comma] ++ s) && peek ([comma] ++ s) ≤ 32) := by
      rw [List.singleton_append, peek_cons]
      decide
    rw [dropWhile_blanks blank stop, List.singleton_append, skip_cons]

/-- `storeobject` accepts every value, wherever it stands: it moves exactly behind the value and
stores it, a string without its quotes. -/
theorem storeobject_accepts {lead v : Bytes} (isLead : IsLead lead) (value : IsValue v)
    {rest : Text} (ends : isNumber v → Ends rest) :
    ∃ text, storeobject (lead ++ (v ++ rest)) = (some text, rest) ∧
      (∀ content, v = str content → text = content) ∧ (peek v ≠ quote → text = v) := by
  refine ⟨stored v, ?_, ?_, stored_of_ne⟩
  · exact storeobject_at value (skipBlanks_lead isLead (value.starts rest)) ends
  · rintro content rfl
    exact stored_str content

/-- An array with a number and an escaped quote, in an object: it is stored as it is. -/
def nestedValue : Bytes :=
  object [(ascii "a", array [ascii "-1.5e3", str (ascii "x\\\"y")])]

theorem isValue_nestedValue : IsValue nestedValue := by
  refine .obj ?_ ?_
  · intro m mem
    rw [List.mem_singleton.mp mem]
    decide
  · intro m mem
    rw [List.mem_singleton.mp mem]
    refine .arr ?_
    intro x mem
    rcases List.mem_cons.mp mem with rfl | mem
    · exact .num (by decide)
    · rw [List.mem_singleton.mp mem]
      exact .str (by decide)

theorem storeobject_accepts_nestedValue :
    ∃ text, storeobject (ascii " ," ++ (nestedValue ++ [closeArray])) = (some text, [closeArray]) ∧
      (∀ content, nestedValue = str content → text = content) ∧
      (peek nestedValue ≠ quote → text = nestedValue) :=
  storeobject_accepts ⟨ascii " ", [comma], rfl, forall_mem_of_all (by decide), .inr rfl⟩
    isValue_nestedValue (fun number => absurd number (by decide))

section Values
variable {v : Bytes} {rest : Text}

theorem payload_value (value : IsValue v) : payload (v ++ rest) = skip quote v ++ rest := by
  rw [payload, skipSeparator_of_starts (value.starts rest), skip, peek_append value.ne_nil, skip]
  split
  · exact List.tail_append_of_ne_nil value.ne_nil
  · rfl

theorem takeWhile_append_of_stops {p : UInt8 → Bool} {x : Bytes} (stops : ∃ c ∈ x, p c = false)
    (rest : Text) : (x ++ rest).takeWhile p = x.takeWhile p := by
  induction x with
  | nil =>
    obtain ⟨c, mem, -⟩ := stops
    cases mem
  | cons c x ih =>
    rw [List.cons_append, List.takeWhile_cons, List.takeWhile_cons]
    split
    · rename_i goes
      rw [ih]
      obtain ⟨d, mem, stop⟩ := stops
      rcases List.mem_cons.mp mem with rfl | mem
      · rw [goes] at stop
        cases stop
      · exact ⟨d, mem, stop⟩
    · rfl

theorem takeWhile_append_of_stop {p : UInt8 → Bool} {rest : Text} (stop : p (peek rest) = false)
    (x : Bytes) : (x ++ rest).takeWhile p = x.takeWhile p := by
  induction x with
  | nil =>
    cases rest with
    | nil => rfl
    | cons c rest => exact List.takeWhile_cons_of_neg (by simpa using stop)
  | cons c x ih => rw [List.cons_append, List.takeWhile_cons, List.takeWhile_cons, ih]

/-- The cursor after `getvalue`. -/
theorem getvalue_cursor (value : IsValue v) (ends : Ends rest) :
    (getvalue (v ++ rest)).2 = rest := by
  rw [getvalue, skipSeparator_of_starts (value.starts rest), storeobject_value value ends]

/-- The pointer that `getvalue` returns leads to a quote inside the value. -/
theorem getvalue_value (value : IsValue v) (quoted : quote ∈ skip quote v) (ends : Ends rest) :
    getvalue (v ++ rest) = (nameChars (skip quote v), rest) := by
  refine Prod.ext ?_ (getvalue_cursor value ends)
  rw [getvalue, payload_value value]
  refine takeWhile_append_of_stops ⟨quote, quoted, ?_⟩ rest
  decide

/-- The value looks like a number to `getint`, quoted or not. -/
def Numeric (v : Bytes) : Prop := isDigit (peek (skip quote v)) ∨ peek (skip quote v) = minus

instance (v : Bytes) : Decidable (Numeric v) := inferInstanceAs (Decidable (_ ∨ _))

theorem skip_quote_ne_nil (value : IsValue v) : skip quote v ≠ [] := by
  cases value with
  | @str content literal =>
    have text : skip quote (str content) = content ++ [quote] := skip_cons quote
    simp [text]
  | num number =>
    obtain ⟨c, tail, rfl, starts⟩ := startsValue_of_number number
    rw [skip_of_ne (by rintro rfl; revert starts; decide)]
    exact List.cons_ne_nil c tail
  | arr values => exact List.cons_ne_nil _ _
  | obj names values => exact List.cons_ne_nil _ _

theorem leadingInteger_minus (y : Bytes) : leadingInteger (minus :: y) = -leadingDigits y := rfl

theorem leadingInteger_digit {c : UInt8} (digit : isDigit c) (y : Bytes) :
    leadingInteger (c :: y) = leadingDigits (c :: y) := by
  have low : (48 : UInt8) ≤ c := by
    rw [isDigit, Bool.and_eq_true, decide_eq_true_eq] at digit
    exact digit.1
  have dense : ¬(c == 32 || (9 ≤ c && c ≤ 13)) := by
    rw [Bool.or_eq_true, Bool.and_eq_true, decide_eq_true_eq, decide_eq_true_eq, beq_iff_eq]
    rintro (rfl | ⟨-, high⟩)
    · exact absurd low (by decide)
    · exact absurd (UInt8.le_trans low high) (by decide)
  have kept : (c :: y).dropWhile (fun c => c == 32 || (9 ≤ c && c ≤ 13)) = c :: y :=
    List.dropWhile_cons_of_neg dense
  unfold leadingInteger
  rw [kept]
  split
  · rename_i tail same
    rw [(List.cons.inj same).1] at low
    exact absurd low (by decide)
  · rename_i tail same
    rw [(List.cons.inj same).1] at low
    exact absurd low (by decide)
  · rfl

theorem leadingInteger_append {x : Bytes} (numeric : isDigit (peek x) ∨ peek x = minus)
    (stop : Stop rest) : leadingInteger (x ++ rest) = leadingInteger x := by
  have ended : isDigit (peek rest) = false := by
    rcases stop with next | next | next <;> (rw [next]; decide)
  have digits : ∀ y : Bytes, leadingDigits (y ++ rest) = leadingDigits y := by
    intro y
    rw [leadingDigits, takeWhile_append_of_stop ended y, leadingDigits]
  cases x with
  | nil => exact absurd numeric (by decide)
  | cons c x =>
    rw [peek_cons] at numeric
    rcases numeric with digit | rfl
    · have plain := digits (c :: x)
      rw [List.cons_append] at plain ⊢
      rw [leadingInteger_digit digit, leadingInteger_digit digit, plain]
    · rw [List.cons_append, leadingInteger_minus, leadingInteger_minus, digits]

theorem atoll_append {x : Bytes} (numeric : isDigit (peek x) ∨ peek x = minus) (stop : Stop rest) :
    atoll (x ++ rest) = atoll x := by
  rw [atoll, leadingInteger_append numeric stop, atoll]

theorem getint_value (value : IsValue v) (numeric : Numeric v) (stop : Stop rest) :
    getint (v ++ rest) = (atoll (skip quote v), rest) := by
  have pointer := @payload_value v rest value
  rw [payload, skipSeparator_of_starts (value.starts rest)] at pointer
  simp only [getint, skipSeparator_of_starts (value.starts rest), pointer,
    peek_append (skip_quote_ne_nil value), storeobject_value value stop.ends,
    atoll_append numeric stop]
  exact if_pos numeric

theorem getint_other (value : IsValue v) (other : ¬Numeric v) :
    getint (v ++ rest) = (-1, v ++ rest) := by
  have pointer := @payload_value v rest value
  rw [payload, skipSeparator_of_starts (value.starts rest)] at pointer
  simp only [getint, skipSeparator_of_starts (value.starts rest), pointer,
    peek_append (skip_quote_ne_nil value)]
  exact if_neg other

theorem storebinary_value (value : IsValue v) (string : peek v = quote) (stop : Stop rest)
    (len : Nat) : storebinary len (v ++ rest) = (Base64.atob (skip quote v) len, rest) := by
  have text : (v ++ rest).tail = skip quote v ++ rest := by
    rw [skip, if_pos string]
    exact List.tail_append_of_ne_nil value.ne_nil
  simp only [storebinary, skip_of_ne (value.starts rest).ne_comma, peek_append value.ne_nil,
    string, if_true, text, Base64.atob_append stop.from64, storeobject_value value stop.ends]

theorem storebinary_other (value : IsValue v) (other : peek v ≠ quote) (len : Nat) :
    storebinary len (v ++ rest) = ([], v ++ rest) := by
  simp only [storebinary, skip_of_ne (value.starts rest).ne_comma, peek_append value.ne_nil,
    other, if_false]

theorem gethandle_value (value : IsValue v) (string : peek v = quote) (stop : Stop rest)
    (size : Nat) :
    gethandle size (v ++ rest) = (handleOf size (Base64.atob (skip quote v) 9), rest) := by
  rw [gethandle, storebinary_value value string stop]

theorem gethandle_other (value : IsValue v) (other : peek v ≠ quote) (size : Nat) :
    gethandle size (v ++ rest) = (handleOf size [], v ++ rest) := by
  rw [gethandle, storebinary_other value other]

theorem literalFrom_quote {x y : Bytes} (plain : ∀ c ∈ x, c ≠ quote ∧ c ≠ backslash) :
    ¬literalFrom false (x ++ quote :: y) := by
  induction x with
  | nil => simp [literalFrom]
  | cons c x ih =>
    have other := (plain c List.mem_cons_self).2
    have tail := ih fun d mem => plain d (List.mem_cons_of_mem c mem)
    simp [literalFrom, other, tail]

/-- `is` compares the whole literal. -/
theorem is_str {content value : Bytes} (literal : isLiteral content)
    (plain : ∀ c ∈ value, c ≠ quote ∧ c ≠ backslash) :
    is value (str content ++ rest) =
      if content = value then (true, rest) else (false, str content ++ rest) := by
  have text : str content ++ rest = quote :: (content ++ quote :: rest) := by simp [str]
  have start := skip_of_ne ((IsValue.str literal).starts rest).ne_comma
  rw [text] at start ⊢
  simp only [is, start, peek_cons, List.tail_cons, true_and]
  by_cases same : content = value
  · subst same
    have whole : (content ++ quote :: rest).take (content.length + 1) = content ++ [quote] := by
      rw [List.take_append, List.take_of_length_le (Nat.le_succ _)]
      simp
    rw [if_pos rfl, if_pos whole]
    simp
  · rw [if_neg same, if_neg]
    intro equal
    have leads : value ++ [quote] <+: content ++ quote :: rest :=
      List.prefix_iff_eq_take.mpr (by simpa using equal.symm)
    rcases Nat.lt_or_ge content.length value.length with shorter | longer
    · -- the quote that ends the content is a character of the value
      have inside : content ++ [quote] <+: value := by
        have whole : content ++ [quote] <+: content ++ quote :: rest := ⟨rest, by simp⟩
        refine List.prefix_of_prefix_length_le whole ((List.prefix_append _ _).trans leads) ?_
        rw [List.length_append, List.length_singleton]
        omega
      exact (plain quote (inside.subset (by simp))).1 rfl
    · have head : value <+: content :=
        List.prefix_of_prefix_length_le ((List.prefix_append _ _).trans leads)
          (List.prefix_append _ _) longer
      obtain ⟨more, rfl⟩ := head
      cases more with
      | nil => exact same (List.append_nil value)
      | cons c more =>
        obtain ⟨after, split⟩ := leads
        have first : c = quote := by
          have tails : quote :: after = c :: more ++ quote :: rest := by
            simpa using split
          exact (List.cons.inj tails).1.symm
        subst first
        exact literalFrom_quote plain literal

theorem is_other (value : IsValue v) (other : peek v ≠ quote) (literal : Bytes) :
    is literal (v ++ rest) = (false, v ++ rest) := by
  simp only [is, skip_of_ne (value.starts rest).ne_comma, peek_append value.ne_nil, other,
    false_and, if_false]

theorem getfloat_number (value : IsValue v) (number : isDigit (peek v) ∨ peek v = minus)
    (ends : Ends rest) : getfloat (v ++ rest) = (some (stored v), rest) := by
  have goes : isDigit (peek (v ++ rest)) ∨ peek (v ++ rest) = minus ∨ peek (v ++ rest) = dot := by
    rw [peek_append value.ne_nil]
    rcases number with digit | negative
    · exact .inl digit
    · exact .inr (.inl negative)
  simp only [getfloat, skipSeparator_of_starts (value.starts rest), if_pos goes,
    storeobject_value value ends]

theorem getfloat_other (value : IsValue v) (other : ¬(isDigit (peek v) ∨ peek v = minus)) :
    getfloat (v ++ rest) = (none, v ++ rest) := by
  have stays : ¬(isDigit (peek (v ++ rest)) ∨ peek (v ++ rest) = minus ∨
      peek (v ++ rest) = dot) := by
    have starts := value.starts rest
    rw [Starts, peek_append value.ne_nil] at starts
    rw [peek_append value.ne_nil]
    rintro (digit | negative | point)
    · exact other (.inl digit)
    · exact other (.inr negative)
    · rw [point] at starts
      exact absurd starts (by decide)
  simp only [getfloat, skipSeparator_of_starts (value.starts rest), if_neg stays]

theorem IsValue.exists_str (value : IsValue v) (string : peek v = quote) :
    ∃ content, isLiteral content ∧ v = Json.str content := by
  cases value with
  | @str content literal => exact ⟨content, literal, rfl⟩
  | num number =>
    obtain ⟨c, tail, rfl, starts⟩ := startsValue_of_number number
    obtain rfl : c = quote := string
    exact absurd starts (by decide)
  | arr values => exact absurd string (by rw [array, peek_cons]; decide)
  | obj names values => exact absurd string (by rw [object, peek_cons]; decide)

theorem IsValue.exists_array (value : IsValue v) (list : peek v = openArray) :
    ∃ xs, v = array xs ∧ ∀ x ∈ xs, IsValue x := by
  cases value with
  | str literal => exact absurd list (by rw [Json.str, peek_cons]; decide)
  | num number =>
    obtain ⟨c, tail, rfl, starts⟩ := startsValue_of_number number
    obtain rfl : c = openArray := list
    exact absurd starts (by decide)
  | @arr xs values => exact ⟨xs, rfl, values⟩
  | obj names values => exact absurd list (by rw [object, peek_cons]; decide)

end Values

end MegaSdk.Json
