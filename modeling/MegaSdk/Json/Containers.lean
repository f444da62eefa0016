import MegaSdk.Json.Reading

/-!
# The scanner on arbitrary texts

`storeobject` cuts the text into tokens and counts open objects and arrays apart, with
signed counters: it stops as soon as both are zero, also when they come back to zero from
below. `leaveobject` does not look at the result of `storeobject`. What this means on
texts that are no well-formed JSON is determined here.
-/

namespace MegaSdk.Json

inductive Token where
  | openArray | openObject | closeArray | closeObject | plain
  deriving DecidableEq, Repr

/-- The first token of a text and what follows it; a string or a number is one token. -/
def lexeme : Text → Option (Token × Text)
  | [] => none
  | c :: rest =>
    if c = openArray then some (.openArray, rest)
    else if c = openObject then some (.openObject, rest)
    else if c = closeArray then some (.closeArray, rest)
    else if c = closeObject then some (.closeObject, rest)
    else if c = quote then (skipString false rest).map fun after => (.plain, after)
    else if isDigit c || c = minus || c = dot then some (.plain, rest.dropWhile isNumberTail)
    else if c = colon || c = comma then some (.plain, rest)
    else none

inductive Lexed : Text → List Token → Text → Prop
  | nil {s : Text} : Lexed s [] s
  | cons {s mid rest : Text} {t : Token} {ts : List Token} (first : lexeme s = some (t, mid))
      (more : Lexed mid ts rest) : Lexed s (t :: ts) rest

def objects (ts : List Token) : Int := ts.count .openObject - ts.count .closeObject

def arrays (ts : List Token) : Int := ts.count .openArray - ts.count .closeArray

def Balanced (ts : List Token) : Prop := objects ts = 0 ∧ arrays ts = 0

def Covered (ts : List Token) : Prop := 0 ≤ objects ts ∧ 0 ≤ arrays ts

instance (ts : List Token) : Decidable (Balanced ts) := inferInstanceAs (Decidable (_ ∧ _))

instance (ts : List Token) : Decidable (Covered ts) := inferInstanceAs (Decidable (_ ∧ _))

/-- The tokens that `storeobject` consumes: the counts even out with the last one. -/
structure EvensOut (s : Text) (ts : List Token) (rest : Text) : Prop where
  lexed : Lexed s ts rest
  some : ts ≠ []
  balanced : Balanced ts
  first : ∀ us, us <+: ts → us ≠ [] → us ≠ ts → ¬Balanced us

theorem objects_cons (t : Token) (ts : List Token) :
    objects (t :: ts) = objects [t] + objects ts := by
  simp only [objects, List.count_cons, List.count_nil]
  omega

theorem arrays_cons (t : Token) (ts : List Token) : arrays (t :: ts) = arrays [t] + arrays ts := by
  simp only [arrays, List.count_cons, List.count_nil]
  omega

/-- A round of the loop reads one token and counts it. -/
theorem advance_eq (o a : Int) (s : Text) :
    advance (o, a, s) = (lexeme s).map fun x => (o + objects [x.1], a + arrays [x.1], x.2) := by
  cases s with
  | nil => rfl
  | cons c rest =>
    rw [advance, lexeme]
    split
    · simp [objects, arrays]
    split
    · simp [objects, arrays]
    split
    · simp [objects, arrays, Int.sub_eq_add_neg]
    split
    · simp [objects, arrays, Int.sub_eq_add_neg]
    split
    · rw [Option.map_map]
      simp [objects, arrays, Function.comp_def]
    split
    · simp [objects, arrays]
    split
    · simp [objects, arrays]
    · rfl

theorem length_lexeme {s mid : Text} {t : Token} (first : lexeme s = some (t, mid)) :
    mid.length < s.length := by
  have round := advance_eq 0 0 s
  rw [first, Option.map_some] at round
  exact length_advance round

/-- Counters that start at `o` and `a` are both zero after these tokens, and not before. -/
structure ZeroFirst (o a : Int) (ts : List Token) : Prop where
  some : ts ≠ []
  zero : o + objects ts = 0 ∧ a + arrays ts = 0
  least : ∀ us, us <+: ts → us ≠ [] → us ≠ ts → ¬(o + objects us = 0 ∧ a + arrays us = 0)

theorem zeroFirst_of_zero {o a : Int} {t : Token} {ts : List Token}
    (zero : o + objects [t] = 0 ∧ a + arrays [t] = 0) : ZeroFirst o a (t :: ts) ↔ ts = [] := by
  constructor
  · intro whole
    cases ts with
    | nil => rfl
    | cons u us =>
      exact absurd zero (whole.least [t] (List.prefix_append [t] (u :: us)) (by simp) (by simp))
  · rintro rfl
    refine ⟨by simp, zero, ?_⟩
    intro us below some other
    rcases List.prefix_cons_iff.mp below with rfl | ⟨vs, rfl, inner⟩
    · exact absurd rfl some
    · rw [List.prefix_nil.mp inner] at other
      exact absurd rfl other

theorem zeroFirst_cons {o a : Int} {t : Token} {ts : List Token}
    (more : ¬(o + objects [t] = 0 ∧ a + arrays [t] = 0)) :
    ZeroFirst o a (t :: ts) ↔ ZeroFirst (o + objects [t]) (a + arrays [t]) ts := by
  constructor
  · rintro ⟨-, zero, least⟩
    rw [objects_cons, arrays_cons] at zero
    refine ⟨?_, by omega, ?_⟩
    · rintro rfl
      exact more ⟨by simpa [objects] using zero.1, by simpa [arrays] using zero.2⟩
    · intro us below nonempty other
      have longer := least (t :: us) (List.prefix_cons_inj t |>.mpr below) (by simp)
        fun same => other (List.cons.inj same).2
      rw [objects_cons, arrays_cons] at longer
      omega
  · rintro ⟨-, zero, least⟩
    refine ⟨by simp, ?_, ?_⟩
    · rw [objects_cons, arrays_cons]
      omega
    · intro us below nonempty other
      rcases List.prefix_cons_iff.mp below with rfl | ⟨vs, rfl, inner⟩
      · exact absurd rfl nonempty
      · by_cases empty : vs = []
        · subst empty
          exact more
        · have later := least vs inner empty fun same => other (same ▸ rfl)
          rw [objects_cons, arrays_cons]
          omega

/-- Counters that count something count a first token. -/
theorem exists_lexed_iff {o a : Int} {s rest : Text} :
    (∃ ts, Lexed s ts rest ∧ ZeroFirst o a ts) ↔
      ∃ t mid, lexeme s = some (t, mid) ∧ ∃ ts, Lexed mid ts rest ∧ ZeroFirst o a (t :: ts) := by
  constructor
  · rintro ⟨ts, lexed, zero⟩
    cases lexed with
    | nil => exact absurd rfl zero.some
    | cons first more => exact ⟨_, _, first, _, more, zero⟩
  · rintro ⟨t, mid, first, ts, more, zero⟩
    exact ⟨t :: ts, .cons first more, zero⟩

/-- The loop of `storeobject` from given counters. -/
theorem scan_eq_some_iff {fuel : Nat} {o a : Int} {s rest : Text} (enough : s.length ≤ fuel) :
    scan fuel (o, a, s) = some rest ↔ ∃ ts, Lexed s ts rest ∧ ZeroFirst o a ts := by
  rw [exists_lexed_iff]
  induction fuel generalizing o a s with
  | zero =>
    have empty : s = [] := List.length_eq_zero_iff.mp (Nat.le_zero.mp enough)
    subst empty
    simp [scan, lexeme]
  | succ fuel ih =>
    rw [scan, advance_eq]
    cases first : lexeme s with
    | none => simp
    | some token =>
      obtain ⟨t, mid⟩ := token
      have shorter := length_lexeme first
      simp only [Option.map_some, Option.some.injEq, Prod.mk.injEq, ↓existsAndEq, true_and]
      split
      · rename_i zero
        simp only [zeroFirst_of_zero zero, exists_eq_right]
        constructor
        · intro same
          cases same
          exact .nil
        · intro lexed
          cases lexed
          rfl
      · rename_i more
        rw [ih (by omega), ← exists_lexed_iff]
        simp only [zeroFirst_cons more]

/-- `storeobject` returns true exactly if the counts even out. -/
theorem scan_iff_evensOut {s rest : Text} :
    scan s.length (0, 0, s) = some rest ↔ ∃ ts, EvensOut s ts rest := by
  rw [scan_eq_some_iff le_rfl]
  constructor
  · rintro ⟨ts, lexed, some, zero, least⟩
    simp only [Int.zero_add] at zero least
    exact ⟨ts, lexed, some, zero, least⟩
  · rintro ⟨ts, lexed, some, balanced, first⟩
    refine ⟨ts, lexed, some, ?_, ?_⟩
    · simpa only [Int.zero_add, Balanced] using balanced
    · simpa only [Int.zero_add, Balanced] using first

theorem storeobject_some_iff {s after : Text} :
    (∃ v, storeobject s = (some v, after)) ↔ ∃ ts, EvensOut (skipBlanks s) ts after := by
  rw [← scan_iff_evensOut, storeobject]
  cases scanned : scan (skipBlanks s).length (0, 0, skipBlanks s) with
  | none => simp
  | some rest =>
    dsimp only
    split <;> simp

/-- Where nothing evens out, `storeobject` moves behind blanks and a comma only. -/
theorem storeobject_of_none {s after : Text} (none : storeobject s = (none, after)) :
    after = skipBlanks s := by
  rw [storeobject] at none
  cases scanned : scan (skipBlanks s).length (0, 0, skipBlanks s) with
  | none =>
    rw [scanned] at none
    exact (Prod.mk.inj none).2.symm
  | some rest =>
    rw [scanned] at none
    dsimp only at none
    split at none <;> cases none

/-- The characters outside of string literals; the mode is `none` outside, and inside a literal
whether the next character is escaped. -/
def outside : Option Bool → Bytes → Bytes
  | _, [] => []
  | none, c :: rest => if c = quote then outside (some false) rest else c :: outside none rest
  | some escaped, c :: rest =>
    if c = quote && !escaped then outside none rest
    else outside (some (c = backslash && !escaped)) rest

def objectDepth (text : Bytes) : Int :=
  (outside none text).count openObject - (outside none text).count closeObject

def arrayDepth (text : Bytes) : Int :=
  (outside none text).count openArray - (outside none text).count closeArray

/-- No prefix closes more arrays or more objects than it opens. -/
def Nested (span : Bytes) : Prop := ∀ p, p <+: span → 0 ≤ objectDepth p ∧ 0 ≤ arrayDepth p

/-- `storeobject` stays inside the container of the cursor: what it consumes is nested, and at the
end of the container it returns false and stays there. -/
structure Contained (s : Text) : Prop where
  nested : ∀ v after, storeobject s = (some v, after) → Nested (between (skipBlanks s) after)
  stays : peek s = closeArray ∨ peek s = closeObject → storeobject s = (none, s)

/-- Before anything has evened out, something is closed that is not open, and later tokens make
up for it. -/
def Crosses (s : Text) : Prop :=
  ∃ us ts rest, us <+: ts ∧ Lexed (skipBlanks s) ts rest ∧ ¬Covered us ∧ Balanced ts ∧
    ∀ vs, vs <+: us → vs ≠ [] → ¬Balanced vs

/-- What a token contributes to the counts of the characters outside of literals. -/
structure Counts (word : Bytes) (t : Token) : Prop where
  short : ∀ p, p <+: word → p ≠ word → objectDepth p = 0 ∧ arrayDepth p = 0
  whole : ∀ tail, objectDepth (word ++ tail) = objects [t] + objectDepth tail ∧
    arrayDepth (word ++ tail) = arrays [t] + arrayDepth tail

theorem counts_bracket {c : UInt8} {t : Token} (other : c ≠ quote)
    (object : objectDepth [c] = objects [t]) (array : arrayDepth [c] = arrays [t]) :
    Counts [c] t where
  short := by
    intro p below other
    rcases List.prefix_cons_iff.mp below with rfl | ⟨q, rfl, inner⟩
    · exact ⟨rfl, rfl⟩
    · rw [List.prefix_nil.mp inner] at other
      exact absurd rfl other
  whole := by
    intro tail
    simp only [objectDepth, arrayDepth, outside, if_neg other, List.singleton_append,
      List.count_cons, List.count_nil] at object array ⊢
    omega

theorem outside_unquoted {word : Bytes} (unquoted : quote ∉ word) (tail : Bytes) :
    outside none (word ++ tail) = word ++ outside none tail := by
  induction word with
  | nil => rfl
  | cons c word ih =>
    rw [List.mem_cons, not_or] at unquoted
    rw [List.cons_append, outside, if_neg (Ne.symm unquoted.1), ih unquoted.2, List.cons_append]

/-- Characters that neither start a literal nor open or close anything. -/
def isInert (c : UInt8) : Bool :=
  c ≠ quote && c ≠ openArray && c ≠ closeArray && c ≠ openObject && c ≠ closeObject

/-- A property that quotes, brackets and braces do not have. -/
theorem isInert_of {p : UInt8 → Bool} (others : (!p quote && !p openArray && !p closeArray &&
    !p openObject && !p closeObject) = true) (c : UInt8) (holds : p c = true) :
    isInert c = true := by
  simp only [Bool.and_eq_true, Bool.not_eq_true'] at others
  have differs : ∀ d, p d = false → c ≠ d := by
    rintro d without rfl
    rw [without] at holds
    cases holds
  simp only [isInert, Bool.and_eq_true, decide_eq_true_eq]
  exact ⟨⟨⟨⟨differs _ others.1.1.1.1, differs _ others.1.1.1.2⟩, differs _ others.1.1.2⟩,
    differs _ others.1.2⟩, differs _ others.2⟩

theorem isInert_of_numberTail : ∀ c : UInt8, isNumberTail c = true → isInert c = true :=
  isInert_of (by decide)

theorem isInert_of_numberStart : ∀ c : UInt8,
    (isDigit c || decide (c = minus) || decide (c = dot)) = true → isInert c = true :=
  isInert_of (by decide)

theorem counts_inert {word : Bytes} (inert : ∀ c ∈ word, isInert c = true) :
    Counts word .plain := by
  have apart : ∀ d : UInt8, isInert d = false → d ∉ word := by
    intro d active mem
    rw [inert d mem] at active
    cases active
  have text : ∀ p tail : Bytes, p <+: word → outside none (p ++ tail) = p ++ outside none tail :=
    fun p tail below => outside_unquoted (fun mem => apart quote rfl (below.subset mem)) tail
  have absent : ∀ p : Bytes, p <+: word → ∀ d : UInt8, isInert d = false → p.count d = 0 :=
    fun p below d active => List.count_eq_zero.mpr fun mem => apart d active (below.subset mem)
  constructor
  · intro p below _
    have whole := text p [] below
    rw [List.append_nil, outside, List.append_nil] at whole
    rw [objectDepth, arrayDepth, whole, absent p below openObject rfl,
      absent p below closeObject rfl, absent p below openArray rfl, absent p below closeArray rfl]
    exact ⟨rfl, rfl⟩
  · intro tail
    have self := List.prefix_refl word
    rw [objectDepth, arrayDepth, text word tail self]
    simp only [List.count_append, absent word self openObject rfl,
      absent word self closeObject rfl, absent word self openArray rfl,
      absent word self closeArray rfl, Nat.zero_add]
    simp [objects, arrays, objectDepth, arrayDepth]

theorem outside_literal {escaped : Bool} {content : Bytes}
    (literal : literalFrom escaped content) (tail : Bytes) :
    outside (some escaped) (content ++ quote :: tail) = outside none tail := by
  induction content generalizing escaped with
  | nil =>
    have closed : escaped = false := by simpa [literalFrom] using literal
    simp [outside, closed]
  | cons c content ih =>
    simp only [literalFrom, Bool.and_eq_true, decide_eq_true_eq, Bool.not_eq_true'] at literal
    obtain ⟨⟨_, open_⟩, more⟩ := literal
    rw [List.cons_append, outside, if_neg (by simp [open_])]
    exact ih more

theorem outside_part {escaped : Bool} {content p : Bytes} (literal : literalFrom escaped content)
    (below : p <+: content) : outside (some escaped) p = [] := by
  induction content generalizing escaped p with
  | nil => rw [List.prefix_nil.mp below, outside]
  | cons c content ih =>
    simp only [literalFrom, Bool.and_eq_true, decide_eq_true_eq, Bool.not_eq_true'] at literal
    obtain ⟨⟨_, open_⟩, more⟩ := literal
    rcases List.prefix_cons_iff.mp below with rfl | ⟨q, rfl, inner⟩
    · rw [outside]
    · rw [outside, if_neg (by simp [open_])]
      exact ih more inner

theorem counts_str {content : Bytes} (literal : isLiteral content) :
    Counts (str content) .plain := by
  constructor
  · intro p below other
    have empty : outside none p = [] := by
      rcases List.prefix_cons_iff.mp below with rfl | ⟨q, rfl, inner⟩
      · rfl
      · rw [outside, if_pos rfl]
        rcases List.prefix_concat_iff.mp inner with rfl | inner
        · exact absurd rfl other
        · exact outside_part literal inner
    rw [objectDepth, arrayDepth, empty]
    exact ⟨rfl, rfl⟩
  · intro tail
    have text : outside none (str content ++ tail) = outside none tail := by
      rw [str, List.cons_append, List.append_assoc, outside, if_pos rfl]
      exact outside_literal literal tail
    rw [objectDepth, arrayDepth, text]
    simp [objects, arrays, objectDepth, arrayDepth]

/-- A skipped string was a literal. -/
theorem literal_of_skipString {escaped : Bool} {s after : Text}
    (skipped : skipString escaped s = some after) :
    ∃ content, s = content ++ quote :: after ∧ literalFrom escaped content := by
  induction s generalizing escaped with
  | nil => cases skipped
  | cons c rest ih =>
    rw [skipString] at skipped
    split at skipped
    · cases skipped
    rename_i nonzero
    split at skipped
    · rename_i closes
      rw [Bool.and_eq_true, decide_eq_true_eq, Bool.not_eq_true'] at closes
      cases skipped
      exact ⟨[], by rw [closes.1, List.nil_append], by rw [literalFrom, closes.2]; rfl⟩
    · rename_i goes
      obtain ⟨content, rfl, literal⟩ := ih skipped
      refine ⟨c :: content, rfl, ?_⟩
      simp only [literalFrom, Bool.and_eq_true, decide_eq_true_eq]
      rw [Bool.not_eq_true] at goes
      exact ⟨⟨nonzero, by rw [goes]; rfl⟩, literal⟩

/-- A token is a word of the text, and it counts as its characters do. -/
theorem lexeme_word {s mid : Text} {t : Token} (first : lexeme s = some (t, mid)) :
    ∃ word, s = word ++ mid ∧ Counts word t := by
  cases s with
  | nil => cases first
  | cons c rest =>
    rw [lexeme] at first
    split at first
    · rename_i same
      subst same
      cases first
      exact ⟨[_], rfl, counts_bracket (by decide) rfl rfl⟩
    split at first
    · rename_i same
      subst same
      cases first
      exact ⟨[_], rfl, counts_bracket (by decide) rfl rfl⟩
    split at first
    · rename_i same
      subst same
      cases first
      exact ⟨[_], rfl, counts_bracket (by decide) rfl rfl⟩
    split at first
    · rename_i same
      subst same
      cases first
      exact ⟨[_], rfl, counts_bracket (by decide) rfl rfl⟩
    split at first
    · rename_i same
      obtain ⟨after, skipped, heq⟩ := Option.map_eq_some_iff.mp first
      cases heq
      obtain ⟨content, rfl, literal⟩ := literal_of_skipString skipped
      exact ⟨str content, by simp [str, same], counts_str literal⟩
    split at first
    · rename_i same
      cases first
      refine ⟨c :: rest.takeWhile isNumberTail, ?_, counts_inert ?_⟩
      · rw [List.cons_append, List.takeWhile_append_dropWhile]
      · intro d mem
        rcases List.mem_cons.mp mem with rfl | mem
        · exact isInert_of_numberStart _ same
        · exact isInert_of_numberTail _ (List.mem_takeWhile_imp mem)
    split at first
    · rename_i same
      cases first
      refine ⟨[c], rfl, counts_inert ?_⟩
      intro d mem
      rw [List.mem_singleton.mp mem]
      simp only [Bool.or_eq_true, decide_eq_true_eq] at same
      rcases same with rfl | rfl <;> rfl
    · cases first

/-- The tokens of a span count as its characters do, at every prefix. -/
theorem Lexed.depths {s rest : Text} {ts : List Token} (lexed : Lexed s ts rest) :
    ∃ span, s = span ++ rest ∧ ∀ o a : Int,
      (∀ p, p <+: span → 0 ≤ o + objectDepth p ∧ 0 ≤ a + arrayDepth p) ↔
        ∀ us, us <+: ts → 0 ≤ o + objects us ∧ 0 ≤ a + arrays us := by
  induction lexed with
  | nil =>
    refine ⟨[], rfl, fun o a => ?_⟩
    simp [objectDepth, arrayDepth, outside, objects, arrays]
  | @cons s mid rest t ts first _ ih =>
    obtain ⟨word, rfl, counts⟩ := lexeme_word first
    obtain ⟨span, rfl, same⟩ := ih
    refine ⟨word ++ span, by rw [List.append_assoc], fun o a => ?_⟩
    constructor
    · intro covered us below
      rcases List.prefix_cons_iff.mp below with rfl | ⟨vs, rfl, inner⟩
      · simpa [objectDepth, arrayDepth, outside, objects, arrays] using covered [] List.nil_prefix
      · have later := (same (o + objects [t]) (a + arrays [t])).mp ?_ vs inner
        · rw [objects_cons, arrays_cons]
          omega
        · intro p below
          have longer := covered (word ++ p) (List.prefix_append_right_inj word |>.mpr below)
          obtain ⟨object, array⟩ := counts.whole p
          omega
    · intro covered p below
      by_cases whole : word <+: p
      · obtain ⟨q, rfl⟩ := whole
        have inner := (List.prefix_append_right_inj word).mp below
        obtain ⟨object, array⟩ := counts.whole q
        have later := (same (o + objects [t]) (a + arrays [t])).mpr ?_ q inner
        · omega
        · intro us below
          have longer := covered (t :: us) ((List.prefix_cons_inj t).mpr below)
          rw [objects_cons, arrays_cons] at longer
          omega
      · have short : p <+: word :=
          (List.prefix_or_prefix_of_prefix below (List.prefix_append word span)).resolve_right whole
        obtain ⟨object, array⟩ := counts.short p short fun same => whole (same ▸ short)
        have start := covered [] List.nil_prefix
        rw [object, array]
        exact start

/-- What `storeobject` consumes is nested exactly if its tokens are. -/
theorem Lexed.nested_iff {s rest : Text} {ts : List Token} (lexed : Lexed s ts rest) :
    Nested (between s rest) ↔ ∀ us, us <+: ts → Covered us := by
  obtain ⟨span, rfl, same⟩ := lexed.depths
  have whole : between (span ++ rest) rest = span := by simp [between]
  have counted := same 0 0
  simp only [Int.zero_add] at counted
  rw [whole]
  exact counted

theorem Lexed.begins {s rest : Text} {ts us : List Token} (lexed : Lexed s ts rest)
    (below : us <+: ts) : ∃ mid, Lexed s us mid := by
  induction lexed generalizing us with
  | nil =>
    rw [List.prefix_nil.mp below]
    exact ⟨_, .nil⟩
  | cons first _ ih =>
    rcases List.prefix_cons_iff.mp below with rfl | ⟨vs, rfl, inner⟩
    · exact ⟨_, .nil⟩
    · obtain ⟨mid, more⟩ := ih inner
      exact ⟨mid, .cons first more⟩

/-- The shortest balanced beginning of the tokens. -/
theorem Lexed.evensOut {s rest : Text} {ts : List Token} (lexed : Lexed s ts rest)
    (some : ts ≠ []) (balanced : Balanced ts) : ∃ us mid, us <+: ts ∧ EvensOut s us mid := by
  have exists_length : ∃ k, 0 < k ∧ Balanced (ts.take k) :=
    ⟨ts.length, List.length_pos_iff.mpr some, by rwa [List.take_length]⟩
  obtain ⟨positive, least⟩ := Nat.find_spec exists_length
  have below := List.take_prefix (Nat.find exists_length) ts
  obtain ⟨mid, shorter⟩ := lexed.begins below
  refine ⟨_, mid, below, shorter, ?_, least, ?_⟩
  · intro empty
    rcases List.take_eq_nil_iff.mp empty with none | none
    · omega
    · exact some none
  · intro us inner nonempty other even
    rw [List.prefix_iff_eq_take] at inner
    have lengths : us.length < Nat.find exists_length := by
      by_contra long
      refine other (inner.trans (List.take_of_length_le ?_))
      rw [List.length_take]
      omega
    refine Nat.find_min exists_length lengths ⟨List.length_pos_iff.mpr nonempty, ?_⟩
    rw [List.take_take, Nat.min_eq_left lengths.le] at inner
    rwa [← inner]

theorem not_contained_of_crosses {s : Text} (crosses : Crosses s) : ¬Contained s := by
  intro contained
  obtain ⟨us, ts, rest, below, lexed, uncovered, balanced, before⟩ := crosses
  have some : us ≠ [] := by
    rintro rfl
    exact uncovered ⟨le_rfl, le_rfl⟩
  obtain ⟨vs, mid, inner, evensOut⟩ :=
    lexed.evensOut (fun empty => some (List.prefix_nil.mp (empty ▸ below))) balanced
  obtain ⟨v, stored⟩ := storeobject_some_iff.mpr ⟨vs, evensOut⟩
  have covered := evensOut.lexed.nested_iff.mp (contained.nested v mid stored)
  rcases List.prefix_or_prefix_of_prefix below inner with longer | shorter
  · exact uncovered (covered us longer)
  · exact before vs shorter evensOut.some evensOut.balanced

theorem skipBlanks_closing {s : Text} (closing : peek s = closeArray ∨ peek s = closeObject) :
    skipBlanks s = s := by
  cases s with
  | nil => rfl
  | cons c rest =>
    rw [peek_cons] at closing
    rw [skipBlanks, List.dropWhile_cons_of_neg, skip_of_ne]
    · rw [peek_cons]
      rcases closing with rfl | rfl <;> decide
    · rcases closing with rfl | rfl <;> decide

/-- A text at the end of its container starts with a surplus token. -/
theorem not_covered_closing {s mid : Text} {t : Token}
    (closing : peek s = closeArray ∨ peek s = closeObject) (first : lexeme s = some (t, mid)) :
    ¬Covered [t] := by
  cases s with
  | nil => cases first
  | cons c rest =>
    rw [peek_cons] at closing
    rcases closing with rfl | rfl
    · cases first
      decide
    · cases first
      decide

theorem contained_of_not_crosses {s : Text} (stays : ¬Crosses s) : Contained s := by
  have nested : ∀ v after, storeobject s = (some v, after) →
      Nested (between (skipBlanks s) after) := by
    intro v after stored
    obtain ⟨ts, evensOut⟩ := storeobject_some_iff.mp ⟨v, stored⟩
    rw [evensOut.lexed.nested_iff]
    intro us below
    by_contra uncovered
    refine stays ⟨us, ts, after, below, evensOut.lexed, uncovered, evensOut.balanced, ?_⟩
    intro vs inner some balanced
    refine evensOut.first vs (inner.trans below) some ?_ balanced
    rintro rfl
    have same := inner.eq_of_length_le below.length_le
    rw [← same] at uncovered
    exact uncovered ⟨le_of_eq evensOut.balanced.1.symm, le_of_eq evensOut.balanced.2.symm⟩
  refine ⟨nested, fun closing => ?_⟩
  cases result : storeobject s with
  | mk v after =>
    cases v with
    | none => rw [storeobject_of_none result, skipBlanks_closing closing]
    | some v =>
      obtain ⟨ts, evensOut⟩ := storeobject_some_iff.mp ⟨v, result⟩
      have covered := evensOut.lexed.nested_iff.mp (nested v after result)
      have lexed := evensOut.lexed
      rw [skipBlanks_closing closing] at lexed
      cases lexed with
      | nil => exact absurd rfl evensOut.some
      | @cons _ _ _ t ts first _ =>
        exact absurd (covered [t] (List.prefix_append [t] ts)) (not_covered_closing closing first)

/-- `storeobject` stays inside its container exactly if the text does not make up for a
surplus closing bracket or brace. -/
theorem contained_iff_not_crosses (s : Text) : Contained s ↔ ¬Crosses s :=
  ⟨fun contained crosses => not_contained_of_crosses crosses contained, contained_of_not_crosses⟩

/-- At the end of an array that another array follows, `storeobject` moves into the latter. -/
theorem storeobject_leaves_array :
    storeobject (ascii "],\"v\":[\"x\"]") = (some (ascii "],\"v\":["), ascii "\"x\"]") ∧
      ¬Contained (ascii "],\"v\":[\"x\"]") := by
  have moved : storeobject (ascii "],\"v\":[\"x\"]") =
      (some (ascii "],\"v\":["), ascii "\"x\"]") := by decide +kernel
  refine ⟨moved, fun contained => ?_⟩
  rw [contained.stays (.inl rfl)] at moved
  cases moved

/-- A round of the loop of `leaveobject`, `none` for the end of the loop. The result of
`storeobject` is not looked at. -/
def leaveRound (s : Text) : Option Text :=
  if peek s = colon ∨ peek s = comma then some s.tail
  else if startsValue (peek s) then some (storeobject s).2
  else none

/-- Rounds of the loop of `leaveobject`. -/
abbrev Skips := Relation.ReflTransGen fun x y => leaveRound x = some y

/-- `leaveobject` returns, and every round on its way advances the cursor. -/
structure SkipsRemainder (s : Text) : Prop where
  ends : ∃ t, Skips s t ∧ leaveRound t = none
  returns : ∃ moved after, leaveobject s = .ok (moved, after)
  advances : ∀ x y, Skips s x → leaveRound x = some y → y.length < x.length

/-- Colons, commas and values in which the counts even out, up to a character that starts
no value. -/
inductive Skippable : Text → Prop
  | stop {s : Text} (last : leaveRound s = none) : Skippable s
  | separator {s : Text} (separates : peek s = colon ∨ peek s = comma)
      (more : Skippable s.tail) : Skippable s
  | value {s rest : Text} {ts : List Token} (starts : startsValue (peek s))
      (evensOut : EvensOut s ts rest) (more : Skippable rest) : Skippable s

theorem leaveRound_separator {s : Text} (separates : peek s = colon ∨ peek s = comma) :
    leaveRound s = some s.tail := if_pos separates

theorem leaveRound_value {s : Text} (starts : Starts s) :
    leaveRound s = some (storeobject s).2 := by
  have goes : startsValue (peek s) := starts
  rw [leaveRound, if_neg starts.not_separator, if_pos goes]

theorem length_tail_separator {s : Text} (separates : peek s = colon ∨ peek s = comma) :
    s.tail.length < s.length := by
  cases s with
  | nil => rcases separates with next | next <;> cases next
  | cons c rest => exact Nat.lt_succ_self _

theorem leaveRound_cases (s : Text) :
    leaveRound s = none ∨ (peek s = colon ∨ peek s = comma) ∨ Starts s := by
  rw [leaveRound]
  split
  · rename_i separates
    exact .inr (.inl separates)
  split
  · rename_i starts
    exact .inr (.inr starts)
  · exact .inl rfl

/-- At a value, `storeobject` passes over it or leaves the cursor where it is. -/
theorem storeobject_starts {s : Text} (starts : Starts s) :
    storeobject s = (none, s) ∨
      ∃ v rest ts, storeobject s = (some v, rest) ∧ EvensOut s ts rest := by
  have here := skipBlanks_of_starts starts
  cases result : storeobject s with
  | mk v rest =>
    cases v with
    | none => exact .inl (by rw [storeobject_of_none result, here])
    | some v =>
      obtain ⟨ts, evensOut⟩ := storeobject_some_iff.mp ⟨v, result⟩
      rw [here] at evensOut
      exact .inr ⟨v, rest, ts, rfl, evensOut⟩

theorem storeobject_evensOut {s rest : Text} {ts : List Token} (starts : Starts s)
    (evensOut : EvensOut s ts rest) : ∃ v, storeobject s = (some v, rest) :=
  storeobject_some_iff.mpr ⟨ts, by rwa [skipBlanks_of_starts starts]⟩

theorem Lexed.length_le {s rest : Text} {ts : List Token} (lexed : Lexed s ts rest) :
    rest.length ≤ s.length := by
  obtain ⟨span, rfl, -⟩ := lexed.depths
  rw [List.length_append]
  exact Nat.le_add_left _ _

theorem EvensOut.length_lt {s rest : Text} {ts : List Token} (evensOut : EvensOut s ts rest) :
    rest.length < s.length := by
  cases evensOut.lexed with
  | nil => exact absurd rfl evensOut.some
  | cons first more => exact Nat.lt_of_le_of_lt more.length_le (length_lexeme first)

theorem length_skip (c : UInt8) (s : Text) : (skip c s).length ≤ s.length := by
  unfold skip
  split
  · rw [List.length_tail]
    exact Nat.sub_le _ _
  · exact Nat.le_refl _

theorem length_skipBlanks (s : Text) : (skipBlanks s).length ≤ s.length :=
  (length_skip comma _).trans (List.dropWhile_suffix _).length_le

/-- A value that is stored is not empty. -/
theorem length_storeobject_lt {s after : Text} {v : Bytes}
    (stored : storeobject s = (some v, after)) : after.length < s.length := by
  obtain ⟨tokens, evensOut⟩ := storeobject_some_iff.mp ⟨v, stored⟩
  exact evensOut.length_lt.trans_le (length_skipBlanks s)

/-- A loop that comes to its end has passed over every value it met. -/
theorem skippable_of_ends {s t : Text} (skips : Skips s t) (last : leaveRound t = none) :
    Skippable s := by
  induction skips using Relation.ReflTransGen.head_induction_on with
  | refl => exact .stop last
  | @head s y round _ ih =>
    rcases leaveRound_cases s with none | separates | starts
    · exact .stop none
    · rw [leaveRound_separator separates] at round
      cases round
      exact .separator separates ih
    · rw [leaveRound_value starts] at round
      cases round
      rcases storeobject_starts starts with stuck | ⟨v, rest, ts, stored, evensOut⟩
      · rw [stuck] at ih
        exact ih
      · rw [stored] at ih
        exact .value starts evensOut ih

theorem Skippable.advances {s : Text} (skippable : Skippable s) {x y : Text} (skips : Skips s x)
    (round : leaveRound x = some y) : y.length < x.length := by
  induction skippable with
  | @stop s last =>
    rcases Relation.ReflTransGen.cases_head skips with rfl | ⟨z, step, _⟩
    · rw [last] at round
      cases round
    · rw [last] at step
      cases step
  | @separator s separates _ ih =>
    have step := leaveRound_separator separates
    rcases Relation.ReflTransGen.cases_head skips with rfl | ⟨z, first, more⟩
    · rw [step] at round
      cases round
      exact length_tail_separator separates
    · rw [step] at first
      cases first
      exact ih more
  | @value s rest ts starts evensOut _ ih =>
    obtain ⟨v, stored⟩ := storeobject_evensOut starts evensOut
    have step := leaveRound_value starts
    rw [stored] at step
    rcases Relation.ReflTransGen.cases_head skips with rfl | ⟨z, first, more⟩
    · rw [step] at round
      cases round
      exact evensOut.length_lt
    · rw [step] at first
      cases first
      exact ih more

theorem leaveRound_eq_none_iff {s : Text} :
    leaveRound s = none ↔ ¬(peek s = colon ∨ peek s = comma) ∧ ¬startsValue (peek s) := by
  rw [leaveRound]
  split
  · rename_i separates
    exact ⟨fun none => (by cases none), fun other => absurd separates other.1⟩
  rename_i other
  split
  · rename_i starts
    exact ⟨fun none => (by cases none), fun other => absurd starts other.2⟩
  · rename_i none
    exact ⟨fun _ => ⟨other, none⟩, fun _ => rfl⟩

theorem skipRemainder_stop {s : Text} (last : leaveRound s = none) (fuel : Nat) :
    skipRemainder (fuel + 1) s = .ok s := by
  obtain ⟨other, none⟩ := leaveRound_eq_none_iff.mp last
  rw [skipRemainder, if_neg other, if_neg none]

theorem skipRemainder_value {s : Text} (starts : Starts s) (fuel : Nat) :
    skipRemainder (fuel + 1) s =
      match storeobject s with
      | (none, _) => .error .endless
      | (some _, rest) => skipRemainder fuel rest := by
  have goes : startsValue (peek s) := starts
  exact (if_neg starts.not_separator).trans (if_pos goes)

theorem Skippable.runs {s : Text} (skippable : Skippable s) {fuel : Nat}
    (enough : s.length < fuel) :
    ∃ t, skipRemainder fuel s = .ok t ∧ Skips s t ∧ leaveRound t = none := by
  induction skippable generalizing fuel with
  | @stop s last =>
    obtain ⟨fuel, rfl⟩ : ∃ f, fuel = f + 1 := ⟨fuel - 1, by omega⟩
    exact ⟨s, skipRemainder_stop last fuel, .refl, last⟩
  | @separator s separates _ ih =>
    obtain ⟨fuel, rfl⟩ : ∃ f, fuel = f + 1 := ⟨fuel - 1, by omega⟩
    have shorter := length_tail_separator separates
    obtain ⟨t, skipped, skips, last⟩ := @ih fuel (by omega)
    refine ⟨t, ?_, .head (leaveRound_separator separates) skips, last⟩
    rw [skipRemainder, if_pos separates, skipped]
  | @value s rest ts starts evensOut _ ih =>
    obtain ⟨fuel, rfl⟩ : ∃ f, fuel = f + 1 := ⟨fuel - 1, by omega⟩
    obtain ⟨v, stored⟩ := storeobject_evensOut starts evensOut
    have shorter := evensOut.length_lt
    obtain ⟨t, skipped, skips, last⟩ := @ih fuel (by omega)
    refine ⟨t, ?_, .head ?_ skips, last⟩
    · rw [skipRemainder_value starts, stored]
      exact skipped
    · rw [leaveRound_value starts, stored]

/-- What the model of the loop returns is where its rounds end. -/
theorem skips_of_skipRemainder {fuel : Nat} {s t : Text} (skipped : skipRemainder fuel s = .ok t) :
    Skips s t ∧ leaveRound t = none := by
  induction fuel generalizing s with
  | zero => cases skipped
  | succ fuel ih =>
    rcases leaveRound_cases s with last | separates | starts
    · rw [skipRemainder_stop last] at skipped
      cases skipped
      exact ⟨.refl, last⟩
    · rw [skipRemainder, if_pos separates] at skipped
      obtain ⟨skips, last⟩ := ih skipped
      exact ⟨.head (leaveRound_separator separates) skips, last⟩
    · rw [skipRemainder_value starts] at skipped
      rcases storeobject_starts starts with stuck | ⟨v, rest, ts, stored, -⟩
      · rw [stuck] at skipped
        cases skipped
      · rw [stored] at skipped
        obtain ⟨skips, last⟩ := ih skipped
        refine ⟨.head ?_ skips, last⟩
        rw [leaveRound_value starts, stored]

theorem skipRemainder_fuel {s : Text} {fuel fuel' : Nat} (enough : s.length < fuel)
    (enough' : s.length < fuel') : skipRemainder fuel s = skipRemainder fuel' s := by
  induction fuel generalizing s fuel' with
  | zero => omega
  | succ fuel ih =>
    obtain ⟨fuel', rfl⟩ : ∃ f, fuel' = f + 1 := ⟨fuel' - 1, by omega⟩
    rcases leaveRound_cases s with last | separates | starts
    · rw [skipRemainder_stop last, skipRemainder_stop last]
    · have shorter := length_tail_separator separates
      rw [skipRemainder, if_pos separates, skipRemainder, if_pos separates]
      exact ih (by omega) (by omega)
    · rw [skipRemainder_value starts, skipRemainder_value starts]
      rcases storeobject_starts starts with stuck | ⟨v, rest, ts, stored, evensOut⟩
      · rw [stuck]
      · have shorter := evensOut.length_lt
        rw [stored]
        exact ih (by omega) (by omega)

/-- `leaveobject` comes back exactly if its loop does. -/
theorem leaveobject_returns_iff (s : Text) :
    (∃ moved after, leaveobject s = .ok (moved, after)) ↔
      ∃ t, Skips s t ∧ leaveRound t = none := by
  constructor
  · rintro ⟨moved, after, left⟩
    rw [leaveobject] at left
    cases skipped : skipRemainder (s.length + 1) s with
    | error fault =>
      rw [skipped] at left
      cases left
    | ok t => exact ⟨t, skips_of_skipRemainder skipped⟩
  · rintro ⟨t, skips, last⟩
    obtain ⟨t, skipped, -⟩ := (skippable_of_ends skips last).runs (Nat.lt_succ_self s.length)
    rw [leaveobject, skipped]
    dsimp only
    split
    · exact ⟨_, _, rfl⟩
    · exact ⟨_, _, rfl⟩

/-- `leaveobject` ends, with every round advancing, exactly on the texts in which each value it
comes to evens out. -/
theorem skipsRemainder_iff_skippable (s : Text) : SkipsRemainder s ↔ Skippable s := by
  constructor
  · intro skips
    obtain ⟨t, rounds, last⟩ := skips.ends
    exact skippable_of_ends rounds last
  · intro skippable
    obtain ⟨t, -, rounds, last⟩ := skippable.runs (Nat.lt_succ_self s.length)
    exact ⟨⟨t, rounds, last⟩, (leaveobject_returns_iff s).mpr ⟨t, rounds, last⟩,
      fun x y => skippable.advances⟩

/-- A literal in an array is tried forever. -/
theorem leaveobject_literal_endless :
    leaveobject (ascii "\"x\":[true]\x7d") = .error .endless ∧
      ¬SkipsRemainder (ascii "\"x\":[true]\x7d") := by
  have stuck : leaveobject (ascii "\"x\":[true]\x7d") = .error .endless := by decide +kernel
  refine ⟨stuck, fun skips => ?_⟩
  obtain ⟨moved, after, left⟩ := skips.returns
  rw [stuck] at left
  cases left

end MegaSdk.Json
