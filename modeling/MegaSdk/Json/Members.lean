import MegaSdk.Json.Reading

/-!
# Loops over members and elements

The client reads an object with a loop around a switch over `getnameid`, and the elements
of an array with a loop that ends when the next element cannot be entered. Where the
cursor is afterwards depends on what each case of the switch does at its value: it takes
exactly the value, or it leaves the cursor in front of it.
-/

namespace MegaSdk.Json

/-- How a round ends: with the next one, with the end of the loop, with a `return` or with
a value that `storeobject` rejects. -/
inductive Flow where
  | next | ended | returned | rejected
  deriving DecidableEq, Repr

/-- A piece of code that works on a state and on the cursor. -/
abbrev Reader (τ : Type) := τ → Text → Except Fault (Flow × τ × Text)

section Loops
variable {τ : Type}

def loopFrom (round : Reader τ) : Nat → Reader τ
  | 0, _, _ => .error .endless
  | fuel + 1, t, s =>
    match round t s with
    | .error fault => .error fault
    | .ok (.next, t, s) => loopFrom round fuel t s
    | .ok (flow, t, s) => .ok (flow, t, s)

def loop (round : Reader τ) : Reader τ := fun t s => loopFrom round (s.length + 1) t s

/-- `switch (getnameid())` with the cases of some names; other members are skipped. -/
def memberRound (cases : UInt64 → Option (Reader τ)) : Reader τ := fun t s =>
  match getnameid s with
  | .error fault => .error fault
  | .ok (id, s) =>
    if id = 0 then .ok (.ended, t, s)
    else
      match cases id with
      | some read => read t s
      | none =>
        match storeobject s with
        | (none, s) => .ok (.rejected, t, s)
        | (some _, s) => .ok (.next, t, s)

def members (cases : UInt64 → Option (Reader τ)) : Reader τ := loop (memberRound cases)

theorem loopFrom_next {round : Reader τ} {t t' : τ} {s s' : Text} (fuel : Nat)
    (goes : round t s = .ok (.next, t', s')) :
    loopFrom round (fuel + 1) t s = loopFrom round fuel t' s' := by
  rw [loopFrom, goes]

theorem loopFrom_last {round : Reader τ} {t t' : τ} {s s' : Text} {flow : Flow} (fuel : Nat)
    (goes : round t s = .ok (flow, t', s')) (last : flow ≠ .next) :
    loopFrom round (fuel + 1) t s = .ok (flow, t', s') := by
  rw [loopFrom, goes]
  cases flow with
  | next => exact absurd rfl last
  | ended => rfl
  | returned => rfl
  | rejected => rfl

theorem loopFrom_congr {round : Reader τ} {t : τ} {s s' : Text} (same : round t s = round t s')
    (fuel : Nat) : loopFrom round fuel t s = loopFrom round fuel t s' := by
  cases fuel with
  | zero => rfl
  | succ fuel => rw [loopFrom, loopFrom, same]

end Loops

/-- A name that `getnameid` reads as it is. -/
def Plain (name : Bytes) : Prop := isLiteral name ∧ quote ∉ name

theorem plain_nil : Plain [] := ⟨rfl, List.not_mem_nil⟩

theorem literalFrom_nonzero {escaped : Bool} {content : Bytes}
    (literal : literalFrom escaped content) : (0 : UInt8) ∉ content := by
  induction content generalizing escaped with
  | nil => exact List.not_mem_nil
  | cons c content ih =>
    simp only [literalFrom, Bool.and_eq_true, decide_eq_true_eq] at literal
    intro mem
    rcases List.mem_cons.mp mem with rfl | mem
    · exact literal.1.1 rfl
    · exact ih literal.2 mem

theorem isLiteral_of_unquoted {name : Bytes} (nonzero : ∀ c ∈ name, c ≠ 0)
    (unquoted : quote ∉ name ∧ backslash ∉ name) : isLiteral name := by
  rw [isLiteral]
  induction name with
  | nil => rfl
  | cons c rest ih =>
    simp only [List.mem_cons, not_or] at unquoted
    obtain ⟨⟨other, quotes⟩, single, backslashes⟩ := unquoted
    have more := ih (fun d mem => nonzero d (List.mem_cons_of_mem c mem)) ⟨quotes, backslashes⟩
    have here := nonzero c List.mem_cons_self
    simpa [literalFrom, here, Ne.symm other, Ne.symm single] using more

theorem nameChars_plain {name : Bytes} (plain : Plain name) (rest : Text) :
    nameChars (name ++ quote :: rest) = name := by
  have each : ∀ c ∈ name, (c ≠ 0 && c ≠ quote) = true := by
    intro c mem
    have nonzero : c ≠ 0 := by
      rintro rfl
      exact literalFrom_nonzero plain.1 mem
    have other : c ≠ quote := by
      rintro rfl
      exact plain.2 mem
    simp [nonzero, other]
  rw [nameChars, List.takeWhile_append_of_pos each, List.takeWhile_cons]
  simp

/-- `getnameid` moves behind the name and the character after it. -/
theorem getnameid_from {s : Text} {name : Bytes} {c : UInt8} {rest : Text} (plain : Plain name)
    (start : skipSeparator s = str name ++ c :: rest) :
    getnameid s = .ok (nameid name, rest) := by
  have text : str name ++ c :: rest = quote :: (name ++ quote :: c :: rest) := by simp [str]
  rw [text] at start
  simp [getnameid, start, nameChars_plain plain]

theorem getnameid_name {name : Bytes} (plain : Plain name) (c : UInt8) (rest : Text) :
    getnameid (str name ++ c :: rest) = .ok (nameid name, rest) :=
  getnameid_from plain (skipSeparator_of_starts ((IsValue.str plain.1).starts _))

theorem getnameid_comma_name {name : Bytes} (plain : Plain name) (c : UInt8) (rest : Text) :
    getnameid (comma :: (str name ++ c :: rest)) = .ok (nameid name, rest) :=
  getnameid_from plain (skipSeparator_comma _)

/-- Where no name starts, `getnameid` reads `EOO` and stays. -/
theorem getnameid_other {s : Text} (other : peek (skipSeparator s) ≠ quote) :
    getnameid s = .ok (0, s) := by
  simp only [getnameid, if_neg other]

theorem pack_ne_zero (id : UInt64) {c : UInt8} (nonzero : c ≠ 0) : pack id c ≠ 0 := by
  intro zero
  have value := congrArg UInt64.toNat zero
  have positive : c.toNat ≠ 0 := fun none => nonzero (UInt8.toNat_inj.mp none)
  have bound := c.toNat_lt
  rw [pack, UInt64.toNat_add, UInt64.toNat_shiftLeft, Nat.shiftLeft_eq] at value
  split at value
  · rw [UInt8.toNat_toUInt64] at value
    simp at value
    omega
  · rw [UInt64.toNat_sub, UInt8.toNat_toUInt64] at value
    simp at value
    omega

/-- Only an empty name is taken for the end of the object. -/
theorem nameid_ne_zero {name : Bytes} (literal : isLiteral name) (nonempty : name ≠ []) :
    nameid name ≠ 0 := by
  have nonzero := literalFrom_nonzero literal
  rcases List.eq_nil_or_concat name with empty | ⟨front, c, rfl⟩
  · exact absurd empty nonempty
  · rw [nameid, List.concat_eq_append, List.foldl_append]
    refine pack_ne_zero _ ?_
    rintro rfl
    simp at nonzero

/-- What `leaveobject` skips up to the brace that closes the object. -/
inductive Remainder : Bytes → Prop
  | nil : Remainder []
  | separator {c : UInt8} {left : Bytes} (separates : c = comma ∨ c = colon)
      (more : Remainder left) : Remainder (c :: left)
  | value {v left : Bytes} (value : IsValue v)
      (follows : ∀ rest, Ends (left ++ closeObject :: rest)) (more : Remainder left) :
      Remainder (v ++ left)

theorem skipRemainder_of_remainder {left : Bytes} (remainder : Remainder left) (rest : Text)
    {fuel : Nat} (enough : left.length < fuel) :
    skipRemainder fuel (left ++ closeObject :: rest) = .ok (closeObject :: rest) := by
  induction remainder generalizing fuel with
  | nil =>
    obtain ⟨fuel, rfl⟩ : ∃ f, fuel = f + 1 := ⟨fuel - 1, by omega⟩
    rfl
  | @separator c left separates _ ih =>
    rw [List.length_cons] at enough
    obtain ⟨fuel, rfl⟩ : ∃ f, fuel = f + 1 := ⟨fuel - 1, by omega⟩
    rw [skipRemainder, List.cons_append, if_pos (by rw [peek_cons]; exact separates.symm)]
    exact ih (by omega)
  | @value v left value follows _ ih =>
    have nonempty := List.length_pos_iff.mpr value.ne_nil
    rw [List.length_append] at enough
    obtain ⟨fuel, rfl⟩ : ∃ f, fuel = f + 1 := ⟨fuel - 1, by omega⟩
    have starts := value.starts (left ++ closeObject :: rest)
    have goes : startsValue (peek (v ++ (left ++ closeObject :: rest))) := starts
    rw [List.append_assoc, skipRemainder, if_neg starts.not_separator, if_pos goes,
      storeobject_value value (follows rest)]
    exact ih (by omega)

/-- `leaveobject` ends right after the object. -/
theorem leaveobject_of_remainder {left : Bytes} (remainder : Remainder left) (rest : Text) :
    leaveobject (left ++ closeObject :: rest) = .ok (true, rest) := by
  have enough : left.length < (left ++ closeObject :: rest).length + 1 := by
    rw [List.length_append]
    omega
  rw [leaveobject, skipRemainder_of_remainder remainder rest enough]
  rfl

def WellFormed (ms : List Member) : Prop := ∀ m ∈ ms, isLiteral m.1 ∧ IsValue m.2

theorem WellFormed.tail {m : Member} {ms : List Member} (formed : WellFormed (m :: ms)) :
    WellFormed ms := fun m' mem => formed m' (List.mem_cons_of_mem m mem)

theorem ends_commas_closeObject (ms : List Bytes) (rest : Text) :
    Ends (commas ms ++ closeObject :: rest) := ends_commas rfl

theorem stop_commas_closeObject (ms : List Bytes) (rest : Text) :
    Stop (commas ms ++ closeObject :: rest) := by
  cases ms with
  | nil => exact stop_closeObject
  | cons m ms =>
    rw [commas_cons]
    exact stop_comma

theorem remainder_value {v : Bytes} (value : IsValue v) {ms : List Bytes}
    (more : Remainder (commas ms)) : Remainder (v ++ commas ms) :=
  .value value (ends_commas_closeObject ms) more

theorem remainder_member {m : Member} (name : isLiteral m.1) (value : IsValue m.2)
    {ms : List Bytes} (more : Remainder (commas ms)) : Remainder (member m ++ commas ms) := by
  rw [member, List.append_assoc]
  refine .value (.str name) (fun rest => rfl) ?_
  rw [List.cons_append]
  exact .separator (.inr rfl) (remainder_value value more)

theorem remainder_commas {ms : List Member} (formed : WellFormed ms) :
    Remainder (commas (ms.map member)) := by
  induction ms with
  | nil => exact .nil
  | cons m ms ih =>
    rw [List.map_cons, commas_cons]
    obtain ⟨name, value⟩ := formed m List.mem_cons_self
    exact .separator (.inl rfl) (remainder_member name value (ih formed.tail))

theorem remainder_separated {ms : List Member} (formed : WellFormed ms) :
    Remainder (separated (ms.map member)) := by
  cases ms with
  | nil => exact .nil
  | cons m ms =>
    rw [List.map_cons, separated]
    obtain ⟨name, value⟩ := formed m List.mem_cons_self
    exact remainder_member name value (remainder_commas formed.tail)

/-! What a reader does is stated for a set of texts that may follow its value. A single text
is enough for where the cursor is; that the effect depends on nothing behind the value
is said with all of them.
-/

abbrev Follow := Text → Prop

/-- What follows a member of an object that is followed by `follow`. -/
def Follow.inObject (follow : Follow) (ms : List Member) : Follow := fun tail =>
  ∃ rest, follow rest ∧ tail = commas (ms.map member) ++ closeObject :: rest

/-- What follows an element of an array that is followed by `follow`. -/
def Follow.inArray (follow : Follow) (xs : List Bytes) : Follow := fun tail =>
  ∃ rest, follow rest ∧ tail = commas xs ++ closeArray :: rest

def Follow.Single (follow : Follow) : Prop := ∀ r r', follow r → follow r' → r = r'

theorem Follow.Single.inObject {follow : Follow} (single : follow.Single) (ms : List Member) :
    (follow.inObject ms).Single := by
  rintro _ _ ⟨r, first, rfl⟩ ⟨r', second, rfl⟩
  rw [single r r' first second]

theorem Follow.Single.inArray {follow : Follow} (single : follow.Single) (xs : List Bytes) :
    (follow.inArray xs).Single := by
  rintro _ _ ⟨r, first, rfl⟩ ⟨r', second, rfl⟩
  rw [single r r' first second]

/-- Texts that may follow a value in a container, all of them or, if the effect need not
be local, a single one. -/
structure Follow.Admissible (isolated : Prop) (follow : Follow) : Prop where
  stop : ∀ rest, follow rest → Stop rest
  single : ¬isolated → follow.Single

/-- What holds with some result for each text holds with one result for the only text. -/
theorem Follow.Admissible.uniform {behind : Follow} (admissible : behind.Admissible False)
    {α : Type} (x : α) {P : α → Text → Prop} (each : ∀ rest, behind rest → ∃ x, P x rest) :
    ∃ x, ∀ rest, behind rest → P x rest := by
  by_cases possible : ∃ rest, behind rest
  · obtain ⟨rest, follows⟩ := possible
    obtain ⟨y, holds⟩ := each rest follows
    refine ⟨y, fun rest' follows' => ?_⟩
    rwa [admissible.single id rest' rest follows' follows]
  · exact ⟨x, fun rest follows => absurd ⟨rest, follows⟩ possible⟩

theorem Follow.single_eq (rest : Text) : ¬False → Follow.Single (· = rest) := by
  rintro - _ _ rfl rfl
  rfl

theorem Follow.admissible_inObject {isolated : Prop} {follow : Follow}
    (single : ¬isolated → follow.Single) (ms : List Member) :
    (follow.inObject ms).Admissible isolated where
  stop := by
    rintro _ ⟨rest, -, rfl⟩
    exact stop_commas_closeObject _ rest
  single shared := (single shared).inObject ms

section Runs
variable {τ : Type}

/-- With each of the texts that may follow, the reader takes exactly the value, and its
effect is the same. -/
def Takes (follow : Follow) (read : Reader τ) (t : τ) (v : Bytes) (flow : Flow) (t' : τ) : Prop :=
  ∀ rest, follow rest → read t (v ++ rest) = .ok (flow, t', rest)

/-- The reader leaves the cursor in front of the value. -/
def Leaves (follow : Follow) (read : Reader τ) (t : τ) (v : Bytes) (flow : Flow) (t' : τ) :
    Prop :=
  ∀ rest, follow rest → read t (v ++ rest) = .ok (flow, t', v ++ rest)

/-- A member whose name `getnameid` can read. -/
def Member.Legible (m : Member) : Prop := Plain m.1 ∧ IsValue m.2

/-- A run of the loop over the members of an object: how it ends, in which state, and what
it leaves of the object. Only the members that it reaches must be legible. -/
inductive Run (follow : Follow) (cases : UInt64 → Option (Reader τ)) :
    τ → List Member → Flow → τ → Bytes → Prop
  | nil {t : τ} : Run follow cases t [] .ended t []
  | unnamed {t : τ} {v : Bytes} {ms : List Member} :
      Run follow cases t (([], v) :: ms) .ended t (v ++ commas (ms.map member))
  | skipped {t t' : τ} {m : Member} {ms : List Member} {flow : Flow} {left : Bytes}
      (legible : m.Legible) (named : m.1 ≠ []) (other : cases (nameid m.1) = none)
      (more : Run follow cases t ms flow t' left) :
      Run follow cases t (m :: ms) flow t' left
  | read {t t₁ t' : τ} {m : Member} {ms : List Member} {flow : Flow} {left : Bytes}
      {read : Reader τ} (legible : m.Legible) (named : m.1 ≠ [])
      (case : cases (nameid m.1) = some read)
      (takes : Takes (follow.inObject ms) read t m.2 .next t₁)
      (more : Run follow cases t₁ ms flow t' left) :
      Run follow cases t (m :: ms) flow t' left
  | returned {t t' : τ} {m : Member} {ms : List Member} {read : Reader τ}
      (legible : m.Legible) (named : m.1 ≠ []) (case : cases (nameid m.1) = some read)
      (takes : Takes (follow.inObject ms) read t m.2 .returned t') :
      Run follow cases t (m :: ms) .returned t' (commas (ms.map member))
  | refused {t t' : τ} {m : Member} {ms : List Member} {read : Reader τ}
      (legible : m.Legible) (named : m.1 ≠ []) (case : cases (nameid m.1) = some read)
      (leaves : Leaves (follow.inObject ms) read t m.2 .next t')
      (other : peek m.2 ≠ quote) :
      Run follow cases t (m :: ms) .ended t' (m.2 ++ commas (ms.map member))
  | left {t t' : τ} {m : Member} {ms : List Member} {read : Reader τ}
      (legible : m.Legible) (named : m.1 ≠ []) (case : cases (nameid m.1) = some read)
      (leaves : Leaves (follow.inObject ms) read t m.2 .returned t') :
      Run follow cases t (m :: ms) .returned t' (m.2 ++ commas (ms.map member))

/-- Members whose names `getnameid` can read. -/
def Legible (ms : List Member) : Prop := ∀ m ∈ ms, m.Legible

theorem Legible.tail {m : Member} {ms : List Member} (legible : Legible (m :: ms)) :
    Legible ms := fun m' mem => legible m' (List.mem_cons_of_mem m mem)

theorem Legible.wellFormed {ms : List Member} (legible : Legible ms) : WellFormed ms :=
  fun m mem => ⟨(legible m mem).1.1, (legible m mem).2⟩

theorem getnameid_commas {m : Member} (plain : Plain m.1) (ms : List Member) (rest : Text) :
    getnameid (commas ((m :: ms).map member) ++ rest) =
      .ok (nameid m.1, m.2 ++ (commas (ms.map member) ++ rest)) := by
  rw [List.map_cons, commas_cons, List.cons_append, List.append_assoc, member, List.append_assoc,
    List.cons_append]
  exact getnameid_comma_name plain colon _

/-- The first member has no comma in front of it. -/
theorem getnameid_separated {m : Member} (plain : Plain m.1) (ms : List Member) (rest : Text) :
    getnameid (separated ((m :: ms).map member) ++ rest) =
      .ok (nameid m.1, m.2 ++ (commas (ms.map member) ++ rest)) := by
  rw [List.map_cons, separated, List.append_assoc, member, List.append_assoc, List.cons_append]
  exact getnameid_name plain colon _

section Rounds
variable {cases : UInt64 → Option (Reader τ)} {t : τ} {s : Text}

theorem memberRound_eoo (other : peek (skipSeparator s) ≠ quote) :
    memberRound cases t s = .ok (.ended, t, s) := by
  simp only [memberRound, getnameid_other other, if_true]

theorem memberRound_end (rest : Text) :
    memberRound cases t (closeObject :: rest) = .ok (.ended, t, closeObject :: rest) :=
  memberRound_eoo (by rw [skipSeparator, if_neg (by rw [peek_cons]; decide), peek_cons]; decide)

theorem memberRound_case {id : UInt64} {tail : Text} {read : Reader τ}
    (name : getnameid s = .ok (id, tail)) (named : id ≠ 0) (case : cases id = some read) :
    memberRound cases t s = read t tail := by
  simp only [memberRound, name, if_neg named, case]

theorem memberRound_skip {id : UInt64} {v : Bytes} {rest : Text}
    (name : getnameid s = .ok (id, v ++ rest)) (named : id ≠ 0) (other : cases id = none)
    (value : IsValue v) (ends : Ends rest) :
    memberRound cases t s = .ok (.next, t, rest) := by
  simp only [memberRound, name, if_neg named, other, storeobject_value value ends]

end Rounds

section
variable {follow : Follow} {cases : UInt64 → Option (Reader τ)} {t t' : τ} {ms : List Member}
  {flow : Flow} {left : Bytes}

/-- A run of the loop, from the comma in front of the next member on. -/
theorem loopFrom_run (run : Run follow cases t ms flow t' left) {rest : Text}
    (follows : follow rest) {fuel : Nat} (enough : ms.length < fuel) :
    loopFrom (memberRound cases) fuel t (commas (ms.map member) ++ closeObject :: rest) =
      .ok (flow, t', left ++ closeObject :: rest) := by
  induction run generalizing fuel with
  | nil =>
    obtain ⟨fuel, rfl⟩ : ∃ f, fuel = f + 1 := ⟨fuel - 1, by omega⟩
    exact loopFrom_last fuel (memberRound_end rest) (by decide)
  | @unnamed t v ms =>
    obtain ⟨fuel, rfl⟩ : ∃ f, fuel = f + 1 := ⟨fuel - 1, by omega⟩
    have name := @getnameid_commas ([], v) plain_nil ms (closeObject :: rest)
    refine loopFrom_last fuel ?_ (by decide)
    rw [memberRound, name, List.append_assoc]
    rfl
  | @skipped t t' m ms flow left legible named other _ ih =>
    rw [List.length_cons] at enough
    obtain ⟨fuel, rfl⟩ : ∃ f, fuel = f + 1 := ⟨fuel - 1, by omega⟩
    have name := getnameid_commas legible.1 ms (closeObject :: rest)
    rw [loopFrom_next fuel (memberRound_skip name (nameid_ne_zero legible.1.1 named) other
      legible.2 (ends_commas_closeObject _ rest))]
    exact ih (by omega)
  | @read t t₁ t' m ms flow left read legible named case takes _ ih =>
    rw [List.length_cons] at enough
    obtain ⟨fuel, rfl⟩ : ∃ f, fuel = f + 1 := ⟨fuel - 1, by omega⟩
    have round := memberRound_case (t := t) (getnameid_commas legible.1 ms (closeObject :: rest))
      (nameid_ne_zero legible.1.1 named) case
    rw [takes _ ⟨rest, follows, rfl⟩] at round
    rw [loopFrom_next fuel round]
    exact ih (by omega)
  | @returned t t' m ms read legible named case takes =>
    obtain ⟨fuel, rfl⟩ : ∃ f, fuel = f + 1 := ⟨fuel - 1, by omega⟩
    have round := memberRound_case (t := t) (getnameid_commas legible.1 ms (closeObject :: rest))
      (nameid_ne_zero legible.1.1 named) case
    rw [takes _ ⟨rest, follows, rfl⟩] at round
    exact loopFrom_last fuel round (by decide)
  | @refused t t' m ms read legible named case leaves other =>
    rw [List.length_cons] at enough
    obtain ⟨fuel, rfl⟩ : ∃ f, fuel = f + 2 := ⟨fuel - 2, by omega⟩
    have round := memberRound_case (t := t) (getnameid_commas legible.1 ms (closeObject :: rest))
      (nameid_ne_zero legible.1.1 named) case
    rw [leaves _ ⟨rest, follows, rfl⟩] at round
    rw [loopFrom_next (fuel + 1) round, List.append_assoc]
    refine loopFrom_last fuel (memberRound_eoo ?_) (by decide)
    rw [skipSeparator_of_starts (legible.2.starts _), peek_append legible.2.ne_nil]
    exact other
  | @left t t' m ms read legible named case leaves =>
    obtain ⟨fuel, rfl⟩ : ∃ f, fuel = f + 1 := ⟨fuel - 1, by omega⟩
    have round := memberRound_case (t := t) (getnameid_commas legible.1 ms (closeObject :: rest))
      (nameid_ne_zero legible.1.1 named) case
    rw [leaves _ ⟨rest, follows, rfl⟩] at round
    rw [List.append_assoc]
    exact loopFrom_last fuel round (by decide)

/-- Each member takes at least one character, so the text bounds the number of rounds. -/
theorem length_le_commas (ms : List Bytes) : ms.length ≤ (commas ms).length := by
  induction ms with
  | nil => exact le_rfl
  | cons m ms ih =>
    rw [commas_cons, List.length_cons, List.length_cons, List.length_append]
    omega

theorem length_le_separated {ms : List Bytes} (nonempty : ∀ m ∈ ms, m ≠ []) :
    ms.length ≤ (separated ms).length := by
  cases ms with
  | nil => exact le_rfl
  | cons m ms =>
    have first := List.length_pos_iff.mpr (nonempty m List.mem_cons_self)
    have others := length_le_commas ms
    rw [separated, List.length_cons, List.length_append]
    omega

/-- An object that was just entered is read as if a comma stood before its first member, with
enough rounds for all members. -/
theorem members_eq_loopFrom (first : ∀ m ∈ ms.head?, Plain m.1) (rest : Text) :
    ∃ fuel, ms.length < fuel ∧
      members cases t (separated (ms.map member) ++ closeObject :: rest) =
        loopFrom (memberRound cases) fuel t (commas (ms.map member) ++ closeObject :: rest) := by
  refine ⟨(separated (ms.map member) ++ closeObject :: rest).length + 1, ?_, ?_⟩
  · have bound := @length_le_separated (ms.map member) (by
      intro x mem
      obtain ⟨m, -, rfl⟩ := List.mem_map.mp mem
      exact List.cons_ne_nil _ _)
    rw [List.length_map] at bound
    rw [List.length_append]
    omega
  · refine loopFrom_congr ?_ _
    cases ms with
    | nil => rfl
    | cons m ms =>
      have plain := first m rfl
      rw [memberRound, getnameid_separated plain, memberRound, getnameid_commas plain]

theorem Run.plain_head (run : Run follow cases t ms flow t' left) :
    ∀ m ∈ ms.head?, Plain m.1 := by
  intro m first
  cases run with
  | nil => cases first
  | unnamed =>
    cases first
    exact plain_nil
  | skipped legible | read legible | returned legible | refused legible | left legible =>
    cases first
    exact legible.1

/-- The loop over the members of an object that was just entered. -/
theorem members_run (run : Run follow cases t ms flow t' left) {rest : Text}
    (follows : follow rest) :
    members cases t (separated (ms.map member) ++ closeObject :: rest) =
      .ok (flow, t', left ++ closeObject :: rest) := by
  obtain ⟨fuel, enough, loops⟩ := @members_eq_loopFrom τ cases t ms run.plain_head rest
  rw [loops, loopFrom_run run follows enough]

theorem Run.remainder (run : Run follow cases t ms flow t' left) (formed : WellFormed ms) :
    Remainder left := by
  induction run with
  | nil => exact .nil
  | unnamed =>
    exact remainder_value (formed _ List.mem_cons_self).2 (remainder_commas formed.tail)
  | skipped _ _ _ _ ih => exact ih formed.tail
  | read _ _ _ _ _ ih => exact ih formed.tail
  | returned => exact remainder_commas formed.tail
  | refused =>
    exact remainder_value (formed _ List.mem_cons_self).2 (remainder_commas formed.tail)
  | left =>
    exact remainder_value (formed _ List.mem_cons_self).2 (remainder_commas formed.tail)

end

/-- At this value the reader does not lead the loop out of the object: it takes the value,
or it leaves a value that is no name, or it returns, where that is allowed. -/
def Fits (returns : Prop) (follow : Follow) (read : Reader τ) (inv : τ → Prop) (t : τ)
    (v : Bytes) : Prop :=
  ∃ t', inv t' ∧ (Takes follow read t v .next t' ∨
    (peek v ≠ quote ∧ Leaves follow read t v .next t') ∨
    (returns ∧ (Takes follow read t v .returned t' ∨ Leaves follow read t v .returned t')))

section Existence
variable {isolated returns : Prop} {follow : Follow} {cases : UInt64 → Option (Reader τ)}
  {ms : List Member}
variable (inv : τ → Prop)

theorem run_of_fits (legible : Legible ms) (single : ¬isolated → follow.Single)
    (fits : ∀ behind : Follow, behind.Admissible isolated → ∀ t, inv t → ∀ m ∈ ms, ∀ read,
      cases (nameid m.1) = some read → Fits returns behind read inv t m.2)
    {t : τ} (holds : inv t) : ∃ flow t' left, inv t' ∧ (¬returns → flow = .ended) ∧
      Run follow cases t ms flow t' left := by
  induction ms generalizing t with
  | nil => exact ⟨.ended, t, [], holds, fun _ => rfl, .nil⟩
  | cons m ms ih =>
    have more : ∀ {t₁}, inv t₁ → ∃ flow t' left, inv t' ∧ (¬returns → flow = .ended) ∧
        Run follow cases t₁ ms flow t' left :=
      fun holds => ih legible.tail (fun behind admissible t inv m mem =>
        fits behind admissible t inv m (List.mem_cons_of_mem _ mem)) holds
    have here := legible m List.mem_cons_self
    by_cases named : m.1 = []
    · obtain ⟨name, v⟩ := m
      obtain rfl : name = [] := named
      exact ⟨.ended, t, _, holds, fun _ => rfl, .unnamed⟩
    · cases case : cases (nameid m.1) with
      | none =>
        obtain ⟨flow, t', left, holds', ended, run⟩ := more holds
        exact ⟨flow, t', left, holds', ended, .skipped here named case run⟩
      | some read =>
        obtain ⟨t₁, holds₁, outcome⟩ := fits _ (Follow.admissible_inObject single ms) t holds m
          List.mem_cons_self read case
        rcases outcome with takes | ⟨other, leaves⟩ | ⟨allowed, takes | leaves⟩
        · obtain ⟨flow, t', left, holds', ended, run⟩ := more holds₁
          exact ⟨flow, t', left, holds', ended, .read here named case takes run⟩
        · exact ⟨.ended, t₁, _, holds₁, fun _ => rfl, .refused here named case leaves other⟩
        · exact ⟨.returned, t₁, _, holds₁, fun no => absurd allowed no,
            .returned here named case takes⟩
        · exact ⟨.returned, t₁, _, holds₁, fun no => absurd allowed no,
            .left here named case leaves⟩

/-- A run in which every reader takes its value ends at the brace. -/
theorem run_of_takes (legible : Legible ms) (single : ¬isolated → follow.Single)
    (named : ∀ m ∈ ms, m.1 ≠ [])
    (takes : ∀ behind : Follow, behind.Admissible isolated → ∀ t, inv t → ∀ m ∈ ms, ∀ read,
      cases (nameid m.1) = some read → ∃ t', inv t' ∧ Takes behind read t m.2 .next t')
    {t : τ} (holds : inv t) : ∃ t', inv t' ∧ Run follow cases t ms .ended t' [] := by
  induction ms generalizing t with
  | nil => exact ⟨t, holds, .nil⟩
  | cons m ms ih =>
    have more : ∀ {t₁}, inv t₁ → ∃ t', inv t' ∧ Run follow cases t₁ ms .ended t' [] :=
      fun holds => ih legible.tail (fun m mem => named m (List.mem_cons_of_mem _ mem))
        (fun behind admissible t inv m mem =>
          takes behind admissible t inv m (List.mem_cons_of_mem _ mem)) holds
    have here := legible m List.mem_cons_self
    have name := named m List.mem_cons_self
    cases case : cases (nameid m.1) with
    | none =>
      obtain ⟨t', holds', run⟩ := more holds
      exact ⟨t', holds', .skipped here name case run⟩
    | some read =>
      obtain ⟨t₁, holds₁, taken⟩ := takes _ (Follow.admissible_inObject single ms) t holds m
        List.mem_cons_self read case
      obtain ⟨t', holds', run⟩ := more holds₁
      exact ⟨t', holds', .read here name case taken run⟩

end Existence

end Runs

section Elements
variable {τ : Type}

theorem stop_commas_closeArray (xs : List Bytes) (rest : Text) :
    Stop (commas xs ++ closeArray :: rest) := by
  cases xs with
  | nil => exact stop_closeArray
  | cons x xs =>
    rw [commas_cons]
    exact stop_comma

theorem Follow.admissible_inArray {isolated : Prop} {follow : Follow}
    (single : ¬isolated → follow.Single) (xs : List Bytes) :
    (follow.inArray xs).Admissible isolated where
  stop := by
    rintro _ ⟨rest, -, rfl⟩
    exact stop_commas_closeArray xs rest
  single shared := (single shared).inArray xs

variable {isolated : Prop} {follow : Follow} {xs : List Bytes}
variable (round : Reader τ) (inv : List Bytes → τ → Prop) (after : Bytes)

/-- A loop whose rounds take one element each, up to some text `after` that the next round
skips with the comma. The invariant depends on the elements that are left. -/
theorem loopFrom_elements (single : ¬isolated → follow.Single)
    (skips : ∀ t s, Starts s → round t (after ++ comma :: s) = round t s)
    (last : ∀ t rest, round t (after ++ closeArray :: rest) =
      .ok (.ended, t, closeArray :: rest))
    (values : ∀ x ∈ xs, IsValue x)
    (each : ∀ behind : Follow, behind.Admissible isolated → ∀ x ∈ xs, ∀ left t, inv (x :: left) t →
      ∃ t', inv left t' ∧ ∀ rest, behind rest →
        round t (x ++ rest) = .ok (.next, t', after ++ rest))
    {t : τ} (holds : inv xs t) :
    ∃ t', inv [] t' ∧ ∀ rest, follow rest → ∀ fuel, xs.length < fuel →
      loopFrom round fuel t (after ++ (commas xs ++ closeArray :: rest)) =
        .ok (.ended, t', closeArray :: rest) := by
  induction xs generalizing t with
  | nil =>
    refine ⟨t, holds, fun rest _ fuel enough => ?_⟩
    obtain ⟨fuel, rfl⟩ : ∃ f, fuel = f + 1 := ⟨fuel - 1, by omega⟩
    exact loopFrom_last fuel (last t rest) (by decide)
  | cons x xs ih =>
    obtain ⟨t₁, holds₁, step⟩ := each _ (Follow.admissible_inArray single xs) x
      List.mem_cons_self xs t holds
    obtain ⟨t', holds', more⟩ := ih (fun y mem => values y (List.mem_cons_of_mem x mem))
      (fun behind admissible y mem => each behind admissible y (List.mem_cons_of_mem x mem)) holds₁
    refine ⟨t', holds', fun rest follows fuel enough => ?_⟩
    rw [List.length_cons] at enough
    obtain ⟨fuel, rfl⟩ : ∃ f, fuel = f + 1 := ⟨fuel - 1, by omega⟩
    have round := step _ ⟨rest, follows, rfl⟩
    rw [← skips t _ ((values x List.mem_cons_self).starts _)] at round
    rw [commas_cons, List.cons_append, List.append_assoc, loopFrom_next fuel round]
    exact more rest follows fuel (by omega)

/-- The loop after an array was entered. -/
theorem loop_elements (single : ¬isolated → follow.Single)
    (skips : ∀ t s, Starts s → round t (after ++ comma :: s) = round t s)
    (last : ∀ t rest, round t (after ++ closeArray :: rest) =
      .ok (.ended, t, closeArray :: rest))
    (empty : ∀ t rest, round t (closeArray :: rest) = .ok (.ended, t, closeArray :: rest))
    (values : ∀ x ∈ xs, IsValue x)
    (each : ∀ behind : Follow, behind.Admissible isolated → ∀ x ∈ xs, ∀ left t, inv (x :: left) t →
      ∃ t', inv left t' ∧ ∀ rest, behind rest →
        round t (x ++ rest) = .ok (.next, t', after ++ rest))
    {t : τ} (holds : inv xs t) :
    ∃ t', inv [] t' ∧ ∀ rest, follow rest →
      loop round t (separated xs ++ closeArray :: rest) =
        .ok (.ended, t', closeArray :: rest) := by
  obtain ⟨t', holds', run⟩ :=
    loopFrom_elements round inv after single skips last values each holds
  refine ⟨t', holds', fun rest follows => ?_⟩
  have enough : xs.length < (separated xs ++ closeArray :: rest).length + 1 := by
    have bound := length_le_separated fun x mem => (values x mem).ne_nil
    rw [List.length_append]
    omega
  rw [loop, ← run rest follows _ enough]
  refine loopFrom_congr ?_ _
  cases xs with
  | nil => rw [separated, List.nil_append, empty, commas_nil, List.nil_append, last]
  | cons x xs =>
    have starts := (values x List.mem_cons_self).starts (commas xs ++ closeArray :: rest)
    rw [separated, List.append_assoc, commas_cons, List.cons_append, List.append_assoc,
      skips t _ starts]

end Elements

end MegaSdk.Json
