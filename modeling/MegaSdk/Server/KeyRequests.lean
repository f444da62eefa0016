import MegaSdk.Server.Framing

/-!
# Reading key requests

The arrays of handles with which the server asks for keys: `procsnk`, `procsuk`, `proccr`
and `procsr` take exactly the arrays that have the documented form.
-/

namespace MegaSdk.Server

open Json

structure IsHandle (size : Nat) (v : Bytes) : Prop where
  value : IsValue v
  string : peek v = quote
  defined : (handleOf size (Base64.atob (skip quote v) 9)).isSome

theorem IsHandle.gethandle {size : Nat} {v : Bytes} (handle : IsHandle size v) :
    ∃ h, ∀ rest, Stop rest → gethandle size (v ++ rest) = (some h, rest) := by
  obtain ⟨h, decoded⟩ := Option.isSome_iff_exists.mp handle.defined
  refine ⟨h, fun rest stop => ?_⟩
  rw [gethandle_value handle.value handle.string stop, decoded]

/-- The pairs of `procsnk`. -/
def SnkArray (v : Bytes) : Prop :=
  ∃ pairs : List (Bytes × Bytes), v = array (pairs.map fun pair => array [pair.1, pair.2]) ∧
    ∀ pair ∈ pairs, IsHandle 6 pair.1 ∧ IsHandle 6 pair.2

/-- The rows of `procsuk`: the second handle is read only after a proper first one. -/
def SukRow (row : List Bytes) : Prop :=
  (∀ x ∈ row, IsValue x ∧ peek x = quote) ∧
    (row.length ≤ 1 ∨ ∃ sh uh, row = [sh, uh] ∧ IsHandle 6 sh)

def SukArray (v : Bytes) : Prop :=
  ∃ rows : List (List Bytes), v = array (rows.map array) ∧ ∀ row ∈ rows, SukRow row

section Rows
variable {σ : Type}

variable (client : Client σ) (inv : σ → Prop)
  (requests : ∀ call t, call.Requests → inv t → inv (client.perform call t))
include requests

theorem procsnkPair_takes {pair : Bytes × Bytes} (first : IsHandle 6 pair.1)
    (second : IsHandle 6 pair.2) {t : σ} (holds : inv t) :
    ∃ t', inv t' ∧ ∀ rest, procsnkPair client t
      (separated [pair.1, pair.2] ++ closeArray :: rest) = .ok (.next, t', rest) := by
  obtain ⟨sh, reads⟩ := first.gethandle
  obtain ⟨nh, reads'⟩ := second.gethandle
  refine ⟨client.perform (.singlekeycr (some sh) (some nh)) t, requests _ t trivial holds,
    fun rest => ?_⟩
  have text : separated [pair.1, pair.2] ++ closeArray :: rest =
      pair.1 ++ comma :: (pair.2 ++ closeArray :: rest) := by simp [separated]
  rw [text, procsnkPair, reads _ stop_comma]
  simp only [gethandle_comma (second.value.starts _), reads' _ stop_closeArray,
    leavearray_closeArray]

theorem procsnk_array {v : Bytes} (shape : SnkArray v) {t : σ} (holds : inv t) :
    ∃ t', inv t' ∧ ∀ rest, procsnk client t (v ++ rest) = .ok (true, t', rest) := by
  obtain ⟨pairs, rfl, handles⟩ := shape
  have rows : (pairs.map fun pair => array [pair.1, pair.2]) =
      (pairs.map fun pair => [pair.1, pair.2]).map array := by simp
  have values : ∀ row ∈ pairs.map fun pair => [pair.1, pair.2], ∀ x ∈ row, IsValue x := by
    intro row mem x listed
    obtain ⟨pair, among, rfl⟩ := List.mem_map.mp mem
    obtain ⟨first, second⟩ := handles pair among
    simp only [List.mem_cons, List.not_mem_nil, or_false] at listed
    rcases listed with rfl | rfl
    · exact first.value
    · exact second.value
  have each : ∀ behind : Follow, behind.Admissible True →
      ∀ row ∈ pairs.map fun pair => [pair.1, pair.2], ∀ t, inv t →
        ∃ t', inv t' ∧ ∀ rest, behind rest →
          procsnkPair client t (separated row ++ closeArray :: rest) = .ok (.next, t', rest) := by
    intro behind _ row mem t holds
    obtain ⟨pair, among, rfl⟩ := List.mem_map.mp mem
    obtain ⟨first, second⟩ := handles pair among
    obtain ⟨t', holds', takes⟩ := procsnkPair_takes client inv requests first second holds
    exact ⟨t', holds', fun rest _ => takes rest⟩
  obtain ⟨t', holds', run⟩ := loop_rows True anything (procsnkPair client) inv
    isolated_anything values each holds
  refine ⟨t', holds', fun rest => ?_⟩
  rw [procsnk, rows, enterarray_array]
  simp only [run rest trivial, leavearray_closeArray]

omit requests in
theorem procsukPair_takes {row : List Bytes} (shape : SukRow row) (t : σ) (rest : Text) :
    procsukPair t (separated row ++ closeArray :: rest) = .ok (.next, t, rest) := by
  obtain ⟨strings, short | ⟨sh, uh, rfl, first⟩⟩ := shape
  · match row, short with
    | [], _ => rfl
    | [sh], _ =>
      obtain ⟨value, string⟩ := strings sh List.mem_cons_self
      have text : separated [sh] ++ closeArray :: rest = sh ++ closeArray :: rest := by
        simp [separated]
      rw [text, procsukPair, gethandle_value value string stop_closeArray]
      cases handleOf 6 (Base64.atob (skip quote sh) 9) with
      | none => rfl
      | some h => rfl
  · obtain ⟨value, string⟩ := strings uh (by simp)
    obtain ⟨h, reads⟩ := first.gethandle
    have text : separated [sh, uh] ++ closeArray :: rest =
        sh ++ comma :: (uh ++ closeArray :: rest) := by simp [separated]
    rw [text, procsukPair, reads _ stop_comma]
    simp only [gethandle_comma (value.starts _), gethandle_value value string stop_closeArray,
      leavearray_closeArray]

omit requests in
theorem procsuk_array {v : Bytes} (shape : SukArray v) {t : σ} (holds : inv t) :
    ∃ t', inv t' ∧ ∀ rest, procsuk t (v ++ rest) = .ok (true, t', rest) := by
  obtain ⟨rows, rfl, shapes⟩ := shape
  obtain ⟨t', holds', run⟩ := loop_rows True anything procsukPair inv
    isolated_anything (fun row mem x listed => ((shapes row mem).1 x listed).1)
    (fun behind _ row mem t holds =>
      ⟨t, holds, fun rest _ => procsukPair_takes (shapes row mem) t rest⟩) holds
  refine ⟨t', holds', fun rest => ?_⟩
  rw [procsuk, enterarray_array]
  simp only [run rest trivial, leavearray_closeArray]

end Rows

/-- An index into `count` elements. -/
structure IsIndex (count : Nat) (v : Bytes) : Prop where
  value : IsValue v
  numeric : Numeric v
  bound : unsigned (atoll (skip quote v)) < count

/-- The linkage part of a key request: tuples of two indices and an optional key. -/
inductive Linkage (shares nodes : Nat) : List Bytes → Prop
  | nil : Linkage shares nodes []
  | pair {si ni : Bytes} {others : List Bytes} (share : IsIndex shares si)
      (node : IsIndex nodes ni) (unkeyed : ∀ x ∈ others.head?, peek x ≠ quote)
      (more : Linkage shares nodes others) : Linkage shares nodes (si :: ni :: others)
  | keyed {si ni key : Bytes} {others : List Bytes} (share : IsIndex shares si)
      (node : IsIndex nodes ni) (value : IsValue key) (string : peek key = quote)
      (more : Linkage shares nodes others) : Linkage shares nodes (si :: ni :: key :: others)

def CrArray (v : Bytes) : Prop :=
  v = array [] ∨ ∃ shares nodes linkage : List Bytes,
    v = array [array shares, array nodes, array linkage] ∧ (∀ x ∈ shares, IsHandle 6 x) ∧
      (∀ x ∈ nodes, IsHandle 6 x) ∧ Linkage shares.length nodes.length linkage

theorem loop_handles {xs : List Bytes} (handles : ∀ x ∈ xs, IsHandle 6 x) :
    ∃ hs : List Handle, hs.length = xs.length ∧ ∀ rest,
      loop handleRound [] (separated xs ++ closeArray :: rest) =
        .ok (.ended, hs, closeArray :: rest) := by
  obtain ⟨hs, counted, run⟩ := @loop_elements _ True anything xs handleRound
    (fun left hs => hs.length + left.length = xs.length) [] isolated_anything
    (fun hs s starts => by
      rw [List.nil_append, handleRound, gethandle_comma starts, handleRound])
    (fun hs rest => rfl) (fun hs rest => rfl) (fun x mem => (handles x mem).value)
    (fun behind admissible x mem left hs counted => by
      obtain ⟨h, reads⟩ := (handles x mem).gethandle
      refine ⟨hs ++ [some h], ?_, fun rest follows => ?_⟩
      · rw [List.length_cons] at counted
        rw [List.length_append, List.length_singleton]
        omega
      · rw [handleRound, reads rest (admissible.stop rest follows), List.nil_append])
    [] (by simp)
  refine ⟨hs, by simpa using counted, fun rest => run rest trivial⟩

/-- The number that `getint` reads in front of another element, and after a comma. -/
theorem getint_element {v : Bytes} (value : IsValue v) (numeric : Numeric v) {rest : Text}
    (stop : Stop rest) : getint (v ++ rest) = (atoll (skip quote v), rest) ∧
      getint (comma :: (v ++ rest)) = (atoll (skip quote v), rest) := by
  have reads := getint_value value numeric stop
  exact ⟨reads, by rw [getint_comma (value.starts rest), reads]⟩

section Selector
variable {shares nodes : Nat}

theorem selectorRound_tuple {si ni : Bytes} (share : IsIndex shares si) (node : IsIndex nodes ni)
    (tuples : List (Nat × Nat × Option Bytes)) {s rest : Text} (stop : Stop rest)
    (text : s = si ++ comma :: (ni ++ rest) ∨ s = comma :: (si ++ comma :: (ni ++ rest))) :
    selectorRound shares nodes tuples s =
      if rest[1]? = some quote then
        .ok (.next, tuples ++ [(unsigned (atoll (skip quote si)), unsigned (atoll (skip quote ni)),
          some (storebinary 32 rest).1)], (storebinary 32 rest).2)
      else .ok (.next, tuples ++ [(unsigned (atoll (skip quote si)),
        unsigned (atoll (skip quote ni)), none)], rest) := by
  have reads : getint s = (atoll (skip quote si), comma :: (ni ++ rest)) := by
    obtain ⟨plain, separated⟩ :=
      @getint_element si share.value share.numeric (comma :: (ni ++ rest)) stop_comma
    rcases text with rfl | rfl
    · exact plain
    · exact separated
  have moved : (comma :: (ni ++ rest)).length ≠ s.length := by
    have nonempty := List.length_pos_iff.mpr share.value.ne_nil
    rcases text with rfl | rfl <;>
      simp only [List.length_append, List.length_cons] <;> omega
  simp only [selectorRound, reads, if_neg moved, (getint_element node.value node.numeric stop).2,
    if_neg (not_le.mpr share.bound), if_neg (not_le.mpr node.bound)]

theorem selectorRound_last (tuples : List (Nat × Nat × Option Bytes)) (rest : Text) :
    selectorRound shares nodes tuples (closeArray :: rest) =
      .ok (.ended, tuples, closeArray :: rest) := by
  have reads : getint (closeArray :: rest) = (-1, closeArray :: rest) := rfl
  simp [selectorRound, reads]

theorem Linkage.values {items : List Bytes} (linkage : Linkage shares nodes items) :
    ∀ x ∈ items, IsValue x := by
  induction linkage with
  | nil => exact fun x mem => absurd mem List.not_mem_nil
  | pair share node _ _ ih =>
    intro x mem
    rcases List.mem_cons.mp mem with rfl | mem
    · exact share.value
    rcases List.mem_cons.mp mem with rfl | mem
    · exact node.value
    · exact ih x mem
  | keyed share node value _ _ ih =>
    intro x mem
    rcases List.mem_cons.mp mem with rfl | mem
    · exact share.value
    rcases List.mem_cons.mp mem with rfl | mem
    · exact node.value
    rcases List.mem_cons.mp mem with rfl | mem
    · exact value
    · exact ih x mem

/-- The walk over the selector takes all tuples. -/
theorem loopFrom_linkage {items : List Bytes} (linkage : Linkage shares nodes items)
    (tuples : List (Nat × Nat × Option Bytes)) :
    ∃ tuples', ∀ rest, peek rest ≠ quote → ∀ fuel, items.length < fuel →
      loopFrom (selectorRound shares nodes) fuel tuples (commas items ++ closeArray :: rest) =
        .ok (.ended, tuples', closeArray :: rest) := by
  induction linkage generalizing tuples with
  | nil =>
    refine ⟨tuples, fun rest _ fuel enough => ?_⟩
    obtain ⟨fuel, rfl⟩ : ∃ f, fuel = f + 1 := ⟨fuel - 1, by omega⟩
    exact loopFrom_last fuel (selectorRound_last tuples rest) (by decide)
  | @pair si ni others share node unkeyed linkage ih =>
    obtain ⟨tuples', run⟩ := ih (tuples ++ [(unsigned (atoll (skip quote si)),
      unsigned (atoll (skip quote ni)), none)])
    refine ⟨tuples', fun rest other fuel enough => ?_⟩
    rw [List.length_cons, List.length_cons] at enough
    obtain ⟨fuel, rfl⟩ : ∃ f, fuel = f + 1 := ⟨fuel - 1, by omega⟩
    have text : commas (si :: ni :: others) ++ closeArray :: rest =
        comma :: (si ++ comma :: (ni ++ (commas others ++ closeArray :: rest))) := by simp
    have plain : (commas others ++ closeArray :: rest)[1]? ≠ some quote := by
      cases others with
      | nil =>
        cases rest with
        | nil => simp
        | cons c rest => simpa using other
      | cons x xs =>
        obtain ⟨c, tail, rfl⟩ := List.exists_cons_of_ne_nil (linkage.values x (by simp)).ne_nil
        have first : c ≠ quote := unkeyed _ rfl
        simpa using first
    have round := selectorRound_tuple share node tuples (stop_commas_closeArray others rest)
      (.inr text)
    rw [if_neg plain] at round
    rw [loopFrom_next fuel round]
    exact run rest other fuel (by omega)
  | @keyed si ni key others share node value string linkage ih =>
    obtain ⟨tuples', run⟩ := ih (tuples ++ [(unsigned (atoll (skip quote si)),
      unsigned (atoll (skip quote ni)), some (Base64.atob (skip quote key) 32))])
    refine ⟨tuples', fun rest other fuel enough => ?_⟩
    simp only [List.length_cons] at enough
    obtain ⟨fuel, rfl⟩ : ∃ f, fuel = f + 1 := ⟨fuel - 1, by omega⟩
    have text : commas (si :: ni :: key :: others) ++ closeArray :: rest =
        comma :: (si ++ comma :: (ni ++ (comma :: (key ++
          (commas others ++ closeArray :: rest))))) := by simp
    have quoted : (comma :: (key ++ (commas others ++ closeArray :: rest)))[1]? = some quote := by
      obtain ⟨c, tail, rfl⟩ := List.exists_cons_of_ne_nil value.ne_nil
      obtain rfl : c = quote := string
      rfl
    have round := selectorRound_tuple share node tuples stop_comma (.inr text)
    rw [if_pos quoted, storebinary_comma (value.starts _),
      storebinary_value value string (stop_commas_closeArray others rest)] at round
    rw [loopFrom_next fuel round]
    exact run rest other fuel (by omega)

theorem loop_linkage {items : List Bytes} (linkage : Linkage shares nodes items) :
    ∃ tuples, ∀ rest, peek rest ≠ quote →
      loop (selectorRound shares nodes) [] (separated items ++ closeArray :: rest) =
        .ok (.ended, tuples, closeArray :: rest) := by
  obtain ⟨tuples, run⟩ := loopFrom_linkage linkage []
  refine ⟨tuples, fun rest other => ?_⟩
  have enough : items.length < (separated items ++ closeArray :: rest).length + 1 := by
    have bound := length_le_separated fun x mem => (linkage.values x mem).ne_nil
    rw [List.length_append]
    omega
  rw [loop, ← run rest other _ enough]
  refine loopFrom_congr ?_ _
  have tuple : ∀ {si ni : Bytes} (others : List Bytes), IsIndex shares si → IsIndex nodes ni →
      selectorRound shares nodes [] (separated (si :: ni :: others) ++ closeArray :: rest) =
        selectorRound shares nodes [] (commas (si :: ni :: others) ++ closeArray :: rest) := by
    intro si ni others share node
    rw [selectorRound_tuple share node [] (stop_commas_closeArray others rest)
      (.inl (by simp [separated])), selectorRound_tuple share node []
      (stop_commas_closeArray others rest) (.inr (by simp))]
  cases linkage with
  | nil => rfl
  | pair share node _ _ => exact tuple _ share node
  | keyed share node _ _ _ => exact tuple _ share node

end Selector

/-- A key request: the object of shared keys, or the array. -/
def CrValue (v : Bytes) : Prop :=
  CrArray v ∨ ∃ ms, v = object ms ∧ Legible ms ∧
    ∀ m ∈ ms, (nameid m.1 = nameid (ascii "snk") → Enters (· = openArray) SnkArray m.2) ∧
      (nameid m.1 = nameid (ascii "suk") → Enters (· = openArray) SukArray m.2)

section Cr
variable {σ : Type} (client : Client σ) (inv : σ → Prop)
  (requests : ∀ call t, call.Requests → inv t → inv (client.perform call t))

include requests in
theorem proccrArray_array {v : Bytes} (shape : CrArray v) {t : σ} (holds : inv t) :
    ∃ t', inv t' ∧ ∀ rest, proccrArray client t (v ++ rest) = .ok (true, t', rest) := by
  rcases shape with rfl | ⟨shares, nodes, linkage, rfl, shareHandles, nodeHandles, tuples⟩
  · exact ⟨t, holds, fun rest => rfl⟩
  obtain ⟨hs, counted, readShares⟩ := loop_handles shareHandles
  obtain ⟨hs', counted', readNodes⟩ := loop_handles nodeHandles
  obtain ⟨selected, readLinkage⟩ := loop_linkage tuples
  have isNodes : IsValue (array nodes) := .arr fun x mem => (nodeHandles x mem).value
  have isLinkage : IsValue (array linkage) := .arr tuples.values
  refine ⟨client.perform (.crresponse hs hs' selected true) t, requests _ t trivial holds,
    fun rest => ?_⟩
  have text : separated [array shares, array nodes, array linkage] ++ closeArray :: rest =
      array shares ++ (comma :: (array nodes ++ (comma :: (array linkage ++
        closeArray :: rest)))) := by simp [separated]
  rw [proccrArray, enterarray_array, text]
  simp only [enterarray_array, readShares, leavearray_closeArray]
  rw [proccrNodes, enterarray_comma (isNodes.starts _)]
  simp only [enterarray_array, readNodes, leavearray_closeArray]
  rw [proccrLinkage, enterarray_comma (isLinkage.starts _), counted, counted']
  simp only [enterarray_array, readLinkage (closeArray :: rest) (by rw [peek_cons]; decide),
    leavearray_closeArray, decide_true]

/-- A function that starts with `enterarray` ignores what is no array. -/
theorem ignores_of_enterarray {f : Function σ} {b : Bool}
    (stays : ∀ t s, enterarray s = (false, s) → f t s = .ok (b, t, s)) :
    Ignores f (· = openArray) := by
  intro v value other
  refine ⟨b, fun t rest => stays t _ ?_⟩
  exact enterarray_other (value.starts rest) (by rwa [peek_append value.ne_nil])

theorem procsnk_ignores : Ignores (procsnk client) (· = openArray) :=
  ignores_of_enterarray fun t s closed => by rw [procsnk, closed]

theorem procsuk_ignores : Ignores (procsuk (σ := σ)) (· = openArray) :=
  ignores_of_enterarray fun t s closed => by rw [procsuk, closed]

include requests in
theorem procsnk_reads : Reads inv (procsnk client) SnkArray := by
  intro v shape t holds
  obtain ⟨t', holds', takes⟩ := procsnk_array client inv requests shape holds
  exact ⟨true, t', holds', takes⟩

theorem procsuk_reads : Reads inv procsuk SukArray := by
  intro v shape t holds
  obtain ⟨t', holds', takes⟩ := procsuk_array inv shape holds
  exact ⟨true, t', holds', takes⟩

include requests in
theorem proccr_reads : Reads inv (proccr client) CrValue := by
  intro v shape t holds
  rcases shape with shape | ⟨ms, rfl, legible, enters⟩
  · obtain ⟨t', holds', reads⟩ := proccrArray_array client inv requests shape holds
    refine ⟨true, t', holds', fun rest => ?_⟩
    have array : ∃ xs, v = array xs := by
      rcases shape with rfl | ⟨shares, nodes, linkage, rfl, -⟩
      · exact ⟨_, rfl⟩
      · exact ⟨_, rfl⟩
    obtain ⟨xs, rfl⟩ := array
    rw [proccr, enterobject_other (by rw [Json.array, List.cons_append]; rfl)
      (by rw [Json.array, List.cons_append, peek_cons]; decide)]
    exact reads rest
  · have fits : ∀ behind : Follow, behind.Admissible True → ∀ t, inv t → ∀ m ∈ ms, ∀ read,
        proccrCases client (nameid m.1) = some read → Fits False behind read inv t m.2 := by
      intro behind _ t holds m mem read case
      have value := (legible m mem).2
      rw [proccrCases] at case
      split at case
      · rename_i snk
        cases case
        exact calls_fits inv (procsnk_reads client inv requests) (procsnk_ignores client) value
          ((enters m mem).1 snk) holds
      · split at case
        · rename_i suk
          cases case
          exact calls_fits inv (procsuk_reads inv) procsuk_ignores value ((enters m mem).2 suk) holds
        · cases case
    obtain ⟨t', holds', takes⟩ := inobject_object inv legible fits holds
    refine ⟨true, t', holds', fun rest => ?_⟩
    rw [proccr, enterobject_object]
    exact takes rest

/-- `proccr` enters objects and arrays. -/
theorem proccr_ignores : Ignores (proccr client) fun c => c = openArray ∨ c = openObject := by
  intro v value other
  refine ⟨true, fun t rest => ?_⟩
  have starts := value.starts rest
  rw [not_or] at other
  rw [proccr, enterobject_other starts (by rw [peek_append value.ne_nil]; exact other.2)]
  simp only [proccrArray, enterarray_other starts (by rw [peek_append value.ne_nil]; exact other.1)]

end Cr

structure HandleText (size : Nat) (content : Bytes) : Prop where
  literal : isLiteral content
  plain : quote ∉ content
  width : content.length = if size = 6 then 8 else 11
  nonzero : isNull (handleOf size (Base64.atob content 9)) = false

/-- The {node,user+}+ tuples of `procsr`, as one list. -/
def flat (tuples : List (Bytes × List Bytes)) : List Bytes :=
  tuples.flatMap fun tuple => str tuple.1 :: tuple.2.map str

structure SrTuple (tuple : Bytes × List Bytes) : Prop where
  node : HandleText 6 tuple.1
  some : tuple.2 ≠ []
  users : ∀ user ∈ tuple.2, HandleText 8 user

def SrArray (v : Bytes) : Prop :=
  ∃ tuples : List (Bytes × List Bytes), v = array (flat tuples) ∧ ∀ tuple ∈ tuples, SrTuple tuple

section Handles
variable {size : Nat} {content : Bytes} (text : HandleText size content) (rest : Text)
include text

theorem HandleText.ishandle :
    ishandle size (str content ++ rest) = (true, str content ++ rest) := by
  have start := skip_of_ne ((IsValue.str text.literal).starts rest).ne_comma
  have shape : str content ++ rest = quote :: (content ++ quote :: rest) := by simp [str]
  have taken : (str content ++ rest).take (content.length + 1) = quote :: content := by
    rw [shape]
    simp
  have ended : (str content ++ rest)[content.length + 1]? = some quote := by
    rw [shape]
    simp
  have nonzero : (quote :: content).contains 0 = false := by
    simp only [List.contains_eq_mem, List.mem_cons, decide_eq_false_iff_not, not_or]
    exact ⟨by decide, literalFrom_nonzero text.literal⟩
  rw [Json.ishandle, start, ← text.width, taken, ended, nonzero, shape]
  rfl

theorem HandleText.gethandle (stop : Stop rest) : gethandle size (str content ++ rest) =
    (handleOf size (Base64.atob content 9), rest) := by
  have decoded : Base64.atob (skip quote (str content)) 9 = Base64.atob content 9 := by
    have body : skip quote (str content) = content ++ [quote] := skip_cons quote
    rw [body]
    exact Base64.atob_append (by decide) content 9
  rw [gethandle_value (.str text.literal) rfl stop, decoded]

end Handles

/-- A node handle in front of a user handle is no user handle. -/
theorem ishandle_node {node user : Bytes} (first : HandleText 6 node) (second : HandleText 8 user)
    (rest : Text) : ishandle 8 (str node ++ comma :: (str user ++ rest)) =
      (false, str node ++ comma :: (str user ++ rest)) := by
  have start := skip_of_ne
    ((IsValue.str first.literal).starts (comma :: (str user ++ rest))).ne_comma
  have width : node.length = 8 := first.width
  have width' : user.length = 11 := second.width
  obtain ⟨c, tail, rfl⟩ := List.exists_cons_of_ne_nil (l := user) (by
    rintro rfl
    cases width')
  have other : c ≠ quote := by
    rintro rfl
    exact second.plain List.mem_cons_self
  have shape : str node ++ comma :: (str (c :: tail) ++ rest) =
      (quote :: node ++ [quote, comma, quote]) ++ c :: (tail ++ quote :: rest) := by simp [str]
  have at12 : (str node ++ comma :: (str (c :: tail) ++ rest))[12]? = some c := by
    rw [shape, List.getElem?_append_right (by simp [width])]
    simp [width]
  rw [Json.ishandle, start]
  simp [at12, other]

theorem flat_cons (tuple : Bytes × List Bytes) (tuples : List (Bytes × List Bytes)) :
    flat (tuple :: tuples) = str tuple.1 :: (tuple.2.map str ++ flat tuples) := by
  simp [flat]

theorem commas_append (xs ys : List Bytes) : commas (xs ++ ys) = commas xs ++ commas ys := by
  simp [commas]

/-- Where the users of a node end. -/
theorem ishandle_next {tuples : List (Bytes × List Bytes)}
    (shapes : ∀ tuple ∈ tuples, SrTuple tuple)
    (rest : Text) : ishandle 8 (commas (flat tuples) ++ closeArray :: rest) =
      (false, separated (flat tuples) ++ closeArray :: rest) := by
  cases tuples with
  | nil => rfl
  | cons tuple tuples =>
    obtain ⟨node, some, users⟩ := shapes tuple List.mem_cons_self
    obtain ⟨user, others, same⟩ := List.exists_cons_of_ne_nil some
    rw [same] at users
    have shape : separated (flat (tuple :: tuples)) ++ closeArray :: rest =
        str tuple.1 ++ comma :: (str user ++ (commas (others.map str ++ flat tuples) ++
          closeArray :: rest)) := by
      rw [flat_cons, same, List.map_cons, List.cons_append, separated, commas_cons]
      simp
    have shape' : commas (flat (tuple :: tuples)) ++ closeArray :: rest =
        comma :: (separated (flat (tuple :: tuples)) ++ closeArray :: rest) := by
      rw [flat_cons, commas_cons, separated, List.cons_append]
    rw [shape', ishandle_comma (by rw [shape]; exact (IsValue.str node.literal).starts _), shape]
    exact ishandle_node node (users user List.mem_cons_self) _

section Sr
variable {σ : Type} (client : Client σ) (inv : σ → Prop)
  (requests : ∀ call t, call.Requests → inv t → inv (client.perform call t))
include requests

theorem loopFrom_procsrUser (known : Bool) (sh : Handle) {users : List Bytes}
    (texts : ∀ user ∈ users, HandleText 8 user) {tuples : List (Bytes × List Bytes)}
    (shapes : ∀ tuple ∈ tuples, SrTuple tuple) {t : σ} (holds : inv t) :
    ∃ t', inv t' ∧ ∀ rest fuel, users.length < fuel →
      loopFrom (procsrUser client known sh) fuel t
        (commas (users.map str) ++ (commas (flat tuples) ++ closeArray :: rest)) =
          .ok (.ended, t', separated (flat tuples) ++ closeArray :: rest) := by
  induction users generalizing t with
  | nil =>
    refine ⟨t, holds, fun rest fuel enough => ?_⟩
    obtain ⟨fuel, rfl⟩ : ∃ f, fuel = f + 1 := ⟨fuel - 1, by omega⟩
    refine loopFrom_last fuel ?_ (by decide)
    rw [List.map_nil, commas_nil, List.nil_append, procsrUser, ishandle_next shapes]
  | cons user users ih =>
    have text := texts user List.mem_cons_self
    have round : ∃ t₁, inv t₁ ∧ ∀ rest, Stop rest →
        procsrUser client known sh t (comma :: (str user ++ rest)) = .ok (.next, t₁, rest) := by
      by_cases queued : known && client.finduser t (handleOf 8 (Base64.atob user 9))
      · refine ⟨_, requests (.queuepubkeyreq sh (handleOf 8 (Base64.atob user 9))) t trivial holds,
          fun rest stop => ?_⟩
        rw [procsrUser, ishandle_comma ((IsValue.str text.literal).starts rest),
          text.ishandle rest]
        simp only [text.gethandle rest stop, text.nonzero, Bool.false_eq_true, if_false,
          if_pos queued]
      · refine ⟨t, holds, fun rest stop => ?_⟩
        rw [procsrUser, ishandle_comma ((IsValue.str text.literal).starts rest),
          text.ishandle rest]
        simp only [text.gethandle rest stop, text.nonzero, Bool.false_eq_true, if_false,
          if_neg queued]
    obtain ⟨t₁, holds₁, reads⟩ := round
    obtain ⟨t', holds', more⟩ := ih (fun u mem => texts u (List.mem_cons_of_mem user mem)) holds₁
    refine ⟨t', holds', fun rest fuel enough => ?_⟩
    rw [List.length_cons] at enough
    obtain ⟨fuel, rfl⟩ : ∃ f, fuel = f + 1 := ⟨fuel - 1, by omega⟩
    have stop : Stop (commas (users.map str) ++ (commas (flat tuples) ++ closeArray :: rest)) := by
      rw [← List.append_assoc, ← commas_append]
      exact stop_commas_closeArray _ rest
    rw [List.map_cons, commas_cons, List.cons_append, List.append_assoc,
      loopFrom_next fuel (reads _ stop)]
    exact more rest fuel (by omega)

theorem loopFrom_procsrNode {tuples : List (Bytes × List Bytes)}
    (shapes : ∀ tuple ∈ tuples, SrTuple tuple) {t : σ} (holds : inv t) :
    ∃ t', inv t' ∧ ∀ rest fuel, tuples.length < fuel →
      loopFrom (procsrNode client) fuel t (separated (flat tuples) ++ closeArray :: rest) =
        .ok (.ended, t', closeArray :: rest) := by
  induction tuples generalizing t with
  | nil =>
    refine ⟨t, holds, fun rest fuel enough => ?_⟩
    obtain ⟨fuel, rfl⟩ : ∃ f, fuel = f + 1 := ⟨fuel - 1, by omega⟩
    exact loopFrom_last fuel rfl (by decide)
  | cons tuple tuples ih =>
    obtain ⟨node, -, users⟩ := shapes tuple List.mem_cons_self
    have others : ∀ tuple ∈ tuples, SrTuple tuple :=
      fun tuple mem => shapes tuple (List.mem_cons_of_mem _ mem)
    obtain ⟨t₁, holds₁, reads⟩ := loopFrom_procsrUser client inv requests
      (client.nodebyhandle t (handleOf 6 (Base64.atob tuple.1 9)))
      (handleOf 6 (Base64.atob tuple.1 9)) users others holds
    obtain ⟨t', holds', more⟩ := ih others holds₁
    refine ⟨t', holds', fun rest fuel enough => ?_⟩
    rw [List.length_cons] at enough
    obtain ⟨fuel, rfl⟩ : ∃ f, fuel = f + 1 := ⟨fuel - 1, by omega⟩
    have shape : separated (flat (tuple :: tuples)) ++ closeArray :: rest = str tuple.1 ++
        (commas (tuple.2.map str) ++ (commas (flat tuples) ++ closeArray :: rest)) := by
      rw [flat_cons, separated, commas_append]
      simp
    have stop : Stop (commas (tuple.2.map str) ++ (commas (flat tuples) ++ closeArray :: rest)) := by
      rw [← List.append_assoc, ← commas_append]
      exact stop_commas_closeArray _ rest
    have bound : tuple.2.length < (commas (tuple.2.map str) ++
        (commas (flat tuples) ++ closeArray :: rest)).length + 1 := by
      have long := length_le_commas (tuple.2.map str)
      rw [List.length_map] at long
      rw [List.length_append]
      omega
    have round : procsrNode client t (separated (flat (tuple :: tuples)) ++ closeArray :: rest) =
        .ok (.next, t₁, separated (flat tuples) ++ closeArray :: rest) := by
      rw [shape, procsrNode, node.ishandle]
      simp only [node.gethandle _ stop, node.nonzero, Bool.false_eq_true, if_false, loop,
        reads rest _ bound]
    rw [loopFrom_next fuel round]
    exact more rest fuel (by omega)

theorem procsr_array {v : Bytes} (shape : SrArray v) {t : σ} (holds : inv t) :
    ∃ t', inv t' ∧ ∀ rest, procsr client t (v ++ rest) = .ok (true, t', rest) := by
  obtain ⟨tuples, rfl, shapes⟩ := shape
  obtain ⟨t', holds', run⟩ := loopFrom_procsrNode client inv requests shapes holds
  refine ⟨t', holds', fun rest => ?_⟩
  have bound : tuples.length < (separated (flat tuples) ++ closeArray :: rest).length + 1 := by
    have long := @length_le_separated (flat tuples) (by
      intro x mem
      obtain ⟨tuple, -, among⟩ := List.mem_flatMap.mp mem
      rcases List.mem_cons.mp among with rfl | among
      · exact List.cons_ne_nil _ _
      · obtain ⟨user, -, rfl⟩ := List.mem_map.mp among
        exact List.cons_ne_nil _ _)
    have count : tuples.length ≤ (flat tuples).length := by
      clear run shapes long holds'
      induction tuples with
      | nil => exact le_rfl
      | cons tuple tuples ih =>
        rw [flat_cons, List.length_cons, List.length_cons, List.length_append]
        omega
    rw [List.length_append]
    omega
  rw [procsr, enterarray_array]
  simp only [loop, run rest _ bound, leavearray_closeArray]

theorem procsr_reads : Reads inv (procsr client) SrArray := by
  intro v shape t holds
  obtain ⟨t', holds', takes⟩ := procsr_array client inv requests shape holds
  exact ⟨true, t', holds', takes⟩

omit requests in
theorem procsr_ignores : Ignores (procsr client) (· = openArray) :=
  ignores_of_enterarray fun t s closed => by rw [procsr, closed]

end Sr

end MegaSdk.Server
