import MegaSdk.Json.Decimals
import MegaSdk.Lib.ByteOrder
import MegaSdk.Xfer.ChunkCrypt

/-!
# The file attribute string of a node

node.cpp: `hasfileattribute`; megaclient.cpp: the part of `getfa` that reads the string. It lists
the attributes of a node as `cluster:type*handle`, with slashes between them, and is searched from
the colon in front of the type, in both directions.
-/

namespace MegaSdk.Xfer

open ByteOrder Json

def star : UInt8 := 42
def slash : UInt8 := 47

/-- `std::string::find`. -/
def position (pattern : Bytes) : Bytes → Option Nat
  | [] => if pattern = [] then some 0 else none
  | c :: text =>
    if pattern.isPrefixOf (c :: text) then some 0 else (position pattern text).map (· + 1)

/-- `":%u*"`. -/
def typeMark (t : UInt16) : Bytes := colon :: (decimal t.toNat ++ [star])

/-- `hasfileattribute`: the position behind the colon, or 0. -/
def hasfileattribute (fileattrstring : Bytes) (t : UInt16) : Nat :=
  match position (typeMark t) fileattrstring with
  | none => 0
  | some i => i + 1

/-- The cluster and the handle that `getfa` reads for a type, or none for `API_ENOENT`. -/
def locatefa (fileattrstring : Bytes) (t : UInt16) : Option (Int × UInt64) :=
  let p := hasfileattribute fileattrstring t
  let digits := (fileattrstring.take (p - 1)).reverse.takeWhile isDigit
  let pp := p - 1 - digits.length
  let fah := Base64.atob ((fileattrstring.drop p).dropWhile (· ≠ star)).tail 8
  if p = 0 ∨ p = pp ∨ fah.length ≠ 8 then none
  else some (atoi (fileattrstring.drop pp), UInt64.ofNat (ofLe fah))

/-- An attribute: the cluster that stores it, its type and its handle. -/
structure ListedAttribute where
  fac : Nat
  type : UInt16
  fah : UInt64
  inRange : fac < 2 ^ 31

namespace ListedAttribute

def behindColon (a : ListedAttribute) : Bytes :=
  decimal a.type.toNat ++ star :: Base64.btoa (leBytes 8 a.fah.toNat)

def text (a : ListedAttribute) : Bytes := decimal a.fac ++ colon :: a.behindColon

end ListedAttribute

def attributesText : List ListedAttribute → Bytes
  | [] => []
  | [a] => a.text
  | a :: b :: more => a.text ++ slash :: attributesText (b :: more)

def moreText : List ListedAttribute → Bytes
  | [] => []
  | more => slash :: attributesText more

variable {pattern text before rest : Bytes} {c : UInt8} {t : UInt16} {a : ListedAttribute}

theorem attributesText_cons (a : ListedAttribute) (more : List ListedAttribute) :
    attributesText (a :: more) = a.text ++ moreText more := by
  cases more with
  | nil => rw [attributesText, moreText, List.append_nil]
  | cons => rfl

theorem attributesText_split (a : ListedAttribute) (more : List ListedAttribute) :
    attributesText (a :: more) = decimal a.fac ++ colon :: (a.behindColon ++ moreText more) := by
  rw [attributesText_cons, ListedAttribute.text, List.append_assoc, List.cons_append]

/-- A pattern does not start in text without its first character. -/
theorem position_append (absent : c ∉ before) (text : Bytes) :
    position (c :: pattern) (before ++ text) =
      (position (c :: pattern) text).map (· + before.length) := by
  induction before with
  | nil =>
    rw [List.nil_append, List.length_nil]
    cases position (c :: pattern) text <;> rfl
  | cons d before ih =>
    obtain ⟨other, others⟩ := List.ne_and_not_mem_of_not_mem_cons absent
    rw [List.cons_append, position, if_neg, ih others, Option.map_map, List.length_cons]
    · rfl
    · rw [List.isPrefixOf, Bool.and_eq_true, beq_iff_eq]
      exact fun both => other both.1

theorem not_mem_decimal {n : Nat} (other : isDigit c = false) : c ∉ decimal n := by
  intro mem
  rw [isDigit_decimal mem] at other
  cases other

theorem colon_not_mem (a : ListedAttribute) : colon ∉ a.behindColon := by
  rw [ListedAttribute.behindColon, List.mem_append, List.mem_cons]
  rintro (digit | here | letter)
  · exact not_mem_decimal (by decide) digit
  · cases here
  · obtain ⟨d, same⟩ := Base64.mem_btoa letter
    have letters : ∀ c : UInt8, Base64.to64 c ≠ colon := forall_byte (by decide +kernel)
    exact letters d same.symm

/-- The mark of a type does not continue the one of another type. -/
theorem prefix_iff_typeMark {rest : Bytes} :
    typeMark t <+: colon :: (a.behindColon ++ rest) ↔ a.type = t := by
  have star_not : ∀ n : Nat, star ∉ decimal n := fun n => not_mem_decimal (by decide)
  constructor
  · intro marked
    obtain ⟨more, same⟩ := marked
    rw [typeMark, ListedAttribute.behindColon, List.cons_append, List.cons_inj_right,
      List.append_assoc, List.append_assoc, List.singleton_append, List.cons_append] at same
    have digits : decimal t.toNat = decimal a.type.toNat := by
      have same := congrArg (List.takeWhile (· ≠ star)) same
      have all : ∀ n : Nat, ∀ c ∈ decimal n, decide (c ≠ star) = true := fun n c mem =>
        decide_eq_true fun here => star_not n (here ▸ mem)
      rwa [List.takeWhile_append_of_pos (all _), List.takeWhile_append_of_pos (all _),
        List.takeWhile_cons_of_neg (by simp), List.takeWhile_cons_of_neg (by simp),
        List.append_nil, List.append_nil] at same
    have value (n : Nat) : leadingDigits (decimal n) = n := by
      have read := @leadingDigits_decimal [] n rfl
      rwa [List.append_nil] at read
    have types := congrArg leadingDigits digits
    rw [value, value] at types
    exact UInt16.toNat_inj.mp types.symm
  · rintro rfl
    refine ⟨Base64.btoa (leBytes 8 a.fah.toNat) ++ rest, ?_⟩
    rw [typeMark, ListedAttribute.behindColon]
    simp

/-- In front of the attribute there is nothing, or a slash after the attributes of other types. -/
structure FoundAt (t : UInt16) (es : List ListedAttribute) (a : ListedAttribute) (before : Bytes)
    (more : List ListedAttribute) : Prop where
  text : attributesText es =
    before ++ (decimal a.fac ++ colon :: (a.behindColon ++ moreText more))
  boundary : before = [] ∨ ∃ others, before = others ++ [slash]
  position : position (typeMark t) (attributesText es) =
    some (before.length + (decimal a.fac).length)

theorem position_behind (a : ListedAttribute) (other : a.type ≠ t) (rest : Bytes) :
    position (typeMark t) (decimal a.fac ++ colon :: (a.behindColon ++ rest)) =
      (position (typeMark t) rest).map (· + (a.text).length) := by
  have unmarked : ¬(typeMark t).isPrefixOf (colon :: (a.behindColon ++ rest)) := by
    rw [List.isPrefixOf_iff_prefix, prefix_iff_typeMark]
    exact other
  rw [typeMark] at unmarked ⊢
  rw [position_append (not_mem_decimal (by decide)), position, if_neg unmarked,
    position_append (colon_not_mem a), Option.map_map, Option.map_map]
  refine congrArg (Option.map · _) (funext fun i => ?_)
  simp only [Function.comp, ListedAttribute.text, List.length_append, List.length_cons]
  omega

theorem position_moreText {more : List ListedAttribute} :
    position (typeMark t) (moreText more) =
      (position (typeMark t) (attributesText more)).map (· + 1) := by
  cases more with
  | nil => rfl
  | cons a more =>
    rw [moreText]
    · exact @position_append _ _ _ (by decide : colon ∉ [slash]) _
    · exact List.cons_ne_nil _ _

theorem position_none {es : List ListedAttribute} (absent : ∀ a ∈ es, a.type ≠ t) :
    position (typeMark t) (attributesText es) = none := by
  induction es with
  | nil => rfl
  | cons a es ih =>
    obtain ⟨other, others⟩ := List.forall_mem_cons.mp absent
    rw [attributesText_split, position_behind a other, position_moreText, ih others]
    rfl

theorem position_found {es : List ListedAttribute}
    (found : es.find? (fun a => a.type = t) = some a) :
    ∃ before more, FoundAt t es a before more := by
  induction es with
  | nil => cases found
  | cons b es ih =>
    rw [List.find?_cons] at found
    by_cases here : b.type = t
    · rw [decide_eq_true here] at found
      cases found
      refine ⟨[], es, attributesText_split a es, .inl rfl, ?_⟩
      have marked :=
        List.isPrefixOf_iff_prefix.mpr ((@prefix_iff_typeMark t a (moreText es)).mpr here)
      rw [typeMark] at marked
      rw [attributesText_split, typeMark, position_append (not_mem_decimal (by decide)), position,
        if_pos marked]
      simp
    · rw [decide_eq_false here] at found
      obtain ⟨before, more, listed⟩ := ih found
      have nonempty : es ≠ [] := by
        rintro rfl
        cases found
      have continues : moreText es = slash :: attributesText es := moreText.eq_2 es nonempty
      refine ⟨b.text ++ slash :: before, more, ?_, .inr ?_, ?_⟩
      · rw [attributesText_cons, continues, listed.text]
        simp
      · rcases listed.boundary with rfl | ⟨others, rfl⟩
        · exact ⟨b.text, rfl⟩
        · exact ⟨b.text ++ slash :: others, by simp⟩
      · rw [attributesText_split, position_behind b here, position_moreText, listed.position]
        simp only [Option.map_some, List.length_append, List.length_cons]
        exact congrArg some (by omega)

/-- The digits in front of the colon are those of the cluster. -/
theorem FoundAt.digits {es more : List ListedAttribute} (found : FoundAt t es a before more) :
    ((before ++ decimal a.fac).reverse.takeWhile isDigit).length = (decimal a.fac).length := by
  have all : ∀ c ∈ (decimal a.fac).reverse, isDigit c := fun c mem =>
    isDigit_decimal (List.mem_reverse.mp mem)
  rw [List.reverse_append, List.takeWhile_append_of_pos all]
  rcases found.boundary with rfl | ⟨others, rfl⟩
  · simp
  · rw [List.reverse_append, List.reverse_singleton, List.singleton_append,
      List.takeWhile_cons_of_neg (by decide), List.append_nil, List.length_reverse]

theorem from64_moreText (more : List ListedAttribute) :
    Base64.from64 ((moreText more).headD 0) = 255 := by
  cases more with
  | nil => rfl
  | cons => rfl

/-- Whatever attributes a node has, `getfa` finds the cluster and the handle of the first one of
the type that it looks for, and nothing if there is none. -/
theorem locatefa_attributesText (es : List ListedAttribute) (t : UInt16) :
    locatefa (attributesText es) t =
      (es.find? fun a => a.type = t).map fun a => ((a.fac : Int), a.fah) := by
  cases found : es.find? (fun a => a.type = t) with
  | none =>
    have absent : ∀ a ∈ es, a.type ≠ t := fun a mem => by
      simpa using List.find?_eq_none.mp found a mem
    rw [locatefa, hasfileattribute, position_none absent]
    rfl
  | some a =>
    obtain ⟨before, more, listed⟩ := position_found found
    have whole := listed.text
    rw [← List.append_assoc] at whole
    have mark : hasfileattribute (attributesText es) t = (before ++ decimal a.fac).length + 1 := by
      rw [hasfileattribute, listed.position, List.length_append]
    have front : (attributesText es).take (before ++ decimal a.fac).length =
        before ++ decimal a.fac := by
      rw [whole, List.take_left]
    have number : (attributesText es).drop before.length =
        decimal a.fac ++ colon :: (a.behindColon ++ moreText more) := by
      rw [listed.text, List.drop_left]
    have handle : (((attributesText es).drop ((before ++ decimal a.fac).length + 1)).dropWhile
        (· ≠ star)).tail = Base64.btoa (leBytes 8 a.fah.toNat) ++ moreText more := by
      have all : ∀ c ∈ decimal a.type.toNat, decide (c ≠ star) = true := fun c mem =>
        decide_eq_true fun here => not_mem_decimal (by decide) (here ▸ mem : star ∈ _)
      rw [whole, ← List.drop_drop, List.drop_left, List.drop_succ_cons, List.drop_zero,
        ListedAttribute.behindColon, List.append_assoc, List.dropWhile_append_of_pos all,
        List.cons_append, List.dropWhile_cons_of_neg (by simp), List.tail_cons]
    have fah : Base64.atob (Base64.btoa (leBytes 8 a.fah.toNat) ++ moreText more) 8 =
        leBytes 8 a.fah.toNat := by
      rw [Base64.atob_append (from64_moreText more), Base64.atob_btoa]
      rw [length_leBytes]
    have start : (before ++ decimal a.fac).length - (decimal a.fac).length = before.length := by
      rw [List.length_append, Nat.add_sub_cancel]
    have later : (before ++ decimal a.fac).length + 1 ≠ before.length := by
      rw [List.length_append]
      omega
    rw [locatefa, mark]
    simp only [Nat.add_sub_cancel, front, listed.digits, start, handle, fah, number]
    rw [if_neg, atoi_of_small (leadingInteger_decimal a.fac (by rfl)) a.inRange,
      ofLe_leBytes_uint64]
    · rfl
    · rw [length_leBytes]
      omega

end MegaSdk.Xfer
