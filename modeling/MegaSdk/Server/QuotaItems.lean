import MegaSdk.Server.Alignment

/-!
# The prices of quota items

commands.cpp, `CommandEnumerateQuotaItems::procresult`. The amount and the currency of an
item are kept as pointers into the response. The amount is converted from its pointer on,
and its cents are what stands behind the next point of the response, wherever that is.
-/

namespace MegaSdk.Server.QuotaItems

open Json

/-- `enumeratequotaitems_result`, for an item and for a code. -/
inductive Callback where
  | item (product : Handle) (prolevel gbstorage gbtransfer months : Int) (amount : UInt32)
      (currency : Bytes)
  | result (e : Int)
  deriving DecidableEq

def strchr (c : UInt8) (s : Text) : Option Text :=
  let found := s.dropWhile fun d => d ≠ c && d ≠ 0
  if peek found = c then some found else none

def cents (a : Text) : Except Fault UInt32 :=
  let amount := UInt32.ofInt (atoi a * 100)
  match strchr dot a with
  | none => .ok amount
  | some c =>
    let c := c.tail
    let amount := if isDigit (peek c) then amount + (peek c - 48).toUInt32 * 10 else amount
    -- the second `c++` moves behind the NUL
    if peek c = 0 then .error .overrun
    else
      let c := c.tail
      .ok (if isDigit (peek c) then amount + (peek c - 48).toUInt32 else amount)

def quotaitem : Reader (List Callback) := fun calls s =>
  match gethandle 6 s with
  | (none, s) => .ok (.returned, calls ++ [.result einternal], s)
  | (some product, s) =>
    match getint s with
    | (prolevel, s) =>
      if toInt32 prolevel < 0 then .ok (.returned, calls ++ [.result einternal], s)
      else
        match getint s with
        | (gbstorage, s) =>
          if toInt32 gbstorage < 0 then .ok (.returned, calls ++ [.result einternal], s)
          else
            match getint s with
            | (gbtransfer, s) =>
              if toInt32 gbtransfer < 0 then .ok (.returned, calls ++ [.result einternal], s)
              else
                match getint s with
                | (months, s) =>
                  if toInt32 months < 0 then .ok (.returned, calls ++ [.result einternal], s)
                  else
                    let a := payload s
                    let s := (getvalue s).2
                    -- `copystring` takes the currency up to the next quote
                    let (currency, s) := getvalue s
                    match cents a with
                    | .error fault => .error fault
                    | .ok amount =>
                      .ok (.next, calls ++ [.item product (toInt32 prolevel) (toInt32 gbstorage)
                        (toInt32 gbtransfer) (toInt32 months) amount currency], (leavearray s).2)

def procresult : Procresult (List Callback) := fun calls s =>
  match isnumeric s with
  | (true, s) => .ok (calls ++ [.result (getint s).1], (getint s).2)
  | (false, s) =>
    match loop (arrayRound quotaitem) calls s with
    | .error fault => .error fault
    | .ok (.ended, calls, s) => .ok (calls ++ [.result ApiError.ok.code], s)
    | .ok (_, calls, s) => .ok (calls, s)

/-! Where the amount is converted without a fault, the cursor moves as the reader of commands.cpp
that ignores the prices has it move.
-/

section Cursor
variable {σ : Type} (client : Client σ) {calls calls' : List Callback} {s rest : Text} {flow : Flow}

/-- Where the one returns, the other returns with the same cursor. -/
def SameCursor {τ : Type} (x : Except Fault (Flow × τ × Text))
    (y : Except Fault (Flow × σ × Text)) :
    Prop := ∀ flow t s, x = .ok (flow, t, s) → ∃ t', y = .ok (flow, t', s)

theorem sameCursor_ok {τ : Type} (flow : Flow) (t : τ) (t' : σ) (s : Text) :
    SameCursor (.ok (flow, t, s)) (.ok (flow, t', s)) := by
  intro flow' u s' same
  cases same
  exact ⟨t', rfl⟩

/-- An early return of the one is an early return of the other. -/
theorem SameCursor.guard {τ : Type} {p : Prop} [Decidable p]
    {x : Except Fault (Flow × τ × Text)} {y : Except Fault (Flow × σ × Text)} {flow : Flow} {t : τ}
    {t' : σ} {s : Text} (goes : SameCursor x y) :
    SameCursor (if p then .ok (flow, t, s) else x) (if p then .ok (flow, t', s) else y) := by
  split
  · exact sameCursor_ok flow t t' s
  · exact goes

theorem quotaitem_cursor (calls : List Callback) (s : Text) (t : σ) :
    SameCursor (quotaitem calls s) (Server.quotaitem client t s) := by
  rcases handle : gethandle 6 s with ⟨product, s₁⟩
  cases product with
  | none =>
    simp only [quotaitem, handle, Server.quotaitem]
    apply sameCursor_ok
  | some product =>
    rcases level : getint s₁ with ⟨prolevel, s₂⟩
    rcases storage : getint s₂ with ⟨gbstorage, s₃⟩
    rcases transfer : getint s₃ with ⟨gbtransfer, s₄⟩
    rcases period : getint s₄ with ⟨months, s₅⟩
    rcases row : readrow [.value, .value] s₅ with ⟨values, s₆⟩
    have cursor : (getvalue (getvalue s₅).2).2 = s₆ := by
      have after := congrArg Prod.snd row
      simpa only [readrow, Kind.read] using after
    simp only [quotaitem, Server.quotaitem, handle, level, storage, transfer, period, row, cursor]
    apply SameCursor.guard
    apply SameCursor.guard
    apply SameCursor.guard
    apply SameCursor.guard
    cases cents (payload s₅) with
    | error fault =>
      intro flow u left reads
      cases reads
    | ok amount => apply sameCursor_ok

theorem loopFrom_cursor {fuel : Nat}
    (reads : loopFrom (arrayRound quotaitem) fuel calls s = .ok (flow, calls', rest)) (t : σ) :
    ∃ t', loopFrom (arrayRound (Server.quotaitem client)) fuel t s = .ok (flow, t', rest) := by
  induction fuel generalizing calls s t with
  | zero => cases reads
  | succ fuel ih =>
    rw [loopFrom, arrayRound] at reads ⊢
    generalize enterarray s = entering at reads ⊢
    obtain ⟨entered, s₀⟩ := entering
    cases entered with
    | false =>
      cases reads
      exact ⟨t, rfl⟩
    | true =>
    dsimp only at reads ⊢
    cases here : quotaitem calls s₀ with
    | error fault =>
      rw [here] at reads
      cases reads
    | ok result =>
      obtain ⟨flow', calls₁, s₁⟩ := result
      obtain ⟨t₁, same⟩ := quotaitem_cursor client _ _ t _ _ _ here
      rw [here] at reads
      rw [same]
      cases flow' with
      | next => exact ih reads t₁
      | ended => cases reads; exact ⟨t₁, rfl⟩
      | returned => cases reads; exact ⟨t₁, rfl⟩
      | rejected => cases reads; exact ⟨t₁, rfl⟩

theorem procresult_cursor (reads : procresult calls s = .ok (calls', rest)) (t : σ) :
    ∃ t', enumerateQuotaItems client t s = .ok (t', rest) := by
  rw [procresult] at reads
  rw [enumerateQuotaItems, numericOr]
  generalize isnumeric s = number at reads ⊢
  obtain ⟨numeric, s₀⟩ := number
  cases numeric with
  | true =>
    cases reads
    exact ⟨_, rfl⟩
  | false =>
    dsimp only at reads ⊢
    cases here : loop (arrayRound quotaitem) calls s₀ with
    | error fault =>
      rw [here] at reads
      cases reads
    | ok result =>
      obtain ⟨flow, calls₁, s₁⟩ := result
      obtain ⟨t₁, same⟩ := loopFrom_cursor client here t
      rw [here] at reads
      rw [loop, same]
      cases flow with
      | ended => cases reads; exact ⟨_, rfl⟩
      | next => cases reads; exact ⟨_, rfl⟩
      | returned => cases reads; exact ⟨_, rfl⟩
      | rejected => cases reads; exact ⟨_, rfl⟩

end Cursor

section Amounts
variable {x : Bytes} {s : Text}

theorem strchr_append {c : UInt8} (other : ∀ d ∈ x, d ≠ c ∧ d ≠ 0) :
    strchr c (x ++ s) = strchr c s := by
  have skipped : (x ++ s).dropWhile (fun d => d ≠ c && d ≠ 0) =
      s.dropWhile fun d => d ≠ c && d ≠ 0 := by
    apply List.dropWhile_append_of_pos
    intro d mem
    simp [other d mem]
  simp only [strchr, skipped]

theorem strchr_here {c : UInt8} : strchr c (c :: s) = some (c :: s) := by
  have stops : ¬((c ≠ c && c ≠ 0) = true) := by simp
  have found : (c :: s).dropWhile (fun d => d ≠ c && d ≠ 0) = c :: s :=
    List.dropWhile_cons_of_neg stops
  simp only [strchr, found, peek_cons, if_true]

theorem digit_ne {c : UInt8} (digit : isDigit c) : c ≠ dot ∧ c ≠ 0 := by
  constructor
  · rintro rfl
    exact absurd digit (by decide)
  · rintro rfl
    exact absurd digit (by decide)

def Undigit (s : Text) : Prop := isDigit (peek s) = false

theorem leadingInteger_units {units : Bytes} (nonempty : units ≠ [])
    (digits : ∀ c ∈ units, isDigit c) (undigit : Undigit s) :
    leadingInteger (units ++ s) = leadingDigits units := by
  cases units with
  | nil => exact absurd rfl nonempty
  | cons c units =>
    have first := digits c List.mem_cons_self
    have ended : leadingDigits (c :: units ++ s) = leadingDigits (c :: units) := by
      rw [leadingDigits, takeWhile_append_of_stop undigit, leadingDigits]
    rw [← ended]
    exact leadingInteger_digit first (units ++ s)

theorem atoi_units {units : Bytes} (nonempty : units ≠ []) (digits : ∀ c ∈ units, isDigit c)
    (bounded : leadingDigits units < 2 ^ 31) (undigit : Undigit s) :
    atoi (units ++ s) = leadingDigits units :=
  atoi_of_small (leadingInteger_units nonempty digits undigit) bounded

/-- The value of a digit, 0 for every other character. -/
def digitValue (c : UInt8) : Nat := if isDigit c then c.toNat - 48 else 0

theorem Undigit.value (undigit : Undigit s) : digitValue (peek s) = 0 := by
  rw [digitValue, undigit]
  rfl

/-- The cents that the digits at the start of a text stand for. -/
def fractionCents (s : Text) : Nat := 10 * digitValue (peek s) + digitValue (peek s.tail)

theorem digitValue_le (c : UInt8) : digitValue c ≤ 9 := by
  rw [digitValue]
  split
  · rename_i digit
    rw [isDigit, Bool.and_eq_true, decide_eq_true_eq, decide_eq_true_eq, UInt8.le_iff_toNat_le,
      UInt8.le_iff_toNat_le] at digit
    have high : c.toNat ≤ 57 := digit.2
    omega
  · exact Nat.zero_le 9

theorem fractionCents_lt (s : Text) : fractionCents s < 100 := by
  have tens := digitValue_le (peek s)
  have ones := digitValue_le (peek s.tail)
  rw [fractionCents]
  omega

theorem toUInt32_digit {c : UInt8} (digit : isDigit c) :
    (c - 48).toUInt32 = UInt32.ofNat (digitValue c) := by
  rw [isDigit, Bool.and_eq_true, decide_eq_true_eq, decide_eq_true_eq] at digit
  have value : (c - 48).toNat = c.toNat - 48 := UInt8.toNat_sub_of_le c 48 digit.1
  rw [digitValue, isDigit, decide_eq_true digit.1, decide_eq_true digit.2]
  apply UInt32.toNat_inj.mp
  rw [UInt8.toNat_toUInt32, value, UInt32.toNat_ofNat']
  have bound := c.toNat_lt
  simp only [Bool.and_self, if_true]
  omega

/-- What is added for the two characters behind a point. -/
theorem cents_point {a c : Text} (point : strchr dot a = some c) (inside : peek c.tail ≠ 0) :
    cents a = .ok (UInt32.ofInt (atoi a * 100) + UInt32.ofNat (fractionCents c.tail)) := by
  have tens : ∀ amount : UInt32, (if isDigit (peek c.tail) then
      amount + (peek c.tail - 48).toUInt32 * 10 else amount) =
        amount + UInt32.ofNat (10 * digitValue (peek c.tail)) := by
    intro amount
    split
    · rename_i digit
      rw [toUInt32_digit digit, UInt32.ofNat_mul, UInt32.mul_comm]
      rfl
    · rename_i other
      simp [digitValue, other]
  have ones : ∀ amount : UInt32, (if isDigit (peek c.tail.tail) then
      amount + (peek c.tail.tail - 48).toUInt32 else amount) =
        amount + UInt32.ofNat (digitValue (peek c.tail.tail)) := by
    intro amount
    split
    · rename_i digit
      rw [toUInt32_digit digit]
    · rename_i other
      simp [digitValue, other]
  rw [cents, point]
  simp only [tens, ones, if_neg inside]
  rw [fractionCents, UInt32.ofNat_add, UInt32.add_assoc]

theorem cents_overrun {a c : Text} (point : strchr dot a = some c) (ends : peek c.tail = 0) :
    cents a = .error .overrun := by
  rw [cents, point]
  simp only [if_pos ends]

theorem ofInt_units (n : Nat) : UInt32.ofInt (n * 100) = UInt32.ofNat (n * 100) := by
  have same : (n : Int) * 100 = ((n * 100 : Nat) : Int) := by omega
  have reduced : (((n * 100 : Nat) : Int) % 2 ^ 32).toNat = n * 100 % 2 ^ 32 := by omega
  rw [same, UInt32.ofInt, reduced]
  exact UInt32.ofNat_mod_size

/-- No digit but 0 stands in the two places behind the first point. -/
def Pointless (s : Text) : Prop :=
  ∀ c, strchr dot s = some c → peek c.tail ≠ 0 ∧ fractionCents c.tail = 0

variable {units : Bytes} (nonempty : units ≠ []) (digits : ∀ c ∈ units, isDigit c)
  (bounded : leadingDigits units < 2 ^ 31)
include nonempty digits bounded

/-- Behind units without a point, the cents are those of the next point of the response. -/
theorem cents_units_iff (undigit : Undigit s) :
    cents (units ++ s) = .ok (UInt32.ofNat (leadingDigits units * 100)) ↔ Pointless s := by
  have found := @strchr_append units s dot fun d mem => digit_ne (digits d mem)
  have amount := atoi_units nonempty digits bounded undigit
  cases point : strchr dot s with
  | none =>
    have none : cents (units ++ s) = .ok (UInt32.ofNat (leadingDigits units * 100)) := by
      rw [cents, found, point, amount, ofInt_units]
    have pointless : Pointless s := by
      intro c here
      rw [point] at here
      cases here
    exact iff_of_true none pointless
  | some c =>
    rw [point] at found
    by_cases ends : peek c.tail = 0
    · rw [cents_overrun found ends]
      refine iff_of_false (fun same => by cases same) fun pointless => ?_
      exact (pointless c point).1 ends
    · rw [cents_point found ends, amount, ofInt_units]
      constructor
      · intro same c' here
        rw [point] at here
        cases here
        have kept := UInt32.add_eq_left.mp (Except.ok.inj same)
        have value := congrArg UInt32.toNat kept
        rw [UInt32.toNat_ofNat'] at value
        have bound := fractionCents_lt c.tail
        refine ⟨ends, ?_⟩
        rwa [Nat.mod_eq_of_lt (show fractionCents c.tail < 2 ^ 32 by omega)] at value
      · intro pointless
        rw [(pointless c point).2]
        simp

/-- Units with a fraction of their own are converted with it. -/
theorem cents_fraction {f : Bytes} (short : f.length ≤ 2) (undigit : Undigit s)
    (undigit' : Undigit s.tail) (inside : peek s ≠ 0) (plain : ∀ c ∈ f, isDigit c) :
    cents (units ++ dot :: (f ++ s)) =
      .ok (UInt32.ofNat (leadingDigits units * 100 + fractionCents f)) := by
  have found : strchr dot (units ++ dot :: (f ++ s)) = some (dot :: (f ++ s)) := by
    rw [strchr_append fun d mem => digit_ne (digits d mem), strchr_here]
  have amount := @atoi_units (dot :: (f ++ s)) units nonempty digits bounded (by rw [Undigit]; rfl)
  have own : fractionCents (f ++ s) = fractionCents f := by
    rcases f with - | ⟨c, - | ⟨d, - | ⟨e, f⟩⟩⟩
    · rw [List.nil_append, fractionCents, undigit.value, undigit'.value]
      rfl
    · have none : digitValue (peek (([] : Bytes) ++ s)) = 0 := undigit.value
      rw [List.cons_append, fractionCents, List.tail_cons, none]
      rfl
    · rfl
    · simp at short
  have within : peek (f ++ s) ≠ 0 := by
    cases f with
    | nil => exact inside
    | cons c f => exact (digit_ne (plain c List.mem_cons_self)).2
  rw [cents_point found within, amount, ofInt_units, List.tail_cons, own, UInt32.ofNat_add]

end Amounts

/-- A quota item as the server sends it: a handle, four numbers, a decimal amount of fewer than
20 million units with at most two fraction digits, as a number or as a string, and a currency. -/
structure Item where
  product : Bytes
  prolevel : Bytes
  gbstorage : Bytes
  gbtransfer : Bytes
  months : Bytes
  units : Bytes
  fraction : Option Bytes
  quoted : Bool
  currency : Bytes
  handle : IsHandle 6 product
  level : IsAmount prolevel
  storage : IsAmount gbstorage
  transfer : IsAmount gbtransfer
  period : IsAmount months
  nonempty : units ≠ []
  digits : ∀ c ∈ units, isDigit c
  bounded : leadingDigits units < 20000000
  short : ∀ f, fraction = some f → f.length ≤ 2 ∧ ∀ c ∈ f, isDigit c
  literal : isLiteral currency

namespace Item
variable (i : Item)

def point : Bytes := (i.fraction.map (dot :: ·)).getD []

def amount : Bytes := if i.quoted then str (i.units ++ i.point) else i.units ++ i.point

def row : List Bytes :=
  [i.product, i.prolevel, i.gbstorage, i.gbtransfer, i.months, i.amount, str i.currency]

def text : Bytes := array i.row

def cents : Nat := leadingDigits i.units * 100 + fractionCents (i.fraction.getD [])

/-- The callback for the item, with some amount and some currency. -/
def callback (amount : UInt32) (currency : Bytes) : Callback :=
  .item (handleOf 6 (Base64.atob (skip quote i.product) 9)) (toInt32 (atoll (skip quote i.prolevel)))
    (toInt32 (atoll (skip quote i.gbstorage))) (toInt32 (atoll (skip quote i.gbtransfer)))
    (toInt32 (atoll (skip quote i.months))) amount currency

/-- The callback with the item's own amount and currency. -/
def own : Callback := i.callback (UInt32.ofNat i.cents) i.currency

/-- What follows the amount in a response in which `behind` follows the item. -/
def afterAmount (behind : Text) : Text :=
  (if i.quoted then [quote] else []) ++ comma :: (str i.currency ++ closeArray :: behind)

/-- The currency has no quote, and if the amount has no point, no digit but 0 is found behind
the next one. -/
def Apart (behind : Text) : Prop :=
  quote ∉ i.currency ∧ (i.fraction = none → Pointless (i.afterAmount behind))

theorem point_cases : i.fraction = none ∧ i.point = [] ∨
    ∃ f, i.fraction = some f ∧ i.point = dot :: f := by
  unfold point
  cases fraction : i.fraction with
  | none => exact .inl ⟨rfl, rfl⟩
  | some f => exact .inr ⟨f, rfl, rfl⟩

theorem point_tail : i.point.all isNumberTail := by
  rcases i.point_cases with ⟨-, none⟩ | ⟨f, fraction, point⟩
  · rw [none]
    rfl
  · rw [point, List.all_cons, List.all_eq_true.mpr]
    · rfl
    · intro c mem
      simp [isNumberTail, (i.short f fraction).2 c mem]

theorem isNumber_amount : isNumber (i.units ++ i.point) := by
  cases shape : i.units with
  | nil => exact absurd shape i.nonempty
  | cons c units =>
    have digits := i.digits
    rw [shape] at digits
    have first := digits c List.mem_cons_self
    have positive : c ≠ minus := by
      rintro rfl
      exact absurd first (by decide)
    have more : units.all isNumberTail := by
      apply List.all_eq_true.mpr
      intro d mem
      simp [isNumberTail, digits d (List.mem_cons_of_mem c mem)]
    have rest : (units ++ i.point).all isNumberTail := by
      rw [List.all_append, more, i.point_tail]
      rfl
    rw [List.cons_append, isNumber.eq_def]
    simp only [if_neg positive, first, rest, Bool.and_self]

theorem amount_plain : ∀ c ∈ i.units ++ i.point, c ≠ quote ∧ c ≠ backslash ∧ c ≠ 0 := by
  have digit : ∀ c, isDigit c → c ≠ quote ∧ c ≠ backslash ∧ c ≠ 0 := by
    intro c digit
    refine ⟨?_, ?_, ?_⟩ <;> (rintro rfl; exact absurd digit (by decide))
  intro c mem
  rcases List.mem_append.mp mem with mem | mem
  · exact digit c (i.digits c mem)
  · rcases i.point_cases with ⟨-, none⟩ | ⟨f, fraction, point⟩
    · rw [none] at mem
      cases mem
    · rw [point] at mem
      rcases List.mem_cons.mp mem with rfl | mem
      · decide
      · exact digit c ((i.short f fraction).2 c mem)

theorem isValue_amount : IsValue i.amount := by
  rw [amount]
  split
  · refine .str (isLiteral_of_unquoted (fun c mem => (i.amount_plain c mem).2.2) ⟨?_, ?_⟩)
    · exact fun mem => (i.amount_plain quote mem).1 rfl
    · exact fun mem => (i.amount_plain backslash mem).2.1 rfl
  · exact .num i.isNumber_amount

variable (behind : Text)

/-- What the pointer to the amount points to. -/
theorem payload_amount : payload (i.amount ++ comma :: (str i.currency ++ closeArray :: behind)) =
    i.units ++ (i.point ++ i.afterAmount behind) := by
  rw [payload_value i.isValue_amount, amount, afterAmount]
  by_cases quoted : i.quoted
  · rw [if_pos quoted, if_pos quoted, str, skip_cons]
    simp
  · have other : peek (i.units ++ i.point) ≠ quote := by
      cases shape : i.units ++ i.point with
      | nil => exact fun same => by cases same
      | cons c x => exact (i.amount_plain c (by rw [shape]; exact List.mem_cons_self)).1
    rw [if_neg quoted, if_neg quoted, skip_of_ne other]
    simp

theorem undigit_afterAmount : Undigit (i.afterAmount behind) ∧
    Undigit (i.afterAmount behind).tail ∧ peek (i.afterAmount behind) ≠ 0 := by
  rw [afterAmount]
  split
  · exact ⟨rfl, rfl, (by decide : quote ≠ 0)⟩
  · exact ⟨rfl, rfl, (by decide : comma ≠ 0)⟩

theorem cents_fits_iff : QuotaItems.cents (i.units ++ (i.point ++ i.afterAmount behind)) =
    .ok (UInt32.ofNat i.cents) ↔ (i.fraction = none → Pointless (i.afterAmount behind)) := by
  obtain ⟨undigit, undigit', inside⟩ := i.undigit_afterAmount behind
  have small : leadingDigits i.units < 2 ^ 31 := i.bounded.trans (by decide)
  rcases i.point_cases with ⟨fraction, point⟩ | ⟨f, fraction, point⟩
  · have whole : i.cents = leadingDigits i.units * 100 := by
      rw [cents, fraction]
      rfl
    rw [point, List.nil_append, whole, cents_units_iff i.nonempty i.digits small undigit]
    simp [fraction]
  · obtain ⟨short, plain⟩ := i.short f fraction
    have own := cents_fraction i.nonempty i.digits small short undigit undigit' inside plain
    have whole : i.cents = leadingDigits i.units * 100 + fractionCents f := by
      rw [cents, fraction]
      rfl
    rw [point, List.cons_append, own, whole]
    simp [fraction]

/-- The currency is taken up to its first quote. -/
theorem nameChars_currency_iff :
    nameChars (i.currency ++ quote :: (closeArray :: behind)) = i.currency ↔
      quote ∉ i.currency := by
  constructor
  · intro whole mem
    rw [← whole] at mem
    exact absurd (List.mem_takeWhile_imp mem) (by decide)
  · intro plain
    exact nameChars_plain ⟨i.literal, plain⟩ _

/-- What is reported for the item, in front of the rest of the response. -/
def reported : Except Fault Callback :=
  (QuotaItems.cents (i.units ++ (i.point ++ i.afterAmount behind))).map fun amount =>
    i.callback amount (nameChars (i.currency ++ quote :: (closeArray :: behind)))

theorem reported_iff : i.reported behind = .ok i.own ↔ i.Apart behind := by
  rw [Apart, ← i.cents_fits_iff, ← i.nameChars_currency_iff behind, reported]
  cases QuotaItems.cents (i.units ++ (i.point ++ i.afterAmount behind)) with
  | error fault => exact iff_of_false (fun same => by cases same) fun apart => by cases apart.2
  | ok amount =>
    simp only [Except.map, own, callback, Except.ok.injEq, Callback.item.injEq, true_and]
    exact And.comm

theorem getvalue_amount :
    (getvalue (comma :: (i.amount ++ comma :: (str i.currency ++ closeArray :: behind)))).2 =
      comma :: (str i.currency ++ closeArray :: behind) := by
  rw [getvalue_comma (i.isValue_amount.starts _)]
  exact getvalue_cursor i.isValue_amount stop_comma.ends

theorem getvalue_currency : getvalue (comma :: (str i.currency ++ closeArray :: behind)) =
    (nameChars (i.currency ++ quote :: closeArray :: behind), closeArray :: behind) := by
  have value : IsValue (str i.currency) := .str i.literal
  have content : skip quote (str i.currency) = i.currency ++ [quote] := skip_cons quote
  have cursor : (getvalue (str i.currency ++ closeArray :: behind)).2 = closeArray :: behind :=
    getvalue_cursor value stop_closeArray.ends
  rw [getvalue_comma (value.starts _)]
  refine Prod.ext ?_ cursor
  rw [getvalue, payload_value value, content, List.append_assoc]
  rfl

/-- A round of the loop. -/
theorem quotaitem_row (calls : List Callback) :
    quotaitem calls (separated i.row ++ closeArray :: behind) =
      (i.reported behind).map fun call => (.next, calls ++ [call], behind) := by
  have text : separated i.row ++ closeArray :: behind =
      i.product ++ comma :: (i.prolevel ++ comma :: (i.gbstorage ++ comma :: (i.gbtransfer ++
        comma :: (i.months ++ comma :: (i.amount ++ comma :: (str i.currency ++
          closeArray :: behind)))))) := by
    simp [separated, row]
  obtain ⟨h, defined⟩ := Option.isSome_iff_exists.mp i.handle.defined
  have pointer : payload (comma :: (i.amount ++ comma :: (str i.currency ++
      closeArray :: behind))) = i.units ++ (i.point ++ i.afterAmount behind) := by
    rw [payload_comma (i.isValue_amount.starts _), i.payload_amount]
  rw [text, quotaitem, gethandle_value i.handle.value i.handle.string stop_comma, defined]
  simp only [i.level.getint stop_comma, i.storage.getint stop_comma, i.transfer.getint stop_comma,
    i.period.getint stop_comma, Int.not_lt.mpr i.level.nonneg, Int.not_lt.mpr i.storage.nonneg,
    Int.not_lt.mpr i.transfer.nonneg, Int.not_lt.mpr i.period.nonneg, if_false, pointer,
    getvalue_amount, getvalue_currency, reported]
  cases QuotaItems.cents (i.units ++ (i.point ++ i.afterAmount behind)) with
  | error fault => rfl
  | ok amount =>
    simp only [Except.map, callback, defined]
    rfl

end Item

/-- What stands behind an item that the given items follow. -/
def behind (items : List Item) (rest : Text) : Text :=
  commas (items.map Item.text) ++ closeArray :: rest

/-- What is reported for the items, in front of the rest of the response. -/
def reported : List Item → Text → Except Fault (List Callback)
  | [], _ => .ok []
  | i :: items, rest =>
    match i.reported (behind items rest) with
    | .error fault => .error fault
    | .ok call => (reported items rest).map (call :: ·)

/-- Each item is told apart from what follows it. -/
def AllApart : List Item → Text → Prop
  | [], _ => True
  | i :: items, rest => i.Apart (behind items rest) ∧ AllApart items rest

theorem reported_own_iff (items : List Item) (rest : Text) :
    reported items rest = .ok (items.map Item.own) ↔ AllApart items rest := by
  induction items with
  | nil => exact iff_of_true rfl trivial
  | cons i items ih =>
    rw [AllApart, ← ih, ← i.reported_iff, reported]
    cases i.reported (behind items rest) with
    | error fault => exact iff_of_false (fun same => by cases same) fun both => by cases both.1
    | ok call =>
      cases reported items rest with
      | error fault => exact iff_of_false (fun same => by cases same) fun both => by cases both.2
      | ok calls =>
        simp only [Except.map, List.map_cons, Except.ok.injEq, List.cons.injEq]

theorem Item.isValue_text (i : Item) : IsValue i.text := by
  refine .arr ?_
  simp only [row, List.forall_mem_cons, List.not_mem_nil, false_imp_iff, implies_true, and_true]
  exact ⟨i.handle.value, i.level.value, i.storage.value, i.transfer.value, i.period.value,
    i.isValue_amount, .str i.literal⟩

/-- The rounds over the items. -/
theorem loopFrom_behind (items : List Item) (rest : Text) (calls : List Callback) {fuel : Nat}
    (enough : items.length < fuel) :
    loopFrom (arrayRound quotaitem) fuel calls (behind items rest) =
      (reported items rest).map fun more => (.ended, calls ++ more, closeArray :: rest) := by
  induction items generalizing calls fuel with
  | nil =>
    obtain ⟨fuel, rfl⟩ : ∃ f, fuel = f + 1 := ⟨fuel - 1, by omega⟩
    rw [behind, List.map_nil, commas_nil, List.nil_append,
      loopFrom_last fuel (arrayRound_last quotaitem calls) (by decide)]
    simp [reported, Except.map]
  | cons i items ih =>
    rw [List.length_cons] at enough
    obtain ⟨fuel, rfl⟩ : ∃ f, fuel = f + 1 := ⟨fuel - 1, by omega⟩
    have round : arrayRound quotaitem calls (behind (i :: items) rest) =
        (i.reported (behind items rest)).map fun call =>
          (.next, calls ++ [call], behind items rest) := by
      rw [behind, List.map_cons, commas_cons, List.cons_append, List.append_assoc,
        arrayRound_comma quotaitem calls (i.isValue_text.starts _), Item.text, arrayRound_array]
      exact i.quotaitem_row (behind items rest) calls
    rw [loopFrom, round, reported]
    cases i.reported (behind items rest) with
    | error fault => rfl
    | ok call =>
      simp only [Except.map]
      rw [ih _ (by omega)]
      cases reported items rest with
      | error fault => rfl
      | ok more => simp [Except.map]

def response (items : List Item) (rest : Text) : Text :=
  separated (items.map Item.text) ++ closeArray :: rest

theorem procresult_response (items : List Item) (rest : Text) :
    procresult [] (response items rest) =
      (reported items rest).map fun calls =>
        (calls ++ [.result ApiError.ok.code], closeArray :: rest) := by
  have opens : Unnumbered (peek (response items rest)) := by
    cases items with
    | nil => exact (by decide : Unnumbered closeArray)
    | cons i items => exact (by decide : Unnumbered openArray)
  have enough : items.length < (response items rest).length + 1 := by
    have nonempty : ∀ x ∈ items.map Item.text, x ≠ [] := by
      intro x mem
      obtain ⟨i, -, rfl⟩ := List.mem_map.mp mem
      exact i.isValue_text.ne_nil
    have bound := length_le_separated nonempty
    rw [List.length_map] at bound
    rw [response, List.length_append]
    omega
  have first : arrayRound quotaitem [] (response items rest) =
      arrayRound quotaitem [] (behind items rest) := by
    cases items with
    | nil => rfl
    | cons i items =>
      rw [behind, List.map_cons, commas_cons, List.cons_append,
        List.append_assoc, arrayRound_comma quotaitem [] (i.isValue_text.starts _), response,
        List.map_cons, separated, List.append_assoc]
  rw [procresult, isnumeric_other opens]
  simp only [loop, loopFrom_congr first, loopFrom_behind items rest [] enough]
  cases reported items rest with
  | error fault => rfl
  | ok calls => rfl

/-- Every item is reported with its own amount and its own currency, and the list is complete. -/
def Reports (items : List Item) (rest : Text) : Prop :=
  procresult [] (response items rest) =
    .ok (items.map Item.own ++ [.result ApiError.ok.code], closeArray :: rest)

/-- The prices are those of the items exactly if no currency has a quote and behind every amount
without a point, the next point of the response has no digits. -/
theorem reports_iff_allApart (items : List Item) (rest : Text) :
    Reports items rest ↔ AllApart items rest := by
  rw [Reports, procresult_response, ← reported_own_iff]
  cases reported items rest with
  | error fault => exact iff_of_false (fun same => by cases same) fun same => by cases same
  | ok calls =>
    simp only [Except.map, Except.ok.injEq, Prod.mk.injEq, and_true]
    exact List.append_left_inj _

def monthly : Item where
  product := str (ascii "AAAAAAAA")
  prolevel := ascii "1"
  gbstorage := ascii "500"
  gbtransfer := ascii "1000"
  months := ascii "1"
  units := ascii "5"
  fraction := none
  quoted := false
  currency := ascii "EUR"
  handle := ⟨.str (by decide), by decide, by decide⟩
  level := ⟨.num (by decide), by decide, by decide⟩
  storage := ⟨.num (by decide), by decide, by decide⟩
  transfer := ⟨.num (by decide), by decide, by decide⟩
  period := ⟨.num (by decide), by decide, by decide⟩
  nonempty := by decide
  digits := forall_mem_of_all (by decide)
  bounded := by decide
  short := by rintro f ⟨⟩
  literal := by decide

def yearly : Item :=
  { monthly with
    months := ascii "12"
    units := ascii "49"
    fraction := some (ascii "99")
    quoted := true
    period := ⟨.num (by decide), by decide, by decide⟩
    nonempty := by decide
    digits := forall_mem_of_all (by decide)
    bounded := by decide
    short := by
      rintro f ⟨⟩
      exact ⟨by decide, forall_mem_of_all (by decide)⟩ }

/-- The cents of the second plan are added to the price of the first. -/
theorem next_cents_added :
    procresult [] (response [monthly, yearly] []) =
        .ok ([monthly.callback 599 (ascii "EUR"), yearly.own, .result 0], [closeArray]) ∧
      monthly.own = monthly.callback 500 (ascii "EUR") ∧
        ¬Reports [monthly, yearly] [] := by
  have added : procresult [] (response [monthly, yearly] []) =
      .ok ([monthly.callback 599 (ascii "EUR"), yearly.own, .result 0], [closeArray]) := by
    decide +kernel
  refine ⟨added, by decide +kernel, fun reports => ?_⟩
  rw [Reports, added] at reports
  revert reports
  decide +kernel

end MegaSdk.Server.QuotaItems
