import MegaSdk.Server.Requests

/-!
# Well-formed requests

Whatever is posted to the server is a well-formed text, if the arguments that are not escaped do
not need to be. Their names and values are good as far as these arguments are literals.
-/

namespace MegaSdk.Server

open ByteOrder Crypto Json Nodes Writers CommandText Runs
open MegaSdk.Tree hiding undef

theorem isLiteral_of_all {text : Bytes}
    (all : text.all (fun c => c ≠ 0 && c ≠ quote && c ≠ backslash) = true) : isLiteral text := by
  have each : ∀ c ∈ text, c ≠ 0 ∧ c ≠ quote ∧ c ≠ backslash := fun c mem => by
    simpa [and_assoc] using List.all_eq_true.mp all c mem
  exact isLiteral_of_unquoted (fun c mem => (each c mem).1)
    ⟨fun mem => (each _ mem).2.1 rfl, fun mem => (each _ mem).2.2 rfl⟩

def Unescaped (text : Bytes) : Prop := ∀ c ∈ text, c ≠ 0 ∧ c ≠ quote ∧ c ≠ backslash

theorem Unescaped.literal {text : Bytes} (unescaped : Unescaped text) : isLiteral text :=
  isLiteral_of_unquoted (fun c mem => (unescaped c mem).1)
    ⟨fun mem => (unescaped _ mem).2.1 rfl, fun mem => (unescaped _ mem).2.2 rfl⟩

theorem unescaped_append {x y : Bytes} (first : Unescaped x) (second : Unescaped y) :
    Unescaped (x ++ y) :=
  List.forall_mem_append.mpr ⟨first, second⟩

theorem unescaped_to64 : ∀ c : UInt8,
    Base64.to64 c ≠ 0 ∧ Base64.to64 c ≠ quote ∧ Base64.to64 c ≠ backslash :=
  forall_byte (by decide +kernel)

theorem unescaped_btoa (data : Bytes) : Unescaped (Base64.btoa data) := by
  intro c mem
  obtain ⟨d, rfl⟩ := Base64.mem_btoa mem
  exact unescaped_to64 d

theorem unescaped_digit : ∀ c : UInt8, isDigit c → c ≠ 0 ∧ c ≠ quote ∧ c ≠ backslash :=
  forall_byte (by decide +kernel)

theorem unescaped_decimal (n : Nat) : Unescaped (decimal n) :=
  fun c mem => unescaped_digit c (isDigit_decimal mem)

theorem unescaped_letters {text : Bytes} (letters : ∀ c ∈ text, 97 ≤ c ∧ c ≤ 123) :
    Unescaped text := by
  have letter : ∀ c : UInt8, 97 ≤ c ∧ c ≤ 123 → c ≠ 0 ∧ c ≠ quote ∧ c ≠ backslash :=
    forall_byte (by decide +kernel)
  exact fun c mem => letter c (letters c mem)

theorem unescaped_attrText (t : UInt16) (ah : UInt64) : Unescaped (Xfer.Attach.attrText t ah) := by
  refine unescaped_append ?_ (List.forall_mem_cons.mpr ⟨by decide, unescaped_btoa _⟩)
  exact unescaped_decimal t.toNat

theorem unescaped_attrString (attributes : List Xfer.Attach.PendingFA) :
    Unescaped (Xfer.Attach.attrString attributes) := by
  have round : ∀ (as : List Xfer.Attach.PendingFA) (fa : Bytes), Unescaped fa →
      Unescaped (as.foldl Xfer.Attach.appendAttr fa) := by
    intro as
    induction as with
    | nil => exact fun _ done => done
    | cons a as ih =>
      intro fa done
      refine ih _ (unescaped_append done fun c mem => ?_)
      have text : Unescaped (47 :: Xfer.Attach.attrText a.type a.fah) :=
        List.forall_mem_cons.mpr ⟨by decide, unescaped_attrText a.type a.fah⟩
      exact text c (List.mem_of_mem_drop mem)
  exact round attributes [] fun c mem => absurd mem List.not_mem_nil

section Good
variable {P : Prop} {level : Int} {write next : Write}

/-- A member with a proper name and a value, if `P` holds. -/
def GoodMember (P : Prop) (m : Member) : Prop := P → isLiteral m.1 ∧ IsValue m.2

def GoodValue (P : Prop) (v : Bytes) : Prop := P → IsValue v

/-- A writer that adds good members to an object. -/
abbrev AddsMembers (P : Prop) (level : Int) (write : Write) : Prop :=
  AddsGood (GoodMember P) (MembersAt level) write

abbrev AddsElements (P : Prop) (level : Int) (write : Write) : Prop :=
  AddsGood (GoodValue P) (ElementsAt level) write

abbrev AddsArrays (P : Prop) (level : Int) (write : Write) : Prop :=
  AddsGood (GoodValue P) (At level) write

/-- A writer that fills an array with good values. -/
def FillsGood (P : Prop) (level : Int) (write : Write) : Prop :=
  ∃ xs, (∀ x ∈ xs, GoodValue P x) ∧ Fills level write xs

theorem AddsElements.fills (adds : AddsElements P level write) : FillsGood P level write := by
  obtain ⟨xs, good, adds⟩ := adds
  exact ⟨xs, good, .of_elements adds⟩

theorem AddsArrays.fills (adds : AddsArrays P level write) : FillsGood P level write := by
  obtain ⟨xs, good, adds⟩ := adds
  exact ⟨xs, good, .of_adds adds⟩

theorem isValue_btoa (data : Bytes) : IsValue (str (Base64.btoa data)) :=
  .str (unescaped_btoa data).literal

/-- The names of members that the constructors choose. -/
theorem named {name : String}
    (all : (ascii name).all (fun c => c ≠ 0 && c ≠ quote && c ≠ backslash) = true) :
    P → isLiteral (ascii name) :=
  fun _ => isLiteral_of_all all

section Members
variable {name : String}

theorem adds_argBinary (data : Bytes) (literal : P → isLiteral (ascii name)) :
    AddsMembers P level (argBinary name data) :=
  .of_adds (fun p => ⟨literal p, isValue_btoa data⟩) (adds_arg_str name _)

theorem adds_argHandle (size : Nat) (h : UInt64) (literal : P → isLiteral (ascii name)) :
    AddsMembers P level (argHandle name size h) :=
  adds_argBinary _ literal

theorem adds_argString {value : Bytes} (literal : P → isLiteral (ascii name))
    (content : P → isLiteral value) : AddsMembers P level (argString name value) :=
  .of_adds (fun p => ⟨literal p, .str (content p)⟩) (adds_arg_str name value)

theorem adds_argInt (n : Int) (literal : P → isLiteral (ascii name)) :
    AddsMembers P level (argInt name n) :=
  .of_adds (fun p => ⟨literal p, isValue_signedDecimal n⟩)
    (adds_arg_raw name (closed_signedDecimal n))

/-- The flag with which something is requested. -/
theorem adds_flag (literal : P → isLiteral (ascii name)) :
    AddsMembers P level (arg name (ascii "1") false) :=
  adds_argInt 1 literal

theorem adds_arrayOf (low : -1 ≤ level) (high : level < 7) (literal : P → isLiteral (ascii name))
    (fills : FillsGood P (level + 1) write) :
    AddsMembers P level (beginarrayOf name >=> write >=> endarray) := by
  obtain ⟨xs, good, fills⟩ := fills
  exact .of_adds (fun p => ⟨literal p, .arr fun x mem => good x mem p⟩)
    (adds_beginarrayOf name low high fills)

end Members

theorem adds_innerArray (low : -1 ≤ level) (high : level < 7)
    (fills : FillsGood P (level + 1) write) :
    AddsArrays P level (beginarray >=> write >=> endarray) := by
  obtain ⟨xs, good, fills⟩ := fills
  exact .of_adds (fun p => .arr fun x mem => good x mem p) (adds_beginarray low high fills)

theorem adds_innerObject (adds : AddsMembers P level write) :
    AddsArrays P level (beginobject >=> write >=> endobject) := by
  obtain ⟨ms, good, adds⟩ := adds
  exact .of_adds (fun p => .obj (fun m mem => (good m mem p).1) fun m mem => (good m mem p).2)
    (adds_object adds)

theorem adds_elementBinary (inside : 0 ≤ level ∧ level < maxDepth) (data : Bytes) :
    AddsElements P level (elementBinary data) :=
  .of_adds (fun _ => isValue_btoa data) (adds_element inside (closed_str _))

theorem adds_elementHandle (inside : 0 ≤ level ∧ level < maxDepth) (size : Nat) (h : UInt64) :
    AddsElements P level (elementHandle size h) :=
  adds_elementBinary inside _

theorem adds_elementInt (inside : 0 ≤ level ∧ level < maxDepth) (n : Int) :
    AddsElements P level (elementInt n) :=
  .of_adds (fun _ => isValue_signedDecimal n) (adds_element inside (closed_signedDecimal n))

def crTuple (e : CrEntry) : List Bytes := [decimal e.nsi, decimal e.nni, str (Base64.btoa e.key)]

theorem crkeysText_eq (entries : List CrEntry) :
    crkeysText entries = separated (entries.flatMap crTuple) := by
  rw [← drop_keysText, keysText]
  have each : ∀ e : CrEntry, ascii "," ++ ascii (toString e.nsi) ++ ascii "," ++
      ascii (toString e.nni) ++ ascii ",\"" ++ Base64.btoa e.key ++ ascii "\"" =
      commas (crTuple e) := by
    intro e
    have between : ascii ",\"" = [comma, quote] := by decide
    have alone : ascii "," = [comma] := by decide
    simp [crTuple, decimal, str, ascii_quote, between, alone]
  have all : entries.flatMap (fun e => ascii "," ++ ascii (toString e.nsi) ++ ascii "," ++
      ascii (toString e.nni) ++ ascii ",\"" ++ Base64.btoa e.key ++ ascii "\"") =
      commas (entries.flatMap crTuple) := by
    rw [commas, List.flatMap_assoc]
    exact List.flatMap_congr fun e _ => each e
  rw [all]
  cases entries.flatMap crTuple with
  | nil => rfl
  | cons x xs => rw [commas_cons]; rfl

theorem closed_crTuple {entries : List CrEntry} :
    ∀ x ∈ entries.flatMap crTuple, Closed x ∧ IsValue x := by
  intro x mem
  obtain ⟨e, -, among⟩ := List.mem_flatMap.mp mem
  simp only [crTuple, List.mem_cons, List.not_mem_nil, or_false] at among
  rcases among with rfl | rfl | rfl
  · exact ⟨closed_decimal _, isValue_decimal _⟩
  · exact ⟨closed_decimal _, isValue_decimal _⟩
  · exact ⟨closed_str _, isValue_btoa _⟩

/-- The value of a `cr` member. -/
def crText (shares : List UInt64) (items : List Bytes) (entries : List CrEntry) : Bytes :=
  array [array (shares.map fun h => str (Base64.btoa (leBytes 6 h.toNat))),
    array (items.map fun item => str (Base64.btoa item)), array (entries.flatMap crTuple)]

theorem fills_elements {α : Type} (inside : 0 ≤ level ∧ level < maxDepth) {data : α → Bytes}
    {write : α → Write} (binary : ∀ x, write x = elementBinary (data x)) (xs : List α) :
    Fills level (each xs write) (xs.map fun x => str (Base64.btoa (data x))) := by
  have adds := @adds_each _ _ _ _ (ElementsAt level) write
    (fun x => [str (Base64.btoa (data x))]) xs fun x _ => by
      rw [binary]
      exact adds_element inside (closed_str _)
  rw [← List.map_eq_flatMap] at adds
  exact .of_elements adds

/-- What is written for the keys. -/
theorem adds_crText (shares : List UInt64) (items : List Bytes) (entries : List CrEntry) :
    Adds (MembersAt (-1)) (crElement shares items (crkeysText entries))
      [(ascii "cr", crText shares items entries)] := by
  refine adds_beginarrayOf "cr" (by decide) (by decide) (Fills.of_adds ?_)
  have first := @adds_beginarray 0 _ _ (by decide) (by decide)
    (fills_elements (by decide) (fun h => rfl : ∀ h, elementHandle 6 h = _) shares)
  have second := @adds_beginarray 0 _ _ (by decide) (by decide)
    (fills_elements (by decide) (fun item => rfl : ∀ item, elementBinary item = _) items)
  have third := @adds_beginarray 0 (append (crkeysText entries)) _ (by decide) (by decide) (by
    rw [crkeysText_eq]
    exact fills_raw fun x mem => (closed_crTuple x mem).1)
  exact first.then (second.then third)

theorem isValue_crText (shares : List UInt64) (items : List Bytes) (entries : List CrEntry) :
    IsValue (crText shares items entries) := by
  have strings : ∀ {α : Type} (xs : List α) (data : α → Bytes),
      IsValue (array (xs.map fun x => str (Base64.btoa (data x)))) := by
    intro α xs data
    refine .arr fun x mem => ?_
    obtain ⟨y, -, rfl⟩ := List.mem_map.mp mem
    exact isValue_btoa _
  refine .arr fun x mem => ?_
  simp only [List.mem_cons, List.not_mem_nil, or_false] at mem
  rcases mem with rfl | rfl | rfl
  · exact strings shares _
  · exact strings items _
  · exact .arr fun x mem => (closed_crTuple x mem).2

theorem adds_crElement (shares : List UInt64) (items : List Bytes) (entries : List CrEntry) :
    AddsMembers P (-1) (crElement shares items (crkeysText entries)) :=
  .of_adds (fun p => ⟨@named P "cr" (by decide) p, isValue_crText shares items entries⟩)
    (adds_crText shares items entries)

theorem ShareNodeKeys.adds_write (t : KeyTree) (k : ShareNodeKeys) :
    AddsMembers P (-1) (k.write t) := by
  rw [ShareNodeKeys.write]
  cases element : k.get t with
  | none => exact addsGood_nothing
  | some c =>
    have text : c.keys = crkeysText k.keys := by
      rw [ShareNodeKeys.get] at element
      split at element
      · cases element
      · cases element
        exact drop_keysText k.keys
    rw [Option.elim_some, text]
    exact adds_crElement _ _ _

end Good

section Commands
variable {P : Prop} (client : Sender)

theorem Sender.adds_shareKeys (sn : Option Ref) (n : Ref) :
    AddsMembers P (-1) (client.shareKeys sn n) := by
  have found : client.shareKeys sn n = ((client.nodes.visits n).foldl (fun k m =>
      treeProcShareKeys client.aes client.nodes.toKeyTree sn m k) ShareNodeKeys.empty).write
        client.nodes.toKeyTree := by
    funext b
    rw [Sender.shareKeys, client.nodes.proctree_eq, Option.bind_some]
  rw [found]
  exact ShareNodeKeys.adds_write _ _

theorem Sender.adds_newNodeSource (nn : NewNode) (level : Int) :
    AddsMembers P level (client.newNodeSource nn) := by
  unfold Sender.newNodeSource
  split
  · exact adds_argHandle 6 _ (named (by decide))
  · exact adds_argHandle 6 _ (named (by decide))
  · refine .then (adds_argBinary _ (named (by decide))) ?_
    exact addsGood_only fun _ => adds_argString (named (by decide))
      fun _ => (unescaped_attrString _).literal

theorem Sender.adds_newNode (nn : NewNode) (level : Int) :
    AddsMembers P level (client.newNode nn) := by
  refine .then (client.adds_newNodeSource nn level) (.then (addsGood_only fun _ => ?_) (.then ?_
    (.then ?_ (.then ?_ ?_))))
  · exact adds_argHandle 6 _ (named (by decide))
  · exact adds_argInt _ (named (by decide))
  · exact adds_argBinary _ (named (by decide))
  · exact adds_argBinary _ (named (by decide))
  · exact adds_argInt _ (named (by decide))

theorem Sender.adds_targetKeys (nodes : List NewNode) (t : Target) :
    AddsMembers P (-1) (client.targetKeys nodes t) := by
  cases t with
  | user userhandle => exact addsGood_nothing
  | node th =>
    rw [Sender.targetKeys]
    cases client.nodebyhandle th with
    | none => exact addsGood_nothing
    | some tn => exact ShareNodeKeys.adds_write _ _

theorem Sender.adds_ownShareKey (h : UInt64) : AddsElements P 0 (client.ownShareKey h) := by
  rw [Sender.ownShareKey]
  cases (client.nodebyhandle h).bind fun n => (client.nodes.keys n).sharekey with
  | none => exact addsGood_nothing
  | some key =>
    exact .then (adds_elementHandle (by decide) 6 h) (.then (adds_elementHandle (by decide) 8 _)
      (adds_elementBinary (by decide) _))

theorem Sender.adds_nodeKey (h : UInt64) : AddsElements P 0 (client.nodeKey h) := by
  rw [Sender.nodeKey]
  cases client.nodebyhandle h with
  | none => exact addsGood_nothing
  | some n => exact .then (adds_elementHandle (by decide) 6 h) (adds_elementBinary (by decide) _)

theorem Sender.adds_shareeAccess (n : Ref) (u : Option Sharee) (a : Int) (level : Int) :
    AddsMembers P level (client.shareeAccess n u a) := by
  refine .then (adds_argInt a (named (by decide))) ?_
  cases u with
  | none => exact addsGood_nothing
  | some u => exact adds_argBinary _ (named (by decide))

def Outgoing.head (c : Outgoing) : List Member :=
  (ascii "a", str (ascii c.opcode)) ::
    if c.marked then [(ascii "i", str client.sessionid)] else []

/-- The text of a command is that of an object with good members. -/
def Outgoing.Good (P : Prop) (c : Outgoing) : Prop :=
  ∃ ms, (∀ m ∈ ms, GoodMember P m) ∧ Forms (c.write client) (c.head client ++ ms)

theorem Outgoing.good_cmd {c : Outgoing} {rest : Write} (unmarked : c.marked = false)
    (same : c.write client = (cmd c.opcode >=> rest)) (adds : AddsMembers P (-1) rest) :
    c.Good client P := by
  obtain ⟨ms, good, adds⟩ := adds
  refine ⟨ms, good, ?_⟩
  rw [same, Outgoing.head, unmarked]
  exact .of_cmd c.opcode adds

theorem Outgoing.good_notself {c : Outgoing} {rest : Write} (marked : c.marked = true)
    (same : c.write client = (cmd c.opcode >=> notself client.sessionid >=> rest))
    (adds : AddsMembers P (-1) rest) : c.Good client P := by
  obtain ⟨ms, good, adds⟩ := adds
  refine ⟨ms, good, ?_⟩
  rw [same, Outgoing.head, marked]
  exact .of_notself c.opcode client.sessionid adds

/-- A command without arguments. -/
theorem Outgoing.good_bare {c : Outgoing} (unmarked : c.marked = false)
    (same : c.write client = cmd c.opcode) : c.Good client P :=
  good_cmd client unmarked (same.trans (funext fun b => (Option.bind_fun_some (cmd c.opcode b)).symm))
    addsGood_nothing

/-- Every constructor writes an object; its names and values are good if the arguments that it
writes as they are can be put between quotes. -/
theorem Outgoing.good (c : Outgoing) (raw : P → ∀ x ∈ c.raw, isLiteral x) : c.Good client P := by
  have given : ∀ {x : Bytes}, x ∈ c.raw → P → isLiteral x := fun mem p => raw p _ mem
  cases c with
  | getFA fahref => exact good_cmd client rfl rfl (adds_argHandle 8 _ (named (by decide)))
  | putFA size => exact good_cmd client rfl rfl (adds_argInt _ (named (by decide)))
  | attachFA nh t ah =>
    refine good_cmd client rfl rfl (.then (adds_argHandle 6 _ (named (by decide))) ?_)
    exact adds_argString (named (by decide)) fun _ => (unescaped_attrText t ah).literal
  | putFile size ms =>
    exact good_cmd client rfl rfl
      (.then (adds_argInt _ (named (by decide))) (adds_argInt _ (named (by decide))))
  | getFile h p =>
    refine good_cmd client rfl rfl
      (.then (adds_argHandle 6 _ ?_) (adds_argInt _ (named (by decide))))
    cases p with
    | true => exact named (by decide)
    | false => exact named (by decide)
  | setAttr n attrs =>
    exact good_notself client rfl rfl
      (.then (adds_argHandle 6 _ (named (by decide))) (adds_argBinary _ (named (by decide))))
  | putNodes t nodes =>
    have addressed : AddsMembers P (-1) (Sender.target t) := by
      cases t with
      | user userhandle => exact adds_argString (named (by decide)) (given (List.mem_singleton_self _))
      | node th => exact adds_argHandle 6 _ (named (by decide))
    refine good_notself client rfl rfl (.then addressed (.then ?_ (client.adds_targetKeys nodes t)))
    refine adds_arrayOf (by decide) (by decide) (named (by decide)) (AddsArrays.fills ?_)
    exact addsGood_each fun nn _ => adds_innerObject (client.adds_newNode nn _)
  | moveNode n t =>
    exact good_notself client rfl rfl (.then (adds_argHandle 6 _ (named (by decide)))
      (.then (adds_argHandle 6 _ (named (by decide))) (client.adds_shareKeys none n)))
  | delNode th => exact good_notself client rfl rfl (adds_argHandle 6 _ (named (by decide)))
  | login user =>
    refine good_cmd client rfl rfl (.then ?_ (addsGood_only fun _ =>
      adds_argHandle 8 _ (named (by decide))))
    cases user with
    | none => exact addsGood_nothing
    | some u =>
      exact .then (adds_argString (named (by decide)) (given (List.mem_singleton_self _)))
        (adds_argHandle 8 _ (named (by decide)))
  | shareKeyUpdate sh uid key =>
    refine good_cmd client rfl rfl
      (adds_arrayOf (by decide) (by decide) (named (by decide)) (AddsElements.fills ?_))
    exact .then (adds_elementHandle (by decide) 6 sh) (.then (adds_elementBinary (by decide) uid)
      (adds_elementBinary (by decide) key))
  | shareKeyUpdates v =>
    exact good_cmd client rfl rfl (adds_arrayOf (by decide) (by decide) (named (by decide))
      (AddsElements.fills (addsGood_each fun h _ => client.adds_ownShareKey h)))
  | setShare n u a newshare =>
    refine good_cmd client rfl rfl (.then (adds_argHandle 6 _ (named (by decide))) (.then
      (addsGood_only fun _ => .then (adds_argBinary _ (named (by decide)))
        (adds_argBinary _ (named (by decide)))) (.then ?_ (addsGood_only fun _ =>
          client.adds_shareKeys (some n) n))))
    refine adds_arrayOf (by decide) (by decide) (named (by decide))
      (AddsArrays.fills (adds_innerObject (.then ?_ ?_)))
    · cases u with
      | none => exact adds_argString (named (by decide)) (named (by decide))
      | some u => exact adds_argString (named (by decide)) (given (List.mem_singleton_self _))
    · cases a with
      | none => exact addsGood_nothing
      | some a => exact client.adds_shareeAccess n u a _
  | enumerateQuotaItems => exact good_bare client rfl rfl
  | purchaseAddItem => exact good_bare client rfl rfl
  | purchaseCheckout gateway =>
    refine good_cmd client rfl rfl (.then ?_ (adds_argInt _ (named (by decide))))
    exact adds_arrayOf (by decide) (by decide) (named (by decide))
      (AddsElements.fills (addsGood_each fun h _ => adds_elementHandle (by decide) 8 h))
  | userRequest m visibility =>
    exact good_cmd client rfl rfl
      (.then (adds_argString (named (by decide)) (given (List.mem_singleton_self _)))
        (adds_argInt _ (named (by decide))))
  | putUA an av =>
    exact good_cmd client rfl rfl (adds_argBinary av (given (List.mem_singleton_self _)))
  | getUA uid an =>
    exact good_cmd client rfl rfl
      (.then (adds_argString (named (by decide)) (given List.mem_cons_self))
        (adds_argString (named (by decide)) (given (List.mem_cons_of_mem _ List.mem_cons_self))))
  | nodeKeyUpdate v =>
    exact good_cmd client rfl rfl (adds_arrayOf (by decide) (by decide) (named (by decide))
      (AddsElements.fills (addsGood_each fun h _ => client.adds_nodeKey h)))
  | singleKeyCR sh nh key =>
    refine good_cmd client rfl rfl (adds_arrayOf (by decide) (by decide) (named (by decide))
      (AddsArrays.fills (.then ?_ (.then ?_ ?_))))
    · exact adds_innerArray (by decide) (by decide)
        (AddsElements.fills (adds_elementHandle (by decide) 6 sh))
    · exact adds_innerArray (by decide) (by decide)
        (AddsElements.fills (adds_elementHandle (by decide) 6 nh))
    · refine adds_innerArray (by decide) (by decide) (AddsElements.fills ?_)
      exact .then (adds_elementInt (by decide) 0) (.then (adds_elementInt (by decide) 0)
        (adds_elementBinary (by decide) key))
  | keyCR rshares rnodes keys => exact good_cmd client rfl rfl (adds_crElement _ _ keys)
  | pubKeyRequest uid =>
    exact good_cmd client rfl rfl
      (adds_argString (named (by decide)) (given (List.mem_singleton_self _)))
  | getUserQuota storage transfer pro =>
    exact good_cmd client rfl rfl
      (.then (addsGood_only fun _ => adds_flag (named (by decide)))
        (.then (addsGood_only fun _ => adds_flag (named (by decide)))
          (addsGood_only fun _ => adds_flag (named (by decide)))))
  | getUserTransactions => exact good_bare client rfl rfl
  | getUserPurchases => exact good_bare client rfl rfl
  | getUserSessions => exact good_bare client rfl rfl
  | setPH n del =>
    exact good_cmd client rfl rfl (.then (adds_argHandle 6 _ (named (by decide)))
      (addsGood_only fun _ => adds_argInt _ (named (by decide))))
  | getPH ph => exact good_cmd client rfl rfl (adds_argHandle 6 _ (named (by decide)))
  | setMasterKey oldkey newkey hash =>
    exact good_cmd client rfl rfl (.then (adds_argBinary _ (named (by decide)))
      (.then (adds_argBinary _ (named (by decide))) (adds_argHandle 8 _ (named (by decide)))))
  | createEphemeralSession key ssc =>
    exact good_cmd client rfl rfl
      (.then (adds_argBinary _ (named (by decide))) (adds_argBinary _ (named (by decide))))
  | resumeEphemeralSession uh =>
    exact good_cmd client rfl rfl (adds_argHandle 8 _ (named (by decide)))
  | sendSignupLink email name code =>
    exact good_cmd client rfl rfl (.then (adds_argBinary _ (named (by decide)))
      (.then (adds_argBinary _ (named (by decide))) (adds_argBinary _ (named (by decide)))))
  | querySignupLink code => exact good_cmd client rfl rfl (adds_argBinary _ (named (by decide)))
  | confirmSignupLink code emailhash =>
    exact good_cmd client rfl rfl
      (.then (adds_argBinary _ (named (by decide))) (adds_argHandle 8 _ (named (by decide))))
  | setKeyPair privk pubk =>
    exact good_cmd client rfl rfl
      (.then (adds_argBinary _ (named (by decide))) (adds_argBinary _ (named (by decide))))
  | fetchNodes =>
    exact good_cmd client rfl rfl
      (.then (adds_flag (named (by decide))) (adds_flag (named (by decide))))

end Commands

/-- The constructor writes this text, with arguments that need no escape. -/
def Outgoing.Writes (c : Outgoing) (client : Sender) (json : Bytes) : Prop :=
  ∃ (levels : Int → UInt8) (b : CommandText),
    (∀ x ∈ c.raw, isLiteral x) ∧ c.write client (start levels) = some b ∧ b.json = json

def Written (json : Bytes) : Prop := ∃ (client : Sender) (c : Outgoing), c.Writes client json

theorem letters_sample : ∀ c ∈ ascii "abcdefghij", 97 ≤ c ∧ c ≤ 123 :=
  forall_mem_of_all (by decide)

def bareSender : Sender where
  sessionid := ascii "abcdefghij"
  letters := letters_sample
  me := 0
  aes _ := id
  key := Vector.replicate 16 0
  cachedscsn := 0
  nodes := fileBelowFile
  nodebyhandle _ := none
  pendingfa _ := []
  purchaseBasket := []

/-- The result of a command queues such texts only. -/
def CallbackWritten : Api.Callback → Prop
  | .add json => Written json
  | .fetchNodes _ => True

def EventWritten : Api.Event → Prop
  | .add json => Written json
  | .pass _ _ callbacks => ∀ calls ∈ callbacks, ∀ call ∈ calls, CallbackWritten call
  | _ => True

/-- The members of an object, of which the first one is the opcode of the command that writes this
text. -/
structure IsCommand (json : Bytes) (ms : List Member) : Prop where
  opcode : ∃ client c tail, Outgoing.Writes c client json ∧
    ms = (ascii "a", str (ascii c.opcode)) :: tail
  members : ∀ m ∈ ms, isLiteral m.1 ∧ IsValue m.2

def HasMembers (c : Api.Command) (ms : List Member) : Prop :=
  IsCommand c.json ms ∧ c.json = separated (ms.map member)

/-- The body is an array of one object for each of the commands, in order. -/
def WellFormedBody (q : Api.HttpReq) : Prop :=
  ∃ objects : List (List Member), objects ≠ [] ∧ List.Forall₂ HasMembers q.cmds objects ∧
    q.out = array (objects.map object) ∧ IsValue q.out

theorem Outgoing.isLiteral_opcode (c : Outgoing) : isLiteral (ascii c.opcode) := by
  cases c <;> simp only [opcode] <;> exact isLiteral_of_all (by decide)

theorem Outgoing.good_head (client : Sender) (c : Outgoing) :
    ∀ m ∈ c.head client, isLiteral m.1 ∧ IsValue m.2 := by
  have first : isLiteral (ascii "a") ∧ IsValue (str (ascii c.opcode)) :=
    ⟨isLiteral_of_all (by decide), .str c.isLiteral_opcode⟩
  rw [Outgoing.head]
  refine List.forall_mem_cons.mpr ⟨first, ?_⟩
  split
  · rw [List.forall_mem_singleton]
    have name : isLiteral (ascii "i") := isLiteral_of_all (by decide)
    exact ⟨name, .str (unescaped_letters client.letters).literal⟩
  · exact fun m mem => absurd mem List.not_mem_nil

theorem Written.members {json : Bytes} (written : Written json) :
    ∃ ms, IsCommand json ms ∧ json = separated (ms.map member) := by
  obtain ⟨client, c, levels, b, raw, wrote, rfl⟩ := written
  obtain ⟨ms, good, forms⟩ := c.good client (P := True) fun _ => raw
  obtain ⟨b', wrote', text⟩ := forms levels
  obtain rfl : b = b' := Option.some.inj (wrote.symm.trans wrote')
  refine ⟨_, ⟨⟨client, c, _, ⟨levels, b, raw, wrote, rfl⟩, rfl⟩,
    List.forall_mem_append.mpr ⟨c.good_head client, ?_⟩⟩, text⟩
  exact fun m mem => good m mem trivial

/-- The texts of objects are put together by `Request::get`. -/
theorem objects_eq {cmds : List Api.Command} {objects : List (List Member)}
    (each : List.Forall₂ HasMembers cmds objects) (first : Bool) :
    Api.Request.objects first cmds =
      if first then separated (objects.map object) else commas (objects.map object) := by
  induction each generalizing first with
  | nil => cases first <;> rfl
  | @cons c ms cmds objects formed _ ih =>
    have opening : ascii "\x7b" = [openObject] := by decide
    have next : ascii ",\x7b" = [comma, openObject] := by decide
    have closing : ascii "\x7d" = [closeObject] := by decide
    rw [Api.Request.objects, ih, if_neg Bool.false_ne_true, formed.2, closing]
    cases first with
    | true =>
      rw [if_pos rfl, if_pos rfl, opening]
      simp [separated, object]
    | false =>
      rw [if_neg Bool.false_ne_true, if_neg Bool.false_ne_true, next]
      simp [object]

theorem get_eq {cmds : List Api.Command} {objects : List (List Member)}
    (each : List.Forall₂ HasMembers cmds objects) :
    Api.Request.get cmds = array (objects.map object) := by
  have opening : ascii "[" = [openArray] := by decide
  have closing : ascii "]" = [closeArray] := by decide
  rw [Api.Request.get, objects_eq each, if_pos rfl, opening, closing]
  rfl

theorem exists_forall₂ {cmds : List Api.Command} (each : ∀ c ∈ cmds, ∃ ms, HasMembers c ms) :
    ∃ objects, List.Forall₂ HasMembers cmds objects := by
  induction cmds with
  | nil => exact ⟨[], .nil⟩
  | cons c cmds ih =>
    obtain ⟨⟨ms, here⟩, others⟩ := List.forall_mem_cons.mp each
    obtain ⟨objects, rest⟩ := ih others
    exact ⟨ms :: objects, .cons here rest⟩

theorem isCommand_of_mem {cmds : List Api.Command} {objects : List (List Member)}
    (each : List.Forall₂ HasMembers cmds objects) : ∀ ms ∈ objects, ∃ json, IsCommand json ms := by
  induction each with
  | nil => exact fun ms mem => absurd mem List.not_mem_nil
  | cons formed _ ih => exact List.forall_mem_cons.mpr ⟨⟨_, formed.1⟩, ih⟩

/-- The body of a request that has commands. -/
theorem wellFormedBody_of_members {q : Api.HttpReq} (body : q.out = Api.Request.get q.cmds)
    (some_command : q.cmds ≠ []) (each : ∀ c ∈ q.cmds, ∃ ms, HasMembers c ms) :
    WellFormedBody q := by
  obtain ⟨objects, formed⟩ := exists_forall₂ each
  have text := body.trans (get_eq formed)
  refine ⟨objects, ?_, formed, text, ?_⟩
  · rintro rfl
    exact some_command (List.forall₂_nil_right_iff.mp formed)
  · rw [text]
    refine .arr fun x mem => ?_
    obtain ⟨ms, among, rfl⟩ := List.mem_map.mp mem
    obtain ⟨json, command⟩ := isCommand_of_mem formed ms among
    exact .obj (fun m mem => (command.members m mem).1) fun m mem => (command.members m mem).2

/-- What is queued has members, and what was posted was put together from them. -/
structure Composed (s : Api.Client) : Prop where
  queued : ∀ r, ∀ c ∈ s.reqs r, ∃ ms, HasMembers c ms
  posted : ∀ q ∈ s.log.posted, WellFormedBody q

namespace Composed
variable {s : Api.Client}

theorem add (composed : Composed s) {json : Bytes} {fetch : Bool}
    (members : ∃ ms, IsCommand json ms ∧ json = separated (ms.map member)) :
    Composed (s.add json fetch) where
  queued r c mem := by
    rcases Api.PairInv.mem_add mem with old | ⟨_, rfl⟩
    · exact composed.queued r c old
    · exact members
  posted := composed.posted

/-- The text that `fetchnodes` queues is that of its command. -/
theorem fetchNodes_written : Written (ascii "\"a\":\"f\",\"c\":1,\"r\":1") := by
  refine ⟨bareSender, .fetchNodes, fun _ => 0, ?_⟩
  refine ⟨⟨ascii "\"a\":\"f\",\"c\":1,\"r\":1", -1, fun _ => 0⟩,
    fun x mem => absurd mem List.not_mem_nil, ?_, rfl⟩
  rfl

theorem fetchNodes (composed : Composed s) (cached : Bool) : Composed (s.fetchNodes cached) := by
  rw [Api.Client.fetchNodes]
  split
  · exact composed
  split
  · exact composed
  · have purged : Composed { s.init with fetchingNodes := true } :=
      ⟨composed.queued, composed.posted⟩
    exact purged.add fetchNodes_written.members

theorem callbacks (composed : Composed s) {calls : List Api.Callback}
    (written : ∀ call ∈ calls, CallbackWritten call) :
    Composed (calls.foldl Api.Client.callback s) := by
  induction calls generalizing s with
  | nil => exact composed
  | cons call rest ih =>
    obtain ⟨first, others⟩ := List.forall_mem_cons.mp written
    refine ih ?_ others
    cases call with
    | add json => exact composed.add first.members
    | fetchNodes cached => exact composed.fetchNodes cached

theorem procCommands (composed : Composed s) (cmds : List Api.Command)
    {callbacks : List (List Api.Callback)}
    (written : ∀ calls ∈ callbacks, ∀ call ∈ calls, CallbackWritten call) :
    Composed (Api.Client.procCommands cmds callbacks s) := by
  induction cmds generalizing s callbacks with
  | nil => exact composed
  | cons c rest ih =>
    have first : ∀ call ∈ callbacks.headD [], CallbackWritten call := by
      cases callbacks with
      | nil => exact fun call mem => absurd mem List.not_mem_nil
      | cons calls callbacks => exact written calls List.mem_cons_self
    have others : ∀ calls ∈ callbacks.tail, ∀ call ∈ calls, CallbackWritten call :=
      fun calls mem => written calls (List.mem_of_mem_tail mem)
    have fetched : Composed { s with fetchingNodes := false } :=
      ⟨composed.queued, composed.posted⟩
    rw [Api.Client.procCommands]
    split
    · exact ih (fetched.callbacks first) others
    · exact ih (composed.callbacks first) others

theorem handlePending (composed : Composed s) (ds : DsTime)
    {callbacks : List (List Api.Callback)}
    (written : ∀ calls ∈ callbacks, ∀ call ∈ calls, CallbackWritten call) :
    Composed (s.handlePending ds callbacks) := by
  rcases s.handlePending_cases ds callbacks with same | ⟨q, -, -, same⟩ | ⟨q, -, -, same⟩
  · rw [same]
    exact composed
  · have logged : Composed (s.logResult q) := ⟨composed.queued, composed.posted⟩
    have after := logged.procCommands (s.reqs (!s.r)) written
    rw [same]
    refine ⟨fun r c mem => ?_, after.posted⟩
    by_cases emptied : r = !(Api.Client.procCommands (s.reqs (!s.r)) callbacks (s.logResult q)).r
    · subst emptied
      simp [Api.Client.succeed, Api.Client.procResult] at mem
    · refine after.queued r c ?_
      simpa [Api.Client.succeed, Api.Client.procResult, Function.update_of_ne emptied] using mem
  · rw [same]
    exact ⟨composed.queued, composed.posted⟩

theorem post (composed : Composed s) (postOk : Bool) (some_command : s.reqs s.r ≠ []) :
    Composed (s.post postOk) where
  queued := composed.queued
  posted q mem := by
    rcases List.mem_cons.mp mem with rfl | old
    · exact wellFormedBody_of_members rfl some_command (composed.queued s.r)
    · exact composed.posted q old

theorem submit (composed : Composed s) (ds : DsTime) (postOk : Bool) :
    Composed (s.submit ds postOk) := by
  rw [Api.Client.submit]
  split
  · have flipped : Composed (if s.btcs.nextSet ≠ 0 then { s with r := !s.r } else s) := by
      split
      · exact ⟨composed.queued, composed.posted⟩
      · exact composed
    generalize (if s.btcs.nextSet ≠ 0 then { s with r := !s.r } else s) = s' at flipped ⊢
    dsimp only
    split
    · rename_i some_command
      exact flipped.post postOk some_command
    · exact ⟨flipped.queued, flipped.posted⟩
  · exact composed

/-- Every event keeps the requests well-formed. -/
theorem step (composed : Composed s) {e : Api.Event} (written : EventWritten e) :
    Composed (s.step e) := by
  cases e with
  | add json => exact composed.add written.members
  | fetchNodes cached => exact composed.fetchNodes cached
  | arrive ok input =>
    rw [Api.Client.step, Api.Client.arrive]
    split
    · split
      · exact ⟨composed.queued, composed.posted⟩
      · exact composed
    · exact composed
  | pass ds postOk callbacks =>
    have pending := composed.handlePending ds written
    rw [Api.Client.step, Api.Client.pass]
    split
    · exact pending
    · exact pending.submit ds postOk
  | wait ds =>
    rw [Api.Client.step]
    split
    · exact ⟨composed.queued, composed.posted⟩
    · exact composed
  | abortBackoff ds => exact ⟨composed.queued, composed.posted⟩

theorem start (reqid : Bytes) : Composed (Api.Client.start reqid) where
  queued _ _ mem := absurd mem List.not_mem_nil
  posted _ mem := absurd mem List.not_mem_nil

end Composed

/-- In every run, whatever fails and is repeated, each body that is posted is well-formed. -/
theorem posted_wellFormed (reqid : Bytes) (events : List Api.Event)
    (written : ∀ e ∈ events, EventWritten e) :
    ∀ q ∈ (run Api.Client.step (Api.Client.start reqid) events).log.posted, WellFormedBody q := by
  have meets := @meets_of_forall _ _ Api.Client.step _ _ written (Api.Client.start reqid)
  exact (run_invariant Composed (fun s e composed => composed.step) (.start reqid) meets).posted

def deletionText : Bytes := ascii "\"a\":\"d\",\"i\":\"abcdefghij\",\"n\":\"AQAAAAAA\""

theorem written_deletion : Written deletionText := by
  refine ⟨bareSender, .delNode 1, fun _ => 0, ⟨deletionText, -1, fun _ => 0⟩, ?_, ?_, rfl⟩
  · exact fun x mem => absurd mem List.not_mem_nil
  · rfl

/-- The deletion is posted, fails and is posted again. -/
def deletionEvents : List Api.Event :=
  [.add deletionText, .pass 1 true [], .arrive false [], .pass 2 true [], .pass 40 true []]

theorem posted_deletion :
    (run Api.Client.step (Api.Client.start (ascii "aaaaaaaaaa")) deletionEvents).log.posted.map
        Api.HttpReq.out = List.replicate 2 (array [openObject :: deletionText ++ [closeObject]]) ∧
      ∀ q ∈ (run Api.Client.step (Api.Client.start (ascii "aaaaaaaaaa")) deletionEvents).log.posted,
        WellFormedBody q := by
  refine ⟨by decide +kernel, posted_wellFormed _ _ ?_⟩
  simp [deletionEvents, EventWritten, written_deletion]

end MegaSdk.Server
