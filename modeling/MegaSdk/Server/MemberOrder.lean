import MegaSdk.Lib.Registers
import MegaSdk.Json.PackedNames
import MegaSdk.Server.Isolation

/-!
# The order of the members of a packet

megaclient.cpp, `MegaClient::sc_updatenode`. The handlers go through the members of a packet
and assign them to local variables. Most of these are registers, which no order changes; `tmd`
is added to the timestamp that was read so far.
-/

namespace MegaSdk.Server.MemberOrder

open Json Registers

structure Distinct (ms : List Member) : Prop where
  legible : Legible ms
  named : ∀ m ∈ ms, m.1 ≠ []
  names : (ms.map Prod.fst).Nodup

theorem Distinct.perm {ms ms' : List Member} (packet : Distinct ms) (perm : ms.Perm ms') :
    Distinct ms' where
  legible m mem := packet.legible m (perm.mem_iff.mpr mem)
  named m mem := packet.named m (perm.mem_iff.mpr mem)
  names := (perm.map Prod.fst).nodup_iff.mp packet.names

theorem Distinct.tail {m : Member} {ms : List Member} (packet : Distinct (m :: ms)) :
    Distinct ms where
  legible := packet.legible.tail
  named m' mem := packet.named m' (List.mem_cons_of_mem m mem)
  names := (List.nodup_cons.mp packet.names).2

/-- The members that the handlers know by name have that name. -/
theorem nameid_iff {m : Member} (plain : Plain m.1) {name : Bytes} (nonzero : (0 : UInt8) ∉ name)
    (short : name.length < 8) : nameid m.1 = nameid name ↔ m.1 = name :=
  nameid_eq_iff (literalFrom_nonzero plain.1) nonzero short

/-- The rest of a packet whose first member was read. -/
def body (ms : List Member) (rest : Text) : Text :=
  separated (ms.map member) ++ closeObject :: rest

def Before (x y : String) (ms : List Member) : Prop :=
  [ascii x, ascii y].Sublist (ms.map Prod.fst)

instance (x y : String) (ms : List Member) : Decidable (Before x y ms) :=
  inferInstanceAs (Decidable (List.Sublist _ _))

/-- What a value is read as, whatever follows it. -/
def valueOf (kind : Kind) (v : Bytes) : Value := (kind.read (v ++ [comma])).1

theorem read_valueOf {kind : Kind} {v : Bytes} (value : IsValue v) (exact : kind.Exact True v)
    {rest : Text} (stop : Stop rest) : kind.read (v ++ rest) = (valueOf kind v, rest) := by
  have admissible : Follow.Admissible True Stop :=
    ⟨fun _ stop => stop, fun none => absurd trivial none⟩
  obtain ⟨x, reads⟩ := kind.read_exact value exact admissible
  rw [valueOf, reads rest stop, reads [comma] stop_comma]

def assigned (columns : Columns) (m : Member) : Option (UInt64 × Value) :=
  (columns.kind (nameid m.1)).map fun kind => (nameid m.1, valueOf kind m.2)

section Assigning
variable {σ : Type} {handler : Handler σ} (assigning : handler.calls = []) {ms : List Member}
  (packet : Distinct ms)
  (exact : ∀ m ∈ ms, ∀ kind, handler.columns.kind (nameid m.1) = some kind → kind.Exact True m.2)
include assigning packet exact

/-- The loop of a handler without calls makes the assignments in the order of the members. -/
theorem run_assigning (locals : Locals) (t : σ) :
    Run anything handler.cases (locals, t) ms .ended
      (locals ++ ms.filterMap (assigned handler.columns), t) [] := by
  have cases_eq : ∀ id, handler.cases id = handler.columns.cases id := by
    intro id
    simp [Handler.cases, Handler.call, assigning]
  induction ms generalizing locals with
  | nil =>
    rw [List.filterMap_nil, List.append_nil]
    exact .nil
  | cons m ms ih =>
    have more := ih packet.tail fun m' mem => exact m' (List.mem_cons_of_mem m mem)
    have named := packet.named m List.mem_cons_self
    cases found : handler.columns.kind (nameid m.1) with
    | none =>
      have other : handler.cases (nameid m.1) = none := by
        rw [cases_eq, Columns.cases, found, Option.map_none]
      have skips : assigned handler.columns m = none := by rw [assigned, found, Option.map_none]
      rw [List.filterMap_cons_none skips]
      exact .skipped (packet.legible m List.mem_cons_self) named other (more locals)
    | some kind =>
      have case : handler.cases (nameid m.1) = some (kind.assign (nameid m.1)) := by
        rw [cases_eq, Columns.cases, found, Option.map_some]
      have assigns : assigned handler.columns m = some (nameid m.1, valueOf kind m.2) := by
        rw [assigned, found, Option.map_some]
      have next := more (locals ++ [(nameid m.1, valueOf kind m.2)])
      rw [List.append_assoc, List.singleton_append] at next
      rw [List.filterMap_cons_some assigns]
      refine .read (packet.legible m List.mem_cons_self) named case ?_ next
      rintro _ ⟨rest, -, rfl⟩
      rw [Kind.assign, read_valueOf (packet.legible m List.mem_cons_self).2
        (exact m List.mem_cons_self kind found) (stop_commas_closeObject _ rest)]

theorem run_body (t : σ) (rest : Text) : handler.run t (body ms rest) =
    .ok (handler.finish (ms.filterMap (assigned handler.columns)) t, closeObject :: rest) := by
  have run := run_assigning assigning packet exact [] t
  rw [Handler.run, body, members_run run trivial]
  rfl

end Assigning

/-- The `changed` flags of a node that its update sets. -/
@[ext]
structure Changed where
  owner : Bool
  attrs : Bool
  clienttimestamp : Bool
  ctime : Bool
  deriving DecidableEq, Repr

@[ext]
structure Node where
  owner : Handle
  attrstring : Bytes
  clienttimestamp : Int64
  ctime : Int64
  changed : Changed
  notified : Bool
  deriving DecidableEq, Repr

/-- The session as the two handlers see it, with the calls of `userattr_update` so far. The
keys, the attributes and the fingerprints of the nodes are among the others. -/
structure Session (ρ : Type) where
  nodes : Bytes → Option Node
  users : Handle → Bool
  nodenotify : List Bytes
  app : List (Handle × Bool × Bytes)
  others : ρ

/-- The local variables of `sc_updatenode`; `a` has the text that the pointer leads to. -/
@[ext]
structure Variables where
  h : Handle := none
  u : Handle := some (List.replicate 8 0)
  a : Option Bytes := none
  ts : Int64 := -1
  tm : Int64 := -1

/-- An assignment of the switch; `tmd` counts from the timestamp that was read so far. -/
def Variables.assign (s : Variables) : UInt64 × Value → Variables
  | (id, .handle h) =>
    if id = nameid (ascii "n") then { s with h := h }
    else if id = nameid (ascii "u") then { s with u := h } else s
  | (id, .text a) => if id = nameid (ascii "at") then { s with a := some a } else s
  | (id, .number i) =>
    if id = nameid (ascii "ts") then { s with ts := Int64.ofInt i }
    else if id = nameid (ascii "tmd") then { s with tm := s.ts + Int64.ofInt i } else s
  | _ => s

def Variables.of (locals : Locals) : Variables := locals.foldl assign {}

namespace Node

def setowner (u : Handle) (n : Node) : Node :=
  if isNull u then n else { n with owner := u, changed := { n.changed with owner := true } }

def setattrstring (a : Option Bytes) (n : Node) : Node :=
  a.elim n fun a => { n with attrstring := a, changed := { n.changed with attrs := true } }

/-- `if (tm + 1)`. -/
def setclienttimestamp (tm : Int64) (n : Node) : Node :=
  if tm + 1 = 0 then n
  else { n with clienttimestamp := tm, changed := { n.changed with clienttimestamp := true } }

def setctime (ts : Int64) (n : Node) : Node :=
  if ts + 1 = 0 then n else { n with ctime := ts, changed := { n.changed with ctime := true } }

def update (s : Variables) (n : Node) : Node :=
  (((n.setowner s.u).setattrstring s.a).setclienttimestamp s.tm).setctime s.ts

end Node

namespace Session
variable {ρ : Type}

def put (h : Bytes) (n : Node) (t : Session ρ) : Session ρ :=
  { t with nodes := Function.update t.nodes h (some n) }

/-- The end of `notifynode`. -/
def notify (h : Bytes) (n : Node) (t : Session ρ) : Session ρ :=
  if n.notified then t.put h n
  else { t.put h { n with notified := true } with nodenotify := t.nodenotify ++ [h] }

variable (settle : Session ρ → Bytes → Bytes × ρ)

/-- The end of `sc_updatenode`, from `applykey` on. Together with `setattr` and what `notifynode`
does to the local tree it is the parameter: the attribute text that these leave, and the
others. -/
def finish (h : Bytes) (n : Node) (t : Session ρ) : Session ρ :=
  let settled := settle (t.put h n) h
  { t with others := settled.2 }.notify h { n with attrstring := settled.1 }

/-- `EOO` of `sc_updatenode`. -/
def updatenode (s : Variables) (t : Session ρ) : Session ρ :=
  match s.h with
  | none => t
  | some h =>
    match t.nodes h with
    | none => t
    | some n => t.finish settle h (n.update s)

def perform : Call → Session ρ → Session ρ
  | .updatenode locals, t => t.updatenode settle (.of locals)
  | .userattr uh isprivate name, t => { t with app := t.app ++ [(uh, isprivate, name)] }
  | _, t => t

def client : Client (Session ρ) where
  perform := perform settle
  nodebyhandle t h := (h.bind t.nodes).isSome
  finduser t h := t.users h
  fafc _ _ := false
  sharekey _ _ := false
  merges _ _ := false
  sessionid := []
  letters := forall_mem_of_all rfl
  requests call t h requests := by
    cases call
    case updatenode => exact absurd requests id
    all_goals rfl

end Session

def handleIn (size : Nat) (v : Bytes) : Handle := handleOf size (Base64.atob (skip quote v) 9)

def number (v : Bytes) : Int64 := Int64.ofInt (atoll (skip quote v))

section Values
variable {v : Bytes} (value : IsValue v)
include value

theorem valueOf_handle (string : peek v = quote) (size : Nat) :
    valueOf (.handle size) v = .handle (handleIn size v) := by
  rw [valueOf, Kind.read, gethandle_value value string stop_comma, handleIn]

theorem valueOf_value (quoted : quote ∈ skip quote v) :
    valueOf .value v = .text (nameChars (skip quote v)) := by
  rw [valueOf, Kind.read, getvalue_value value quoted (Stop.ends stop_comma)]

theorem valueOf_int (numeric : Numeric v) : valueOf .int v = .number (atoll (skip quote v)) := by
  rw [valueOf, Kind.read, getint_value value numeric stop_comma]

end Values

/-- The members of a node update, with values that are read in full. -/
structure NodePacket (ms : List Member) : Prop where
  distinct : Distinct ms
  handles : ∀ m ∈ ms, m.1 = ascii "n" ∨ m.1 = ascii "u" → peek m.2 = quote
  attributes : ∀ m ∈ ms, m.1 = ascii "at" → quote ∈ skip quote m.2
  numbers : ∀ m ∈ ms, m.1 = ascii "ts" ∨ m.1 = ascii "tmd" → Numeric m.2

theorem NodePacket.perm {ms ms' : List Member} (packet : NodePacket ms) (perm : ms.Perm ms') :
    NodePacket ms' where
  distinct := packet.distinct.perm perm
  handles m mem := packet.handles m (perm.mem_iff.mpr mem)
  attributes m mem := packet.attributes m (perm.mem_iff.mpr mem)
  numbers m mem := packet.numbers m (perm.mem_iff.mpr mem)

def Variables.read (s : Variables) (m : Member) : Variables :=
  if m.1 = ascii "n" then { s with h := handleIn 6 m.2 }
  else if m.1 = ascii "u" then { s with u := handleIn 8 m.2 }
  else if m.1 = ascii "at" then { s with a := some (nameChars (skip quote m.2)) }
  else if m.1 = ascii "ts" then { s with ts := number m.2 }
  else if m.1 = ascii "tmd" then { s with tm := s.ts + number m.2 }
  else s

section Updates
variable {ρ : Type} (settle : Session ρ → Bytes → Bytes × ρ) {ms ms' : List Member}

theorem updatenode_kind {m : Member} (plain : Plain m.1) :
    (scUpdatenode (Session.client settle)).columns.kind (nameid m.1) =
      if m.1 = ascii "n" then some (.handle 6)
      else if m.1 = ascii "u" then some (.handle 8)
      else if m.1 = ascii "at" then some .value
      else if m.1 = ascii "ts" then some .int
      else if m.1 = ascii "tmd" then some .int else none := by
  split_ifs with n u at' ts tmd
  · rw [n]
    rfl
  · rw [u]
    rfl
  · rw [at']
    rfl
  · rw [ts]
    rfl
  · rw [tmd]
    rfl
  · have differs : ∀ name : String, (0 : UInt8) ∉ ascii name → (ascii name).length < 8 →
        m.1 ≠ ascii name → ¬decide (nameid (ascii name) = nameid m.1) = true := by
      intro name nonzero short other same
      exact other ((nameid_iff plain nonzero short).mp (of_decide_eq_true same).symm)
    rw [Columns.kind, Option.map_eq_none_iff, List.find?_eq_none]
    intro column listed
    simp only [scUpdatenode, List.mem_cons, List.not_mem_nil, or_false] at listed
    rcases listed with rfl | rfl | rfl | rfl | rfl
    · exact differs "n" (by decide) (by decide) n
    · exact differs "u" (by decide) (by decide) u
    · exact differs "at" (by decide) (by decide) at'
    · exact differs "ts" (by decide) (by decide) ts
    · exact differs "tmd" (by decide) (by decide) tmd

theorem NodePacket.exact (packet : NodePacket ms) : ∀ m ∈ ms, ∀ kind,
    (scUpdatenode (Session.client settle)).columns.kind (nameid m.1) = some kind →
      kind.Exact True m.2 := by
  intro m mem kind found
  rw [updatenode_kind settle (packet.distinct.legible m mem).1] at found
  split_ifs at found with n u at' ts tmd
  · cases found
    exact packet.handles m mem (.inl n)
  · cases found
    exact packet.handles m mem (.inr u)
  · cases found
    exact fun _ => packet.attributes m mem at'
  · cases found
    exact packet.numbers m mem (.inl ts)
  · cases found
    exact packet.numbers m mem (.inr tmd)

/-- An assignment of the handler is what the member does by its name. -/
theorem NodePacket.assign_eq (packet : NodePacket ms) {m : Member} (mem : m ∈ ms)
    (s : Variables) :
    ((assigned (scUpdatenode (Session.client settle)).columns m).elim s s.assign) = s.read m := by
  obtain ⟨plain, value⟩ := packet.distinct.legible m mem
  rw [assigned, updatenode_kind settle plain, Variables.read]
  split_ifs with n u at' ts tmd
  · rw [Option.map_some, valueOf_handle value (packet.handles m mem (.inl n)), n]
    rfl
  · rw [Option.map_some, valueOf_handle value (packet.handles m mem (.inr u)), u]
    rfl
  · rw [Option.map_some, valueOf_value value (packet.attributes m mem at'), at']
    rfl
  · rw [Option.map_some, valueOf_int value (packet.numbers m mem (.inl ts)), ts]
    rfl
  · rw [Option.map_some, valueOf_int value (packet.numbers m mem (.inr tmd)), tmd]
    rfl
  · rfl

/-- The local variables are read from the members one by one. -/
theorem NodePacket.variables_eq (packet : NodePacket ms) :
    Variables.of (ms.filterMap (assigned (scUpdatenode (Session.client settle)).columns)) =
      ms.foldl Variables.read {} := by
  rw [Variables.of, List.foldl_filterMap]
  refine List.foldl_ext _ _ _ fun s m mem => ?_
  rw [← packet.assign_eq settle mem s]
  cases assigned (scUpdatenode (Session.client settle)).columns m <;> rfl

theorem register_h : Register Variables.read (ascii "n") Variables.h (handleIn 6) where
  own s v := rfl
  other s m differs := by
    rw [Variables.read, if_neg differs]
    split_ifs <;> rfl

theorem register_u : Register Variables.read (ascii "u") Variables.u (handleIn 8) where
  own s v := rfl
  other s m differs := by
    rw [Variables.read, if_neg differs]
    split_ifs <;> rfl

theorem register_a :
    Register Variables.read (ascii "at") Variables.a fun v => some (nameChars (skip quote v)) where
  own s v := rfl
  other s m differs := by
    rw [Variables.read, if_neg differs]
    split_ifs <;> rfl

theorem register_ts : Register Variables.read (ascii "ts") Variables.ts number where
  own s v := rfl
  other s m differs := by
    rw [Variables.read, if_neg differs]
    split_ifs <;> rfl

theorem combined_tm : Combined Variables.read (ascii "tmd") Variables.tm Variables.ts
    fun ts v => ts + number v where
  own s v := rfl
  other s m differs := by
    rw [Variables.read, if_neg differs]
    split_ifs <;> rfl

/-- In another order, only the client timestamp may be read differently. -/
theorem foldl_read_perm (distinct : Distinct ms) (perm : ms.Perm ms') :
    ms'.foldl Variables.read {} =
      { ms.foldl Variables.read {} with tm := (ms'.foldl Variables.read {}).tm } := by
  have h := register_h.foldl_perm distinct.names perm {}
  have u := register_u.foldl_perm distinct.names perm {}
  have a := register_a.foldl_perm distinct.names perm {}
  have ts := register_ts.foldl_perm distinct.names perm {}
  exact Variables.ext h.symm u.symm a.symm ts.symm rfl

end Updates

/-- The node has the client timestamp, and the flag for it. -/
def Node.Stamped (n : Node) (tm : Int64) : Prop :=
  n.clienttimestamp = tm ∧ n.changed.clienttimestamp = true

instance (n : Node) (tm : Int64) : Decidable (n.Stamped tm) := inferInstanceAs (Decidable (_ ∧ _))

theorem Node.stamped_front (n : Node) (u : Handle) (a : Option Bytes) (tm : Int64) :
    ((n.setowner u).setattrstring a).Stamped tm ↔ n.Stamped tm := by
  rw [setowner]
  cases a <;> split_ifs <;> rfl

/-- Whether a node is the same after two updates is seen at its client timestamp. -/
theorem Node.update_ext {n : Node} {s : Variables} {a b : Int64}
    (stamp : (n.update { s with tm := a }).clienttimestamp =
      (n.update { s with tm := b }).clienttimestamp)
    (flag : (n.update { s with tm := a }).changed = (n.update { s with tm := b }).changed) :
    n.update { s with tm := a } = n.update { s with tm := b } := by
  revert stamp flag
  simp only [update, setctime, setclienttimestamp]
  generalize (n.setowner s.u).setattrstring s.a = front
  intro stamp flag
  split_ifs at stamp flag ⊢ <;> exact Node.ext rfl rfl stamp rfl flag rfl

theorem Node.update_eq_iff (n : Node) (s : Variables) (a b : Int64) :
    n.update { s with tm := a } = n.update { s with tm := b } ↔
      a = b ∨ (a = -1 ∧ n.Stamped b) ∨ (b = -1 ∧ n.Stamped a) := by
  have none : ∀ x : Int64, x + 1 = 0 ↔ x = -1 := by grind
  simp only [update, setctime, setclienttimestamp, none, ← n.stamped_front s.u s.a]
  generalize (n.setowner s.u).setattrstring s.a = front
  by_cases first : a = -1 <;> by_cases second : b = -1
  · simp [first, second]
  · rw [if_pos first, if_neg second]
    have differ : ¬-1 = b := fun same => second same.symm
    split_ifs <;> simp [Node.ext_iff, Changed.ext_iff, Stamped, first, second, differ]
  · rw [if_neg first, if_pos second]
    have turned : a = front.clienttimestamp ↔ front.clienttimestamp = a := eq_comm
    split_ifs <;> simp [Node.ext_iff, Changed.ext_iff, Stamped, first, second, turned]
  · rw [if_neg first, if_neg second]
    split_ifs <;> simp [Node.ext_iff, first, second]

/-- Two orders have the same effect: the same state, with the same notifications. -/
def Alike {σ : Type} (handler : Handler σ) (t : σ) (ms ms' : List Member) (rest : Text) : Prop :=
  ∃ t' left left', handler.run t (body ms rest) = .ok (t', left) ∧
    handler.run t (body ms' rest) = .ok (t', left')

theorem alike_iff {σ : Type} {handler : Handler σ} {t a b : σ} {ms ms' : List Member}
    {rest left left' : Text} (first : handler.run t (body ms rest) = .ok (a, left))
    (second : handler.run t (body ms' rest) = .ok (b, left')) :
    Alike handler t ms ms' rest ↔ a = b := by
  constructor
  · rintro ⟨t', s, s', one, two⟩
    have one := Except.ok.inj (first.symm.trans one)
    have two := Except.ok.inj (second.symm.trans two)
    exact (congrArg Prod.fst one).trans (congrArg Prod.fst two).symm
  · rintro rfl
    exact ⟨a, left, left', first, second⟩

/-- The client timestamp is the same with `ts` and without it: it is -1, or one of the two sums is
-1, which is not assigned, and the node has the other one already. -/
def Indifferent (n : Node) (x d : Int64) : Prop :=
  x = -1 ∨ (x + d = -1 ∧ n.Stamped (-1 + d)) ∨ (-1 + d = -1 ∧ n.Stamped (x + d))

instance (n : Node) (x d : Int64) : Decidable (Indifferent n x d) :=
  inferInstanceAs (Decidable (_ ∨ _ ∨ _))

/-- In both orders `tmd` stands on the same side of `ts`, unless the node is not known or does not
tell the two apart. -/
def NodeOrder {ρ : Type} (t : Session ρ) (ms ms' : List Member) : Prop :=
  ∀ v x d h n, (ascii "n", v) ∈ ms → (ascii "ts", x) ∈ ms → (ascii "tmd", d) ∈ ms →
    handleIn 6 v = some h → t.nodes h = some n →
      (Before "ts" "tmd" ms ↔ Before "ts" "tmd" ms') ∨ Indifferent n (number x) (number d)

section NodeOrders
variable {ρ : Type} (settle : Session ρ → Bytes → Bytes × ρ) {t : Session ρ}

/-- The node has the client timestamp of its update, whatever follows it. -/
theorem finish_nodes (h : Bytes) (n : Node) : ∃ n', (t.finish settle h n).nodes h = some n' ∧
    n'.clienttimestamp = n.clienttimestamp ∧ n'.changed = n.changed := by
  simp only [Session.finish, Session.notify]
  split_ifs
  · exact ⟨_, Function.update_self .., rfl, rfl⟩
  · exact ⟨_, Function.update_self .., rfl, rfl⟩

theorem updatenode_known {s : Variables} {h : Bytes} {n : Node} (named : s.h = some h)
    (known : t.nodes h = some n) : t.updatenode settle s = t.finish settle h (n.update s) := by
  simp only [Session.updatenode, named, known]

theorem updatenode_unknown {s : Variables} (unknown : s.h.bind t.nodes = none) :
    t.updatenode settle s = t := by
  rw [Session.updatenode]
  cases named : s.h with
  | none => rfl
  | some h =>
    rw [named] at unknown
    have missing : t.nodes h = none := unknown
    simp only [missing]

theorem updatenode_eq_iff (s : Variables) (a b : Int64) :
    t.updatenode settle { s with tm := a } = t.updatenode settle { s with tm := b } ↔
      ∀ h n, s.h = some h → t.nodes h = some n →
        n.update { s with tm := a } = n.update { s with tm := b } := by
  constructor
  · intro same h n named known
    rw [updatenode_known settle (s := { s with tm := a }) named known,
      updatenode_known settle (s := { s with tm := b }) named known] at same
    obtain ⟨x, first, stamp, flag⟩ := finish_nodes settle (t := t) h (n.update { s with tm := a })
    obtain ⟨y, second, stamp', flag'⟩ :=
      finish_nodes settle (t := t) h (n.update { s with tm := b })
    rw [same, second] at first
    cases first
    exact Node.update_ext (stamp.symm.trans stamp') (flag.symm.trans flag')
  · intro same
    cases found : s.h.bind t.nodes with
    | none =>
      rw [updatenode_unknown settle (s := { s with tm := a }) found,
        updatenode_unknown settle (s := { s with tm := b }) found]
    | some n =>
      obtain ⟨h, named, known⟩ := Option.bind_eq_some_iff.mp found
      rw [updatenode_known settle (s := { s with tm := a }) named known,
        updatenode_known settle (s := { s with tm := b }) named known, same h n named known]

variable {ms ms' : List Member}

/-- What the members make of the client timestamp. -/
theorem foldl_read_tm (distinct : Distinct ms) {x d : Bytes} (ts : (ascii "ts", x) ∈ ms)
    (tmd : (ascii "tmd", d) ∈ ms) : (ms.foldl Variables.read {}).tm =
      (if Before "ts" "tmd" ms then number x else -1) + number d := by
  split_ifs with before
  · exact combined_tm.foldl_of_before register_ts distinct.names tmd ts before {}
  · exact combined_tm.foldl_of_not_before register_ts distinct.names tmd before {}

theorem updatenode_run (packet : NodePacket ms) (rest : Text) :
    (scUpdatenode (Session.client settle)).run t (body ms rest) =
      .ok (t.updatenode settle (ms.foldl Variables.read {}), closeObject :: rest) := by
  rw [run_body rfl packet.distinct (packet.exact settle), ← packet.variables_eq settle]
  rfl

theorem Before.mem {x y : String} (before : Before x y ms) :
    (∃ v, (ascii x, v) ∈ ms) ∧ ∃ w, (ascii y, w) ∈ ms := by
  have first : ascii x ∈ ms.map Prod.fst := before.subset (by simp)
  have second : ascii y ∈ ms.map Prod.fst := before.subset (by simp)
  exact ⟨exists_of_name first, exists_of_name second⟩

/-- Two members that change sides are both there. -/
theorem mem_of_turned {x y : String} (perm : ms.Perm ms')
    (turned : ¬(Before x y ms ↔ Before x y ms')) :
    (∃ v, (ascii x, v) ∈ ms) ∧ ∃ w, (ascii y, w) ∈ ms := by
  by_cases before : Before x y ms
  · exact before.mem
  · have before' : Before x y ms' := not_not.mp fun behind => turned (iff_of_false before behind)
    obtain ⟨⟨v, first⟩, w, second⟩ := before'.mem
    exact ⟨⟨v, perm.mem_iff.mpr first⟩, w, perm.mem_iff.mpr second⟩

theorem foldl_read_tm_eq (distinct : Distinct ms) (perm : ms.Perm ms')
    (same : Before "ts" "tmd" ms ↔ Before "ts" "tmd" ms') :
    (ms.foldl Variables.read {}).tm = (ms'.foldl Variables.read {}).tm := by
  have distinct' := distinct.perm perm
  by_cases listed : ascii "tmd" ∈ ms.map Prod.fst
  · obtain ⟨d, tmd⟩ := exists_of_name listed
    have tmd' := perm.mem_iff.mp tmd
    by_cases before : Before "ts" "tmd" ms
    · obtain ⟨⟨x, ts⟩, -⟩ := before.mem
      rw [foldl_read_tm distinct ts tmd, foldl_read_tm distinct' (perm.mem_iff.mp ts) tmd',
        if_pos before, if_pos (same.mp before)]
    · rw [combined_tm.foldl_of_not_before register_ts distinct.names tmd before {},
        combined_tm.foldl_of_not_before register_ts distinct'.names tmd'
          (fun before' => before (same.mpr before')) {}]
  · have missing : ascii "tmd" ∉ ms'.map Prod.fst :=
      fun mem => listed ((perm.map Prod.fst).mem_iff.mpr mem)
    rw [foldl_missing combined_tm.other listed, foldl_missing combined_tm.other missing]

theorem Node.update_sums_iff (n : Node) (s : Variables) (x d : Int64) :
    n.update { s with tm := x + d } = n.update { s with tm := -1 + d } ↔ Indifferent n x d := by
  have cancels : x + d = -1 + d ↔ x = -1 := by grind
  rw [update_eq_iff, cancels, Indifferent]

/-- The order of the members of a node update does not matter if and only if it is the same for
`ts` and `tmd`, or the node does not tell the difference. -/
theorem alike_updatenode_iff (packet : NodePacket ms) (perm : ms.Perm ms') (rest : Text) :
    Alike (scUpdatenode (Session.client settle)) t ms ms' rest ↔ NodeOrder t ms ms' := by
  have distinct := packet.distinct
  have distinct' := distinct.perm perm
  rw [alike_iff (updatenode_run settle packet rest) (updatenode_run settle (packet.perm perm) rest),
    foldl_read_perm distinct perm,
    updatenode_eq_iff settle (ms.foldl Variables.read {}) (ms.foldl Variables.read {}).tm]
  constructor
  · intro same v x d h n name ts tmd decoded known
    have named : (ms.foldl Variables.read {}).h = some h :=
      (register_h.foldl_mem distinct.names name {}).trans decoded
    have update := same h n named known
    rw [foldl_read_tm distinct ts tmd,
      foldl_read_tm distinct' (perm.mem_iff.mp ts) (perm.mem_iff.mp tmd)] at update
    by_cases before : Before "ts" "tmd" ms <;> by_cases before' : Before "ts" "tmd" ms'
    · exact .inl (iff_of_true before before')
    · rw [if_pos before, if_neg before', Node.update_sums_iff] at update
      exact .inr update
    · rw [if_neg before, if_pos before'] at update
      exact .inr ((Node.update_sums_iff n _ _ _).mp update.symm)
    · exact .inl (iff_of_false before before')
  · intro order h n named known
    by_cases same : Before "ts" "tmd" ms ↔ Before "ts" "tmd" ms'
    · rw [foldl_read_tm_eq distinct perm same]
    · obtain ⟨⟨x, ts⟩, d, tmd⟩ := mem_of_turned perm same
      have listed : ascii "n" ∈ ms.map Prod.fst := by
        by_contra missing
        rw [foldl_missing register_h.other missing] at named
        cases named
      obtain ⟨v, name⟩ := exists_of_name listed
      have decoded := (register_h.foldl_mem distinct.names name {}).symm.trans named
      have indifferent := (order v x d h n name ts tmd decoded known).resolve_left same
      rw [foldl_read_tm distinct ts tmd,
        foldl_read_tm distinct' (perm.mem_iff.mp ts) (perm.mem_iff.mp tmd)]
      by_cases before : Before "ts" "tmd" ms
      · have behind : ¬Before "ts" "tmd" ms' := fun before' => same (iff_of_true before before')
        rw [if_pos before, if_neg behind]
        exact (Node.update_sums_iff n _ _ _).mpr indifferent
      · have before' : Before "ts" "tmd" ms' :=
          not_not.mp fun behind => same (iff_of_false before behind)
        rw [if_neg before, if_pos before']
        exact ((Node.update_sums_iff n _ _ _).mpr indifferent).symm

end NodeOrders

end MegaSdk.Server.MemberOrder
