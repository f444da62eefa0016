import MegaSdk.Json.Containers
import MegaSdk.Server.MemberOrder

/-!
# User attribute packets

megaclient.cpp, `MegaClient::sc_userattr`: the list of attributes is announced for the user that
was read so far, and the handler returns. What the order of the members changes is then known
for both handlers that combine members.
-/

namespace MegaSdk.Server.MemberOrder

open Json Registers

/-! The elements of a list are what `storeobject` stores until it stores nothing. The bracket of the
list does not have to stop it: where the text behind the bracket evens out, it reads on.
-/

def entriesFrom : Nat → Text → List Bytes
  | 0, _ => []
  | fuel + 1, s =>
    match storeobject s with
    | (none, _) => []
    | (some ua, s) => ua :: entriesFrom fuel s

def entries (s : Text) : List Bytes := entriesFrom (s.length + 1) s

/-- An attribute has a mark in front of its name: a star if it is private. -/
def mark (ua : Bytes) : Option (Bool × Bytes) :=
  if peek ua = 43 then some (false, ua.tail)
  else if peek ua = 42 then some (true, ua.tail) else none

def marked (entries : List Bytes) : List (Bool × Bytes) := entries.filterMap mark

theorem marked_cons (ua : Bytes) (entries : List Bytes) :
    marked (ua :: entries) = (mark ua).toList ++ marked entries := by
  rw [marked, List.filterMap_cons]
  cases mark ua <;> rfl

def listed (v : Bytes) : List (Bool × Bytes) := marked (entries v.tail)

/-- The attributes that are read beyond the bracket of a list. -/
def strays (behind : Text) : List (Bool × Bytes) := marked (entries (closeArray :: behind))

theorem entriesFrom_fuel {s : Text} {fuel fuel' : Nat} (enough : s.length < fuel)
    (enough' : s.length < fuel') : entriesFrom fuel s = entriesFrom fuel' s := by
  induction fuel generalizing s fuel' with
  | zero => omega
  | succ fuel ih =>
    obtain ⟨fuel', rfl⟩ : ∃ f, fuel' = f + 1 := ⟨fuel' - 1, by omega⟩
    rw [entriesFrom, entriesFrom]
    cases first : storeobject s with
    | mk ua after =>
      cases ua with
      | none => rfl
      | some ua =>
        have shorter := length_storeobject_lt first
        exact congrArg (ua :: ·) (ih (by omega) (by omega))

theorem entries_cons {s after : Text} {ua : Bytes} (first : storeobject s = (some ua, after)) :
    entries s = ua :: entries after := by
  have shorter := length_storeobject_lt first
  rw [entries, entriesFrom, first, entries]
  exact congrArg (ua :: ·) (entriesFrom_fuel (by omega) (by omega))

theorem entries_commas {xs : List Bytes} (values : ∀ x ∈ xs, IsValue x) (rest : Text) :
    entries (commas xs ++ closeArray :: rest) = xs.map stored ++ entries (closeArray :: rest) := by
  induction xs with
  | nil => rfl
  | cons x xs ih =>
    have value := values x List.mem_cons_self
    have first : storeobject (comma :: (x ++ (commas xs ++ closeArray :: rest))) =
        (some (stored x), commas xs ++ closeArray :: rest) := by
      rw [storeobject_comma (value.starts _)]
      exact storeobject_value value (stop_commas_closeArray xs rest).ends
    rw [commas_cons, List.cons_append, List.append_assoc, entries_cons first,
      ih fun y mem => values y (List.mem_cons_of_mem x mem)]
    rfl

theorem entries_separated {xs : List Bytes} (values : ∀ x ∈ xs, IsValue x) (rest : Text) :
    entries (separated xs ++ closeArray :: rest) =
      xs.map stored ++ entries (closeArray :: rest) := by
  cases xs with
  | nil => rfl
  | cons x xs =>
    have value := values x List.mem_cons_self
    have first := storeobject_value value (stop_commas_closeArray xs rest).ends
    rw [separated, List.append_assoc, entries_cons first,
      entries_commas fun y mem => values y (List.mem_cons_of_mem x mem)]
    rfl

/-- A list is read in full, and then what is behind its bracket. -/
theorem marked_entries {v : Bytes} (value : IsValue v) (list : peek v = openArray) (behind : Text) :
    marked (entries (v.tail ++ behind)) = listed v ++ strays behind := by
  obtain ⟨xs, rfl, values⟩ := value.exists_array list
  have alone : entries [closeArray] = [] := rfl
  have text : (array xs).tail = separated xs ++ [closeArray] := rfl
  rw [listed, strays, text, entries_separated values [], alone, List.append_nil, List.append_assoc,
    List.singleton_append, entries_separated values behind, marked, marked, marked,
    List.filterMap_append]

structure UserPacket (ms : List Member) : Prop where
  distinct : Distinct ms
  handles : ∀ m ∈ ms, m.1 = ascii "u" → peek m.2 = quote

theorem UserPacket.perm {ms ms' : List Member} (packet : UserPacket ms) (perm : ms.Perm ms') :
    UserPacket ms' where
  distinct := packet.distinct.perm perm
  handles m mem := packet.handles m (perm.mem_iff.mpr mem)

theorem UserPacket.tail {m : Member} {ms : List Member} (packet : UserPacket (m :: ms)) :
    UserPacket ms where
  distinct := packet.distinct.tail
  handles m' mem := packet.handles m' (List.mem_cons_of_mem m mem)

/-- The members, each with its value and the text behind it. -/
def placed : List Member → Text → List (Bytes × Bytes × Text)
  | [], _ => []
  | m :: ms, rest => (m.1, m.2, commas (ms.map member) ++ closeObject :: rest) :: placed ms rest

theorem map_fst_placed (ms : List Member) (rest : Text) :
    (placed ms rest).map Prod.fst = ms.map Prod.fst := by
  induction ms with
  | nil => rfl
  | cons m ms ih => rw [placed, List.map_cons, List.map_cons, ih]

def announcements (users : Handle → Bool) (uh : Handle) (list : Bytes × Text) :
    List (Handle × Bool × Bytes) :=
  if (uh.isSome ∧ users uh) ∧ peek list.1 = openArray then
    (marked (entries (list.1.tail ++ list.2))).map (Prod.mk uh)
  else []

/-- The user that was read so far, and the announcements. -/
structure Announcing where
  uh : Handle := none
  announced : List (Handle × Bool × Bytes) := []

def Announcing.read (users : Handle → Bool) (s : Announcing) (m : Bytes × Bytes × Text) :
    Announcing :=
  if m.1 = ascii "u" then { s with uh := handleIn 8 m.2.1 }
  else if m.1 = ascii "ua" then { s with announced := announcements users s.uh m.2 }
  else s

theorem register_uh (users : Handle → Bool) : Register (Announcing.read users) (ascii "u")
    Announcing.uh fun list => handleIn 8 list.1 where
  own s v := rfl
  other s m differs := by
    rw [Announcing.read, if_neg differs]
    split_ifs <;> rfl

theorem combined_announced (users : Handle → Bool) : Combined (Announcing.read users) (ascii "ua")
    Announcing.announced Announcing.uh (announcements users) where
  own s v := rfl
  other s m differs := by
    rw [Announcing.read, if_neg differs]
    split_ifs <;> rfl

def Session.announce {ρ : Type} (t : Session ρ) (xs : List (Handle × Bool × Bytes)) : Session ρ :=
  { t with app := t.app ++ xs }

section Lists
variable {ρ : Type} (settle : Session ρ → Bytes → Bytes × ρ)

theorem announce_nil (t : Session ρ) : t.announce [] = t := by
  rw [Session.announce, List.append_nil]

theorem announce_announce (t : Session ρ) (xs ys : List (Handle × Bool × Bytes)) :
    (t.announce xs).announce ys = t.announce (xs ++ ys) := by
  rw [Session.announce, Session.announce, Session.announce, List.append_assoc]

theorem userattrRound_entry (uh : Handle) {s after : Text} {ua : Bytes}
    (first : storeobject s = (some ua, after)) (t : Locals × Session ρ) :
    userattrRound (Session.client settle) uh t s =
      .ok (.next, (t.1, t.2.announce ((mark ua).toList.map (Prod.mk uh))), after) := by
  rw [userattrRound, first, mark]
  dsimp only
  split_ifs
  · rfl
  · rfl
  · rw [Option.toList_none, List.map_nil, announce_nil]

/-- The loop over a list announces the attributes in it. -/
theorem loopFrom_userattr (uh : Handle) {s : Text} {fuel : Nat} (enough : s.length < fuel)
    (t : Locals × Session ρ) : ∃ left,
      loopFrom (userattrRound (Session.client settle) uh) fuel t s =
        .ok (.ended, (t.1, t.2.announce ((marked (entriesFrom fuel s)).map (Prod.mk uh))), left) := by
  induction fuel generalizing s t with
  | zero => omega
  | succ fuel ih =>
    cases first : storeobject s with
    | mk ua after =>
      cases ua with
      | none =>
        have round : userattrRound (Session.client settle) uh t s = .ok (.ended, t, after) := by
          rw [userattrRound, first]
        have same : t.2.announce [] = t.2 := announce_nil t.2
        refine ⟨after, ?_⟩
        rw [loopFrom_last fuel round (by decide), entriesFrom, first, marked, List.filterMap_nil,
          List.map_nil, same]
      | some ua =>
        have shorter := length_storeobject_lt first
        have round := userattrRound_entry settle uh first t
        obtain ⟨left, more⟩ := ih (s := after) (by omega)
          (t.1, t.2.announce ((mark ua).toList.map (Prod.mk uh)))
        refine ⟨left, ?_⟩
        rw [loopFrom_next fuel round, more, announce_announce, ← List.map_append, ← marked_cons,
          entriesFrom, first]

/-- A known user's list is announced, and the handler returns. -/
theorem userattr_list {t : Locals × Session ρ} {uh : Handle}
    (read : t.1.handle (nameid (ascii "u")) = uh) {v : Bytes} (value : IsValue v)
    (entered : (uh.isSome ∧ t.2.users uh) ∧ peek v = openArray) (behind : Text) :
    ∃ left, userattr (Session.client settle) t (v ++ behind) =
      .ok (.returned, (t.1, t.2.announce (announcements t.2.users uh (v, behind))), left) := by
  obtain ⟨xs, rfl, -⟩ := value.exists_array entered.2
  have tail : (array xs).tail ++ behind = separated xs ++ closeArray :: behind := by simp [array]
  have known : uh.isSome ∧ (Session.client settle).finduser t.2 uh := entered.1
  obtain ⟨left, loops⟩ := loopFrom_userattr settle uh (Nat.lt_succ_self _) t
    (s := separated xs ++ closeArray :: behind)
  refine ⟨(leavearray left).2, ?_⟩
  rw [announcements, if_pos entered, tail, userattr]
  simp only [read, if_pos known, enterarray_array, loop, loops]
  rfl

end Lists

section UserOrders
variable {ρ : Type} (settle : Session ρ → Bytes → Bytes × ρ) {ms ms' : List Member}

section Rounds
variable {m : Member} (packet : UserPacket (m :: ms)) (rest : Text) (locals : Locals)
  (t : Session ρ)
include packet

theorem memberRound_user (user : m.1 = ascii "u") :
    memberRound (scUserattr (Session.client settle)).cases (locals, t)
        (commas ((m :: ms).map member) ++ closeObject :: rest) =
      .ok (.next, (locals ++ [(nameid (ascii "u"), .handle (handleIn 8 m.2))], t),
        commas (ms.map member) ++ closeObject :: rest) := by
  obtain ⟨plain, value⟩ := packet.distinct.legible m List.mem_cons_self
  have name := getnameid_commas plain ms (closeObject :: rest)
  have case := scUserattr_cases (Session.client settle) (nameid m.1)
  rw [if_pos (congrArg nameid user)] at case
  rw [memberRound_case name (nameid_ne_zero plain.1 (packet.distinct.named m List.mem_cons_self))
    case, Kind.assign, Kind.read, gethandle_value value
    (packet.handles m List.mem_cons_self user) (stop_commas_closeObject _ rest), user, handleIn]

/-- The list goes to `userattr`. -/
theorem memberRound_list (list : m.1 = ascii "ua") :
    memberRound (scUserattr (Session.client settle)).cases (locals, t)
        (commas ((m :: ms).map member) ++ closeObject :: rest) =
      userattr (Session.client settle) (locals, t)
        (m.2 ++ (commas (ms.map member) ++ closeObject :: rest)) := by
  obtain ⟨plain, -⟩ := packet.distinct.legible m List.mem_cons_self
  have name := getnameid_commas plain ms (closeObject :: rest)
  have case := scUserattr_cases (Session.client settle) (nameid m.1)
  have differs : ¬nameid (ascii "ua") = nameid (ascii "u") := by decide
  rw [list, if_neg differs, if_pos rfl, ← list] at case
  exact memberRound_case name
    (nameid_ne_zero plain.1 (packet.distinct.named m List.mem_cons_self)) case

/-- Any other member is passed over. -/
theorem memberRound_other (user : m.1 ≠ ascii "u") (list : m.1 ≠ ascii "ua") :
    memberRound (scUserattr (Session.client settle)).cases (locals, t)
        (commas ((m :: ms).map member) ++ closeObject :: rest) =
      .ok (.next, (locals, t), commas (ms.map member) ++ closeObject :: rest) := by
  obtain ⟨plain, value⟩ := packet.distinct.legible m List.mem_cons_self
  have user' : nameid m.1 ≠ nameid (ascii "u") :=
    fun same => user ((nameid_iff plain (by decide) (by decide)).mp same)
  have list' : nameid m.1 ≠ nameid (ascii "ua") :=
    fun same => list ((nameid_iff plain (by decide) (by decide)).mp same)
  have case := scUserattr_cases (Session.client settle) (nameid m.1)
  rw [if_neg user', if_neg list'] at case
  exact memberRound_skip (getnameid_commas plain ms (closeObject :: rest))
    (nameid_ne_zero plain.1 (packet.distinct.named m List.mem_cons_self)) case value
    (ends_commas_closeObject _ rest)

end Rounds

/-- The handler goes through the members up to a list that it announces. -/
theorem loopFrom_scUserattr (packet : UserPacket ms) (rest : Text) {fuel : Nat}
    (enough : ms.length < fuel) (locals : Locals) (t : Session ρ) : ∃ flow locals' left,
      loopFrom (memberRound (scUserattr (Session.client settle)).cases) fuel (locals, t)
        (commas (ms.map member) ++ closeObject :: rest) =
          .ok (flow, (locals', t.announce ((placed ms rest).foldl (Announcing.read t.users)
            { uh := locals.handle (nameid (ascii "u")) }).announced), left) := by
  induction ms generalizing locals fuel with
  | nil =>
    obtain ⟨fuel, rfl⟩ : ∃ f, fuel = f + 1 := ⟨fuel - 1, by omega⟩
    refine ⟨.ended, locals, closeObject :: rest, ?_⟩
    rw [placed, List.foldl_nil, announce_nil]
    exact loopFrom_last fuel (memberRound_end rest) (by decide)
  | cons m ms ih =>
    rw [List.length_cons] at enough
    obtain ⟨fuel, rfl⟩ : ∃ f, fuel = f + 1 := ⟨fuel - 1, by omega⟩
    have short : ms.length < fuel := by omega
    have more := ih packet.tail short
    rw [placed, List.foldl_cons, Announcing.read]
    by_cases user : m.1 = ascii "u"
    · rw [loopFrom_next fuel (memberRound_user settle packet rest locals t user), if_pos user]
      have next := more (locals ++ [(nameid (ascii "u"), .handle (handleIn 8 m.2))])
      rwa [Locals.handle_append] at next
    · rw [if_neg user]
      by_cases list : m.1 = ascii "ua"
      · have value := (packet.distinct.legible m List.mem_cons_self).2
        have round := memberRound_list settle packet rest locals t list
        rw [if_pos list]
        by_cases entered : ((locals.handle (nameid (ascii "u"))).isSome ∧
            t.users (locals.handle (nameid (ascii "u")))) ∧ peek m.2 = openArray
        · -- the handler returns, and no other list follows
          have single : ascii "ua" ∉ (placed ms rest).map Prod.fst := by
            rw [map_fst_placed, ← list]
            exact (List.nodup_cons.mp packet.distinct.names).1
          obtain ⟨left, announces⟩ := userattr_list settle (t := (locals, t)) rfl value entered
            (commas (ms.map member) ++ closeObject :: rest)
          refine ⟨.returned, locals, left, ?_⟩
          rw [foldl_missing (combined_announced t.users).other single]
          exact loopFrom_last fuel (round.trans announces) (by decide)
        · have none : ∀ behind, announcements t.users (locals.handle (nameid (ascii "u")))
              (m.2, behind) = [] := fun behind => if_neg entered
          have takes := userattr_takes (Session.client settle) (t := (locals, t)) value Stop
            (fun _ stop => stop) fun list known => entered ⟨known, list⟩
          rw [loopFrom_next fuel (round.trans (takes _ (stop_commas_closeObject _ rest))), none]
          exact more locals
      · rw [loopFrom_next fuel (memberRound_other settle packet rest locals t user list),
          if_neg list]
        exact more locals

/-- What a user attribute packet has the session announce. -/
def announced (users : Handle → Bool) (ms : List Member) (rest : Text) :
    List (Handle × Bool × Bytes) :=
  ((placed ms rest).foldl (Announcing.read users) {}).announced

theorem scUserattr_run (packet : UserPacket ms) (t : Session ρ) (rest : Text) : ∃ left,
    (scUserattr (Session.client settle)).run t (body ms rest) =
      .ok (t.announce (announced t.users ms rest), left) := by
  obtain ⟨fuel, enough, entered⟩ := @members_eq_loopFrom (Locals × Session ρ)
    (scUserattr (Session.client settle)).cases ([], t) ms
      (fun m first => (packet.distinct.legible m (List.mem_of_mem_head? first)).1) rest
  obtain ⟨flow, locals, left, loops⟩ := loopFrom_scUserattr settle packet rest enough [] t
  refine ⟨left, ?_⟩
  rw [Handler.run, body, entered, loops]
  cases flow <;> rfl

theorem announce_inj {t : Session ρ} {xs ys : List (Handle × Bool × Bytes)} :
    t.announce xs = t.announce ys ↔ xs = ys := by
  constructor
  · intro same
    exact List.append_cancel_left (congrArg Session.app same)
  · exact congrArg t.announce

theorem mem_placed {name v : Bytes} {rest : Text} :
    (name, v) ∈ ms ↔ ∃ behind, (name, v, behind) ∈ placed ms rest := by
  induction ms with
  | nil => simp [placed]
  | cons m ms ih =>
    rw [placed, List.mem_cons, ih]
    constructor
    · rintro (rfl | ⟨behind, mem⟩)
      · exact ⟨_, List.mem_cons_self⟩
      · exact ⟨behind, List.mem_cons_of_mem _ mem⟩
    · rintro ⟨behind, mem⟩
      rcases List.mem_cons.mp mem with same | mem
      · cases same
        exact .inl rfl
      · exact .inr ⟨behind, mem⟩

section Announced
variable {users : Handle → Bool} {rest behind : Text} {w v : Bytes} (distinct : Distinct ms)
  (list : (ascii "ua", v, behind) ∈ placed ms rest)
include distinct list

theorem announced_behind (user : (ascii "u", w) ∈ ms) (before : Before "u" "ua" ms) :
    announced users ms rest = announcements users (handleIn 8 w) (v, behind) := by
  obtain ⟨c, first⟩ : ∃ c, (ascii "u", w, c) ∈ placed ms rest := mem_placed.mp user
  rw [Before, ← map_fst_placed ms rest] at before
  have names := distinct.names
  rw [← map_fst_placed ms rest] at names
  exact (combined_announced users).foldl_of_before (register_uh users) names list first before {}

theorem announced_ahead (ahead : ¬Before "u" "ua" ms) : announced users ms rest = [] := by
  rw [Before, ← map_fst_placed ms rest] at ahead
  have names := distinct.names
  rw [← map_fst_placed ms rest] at names
  exact (combined_announced users).foldl_of_not_before (register_uh users) names list ahead {}

end Announced

theorem announced_missing {users : Handle → Bool} (rest : Text)
    (missing : ascii "ua" ∉ ms.map Prod.fst) : announced users ms rest = [] := by
  rw [← map_fst_placed ms rest] at missing
  exact foldl_missing (combined_announced users).other missing {}

/-- The list of a known user is announced in the same way: it stands behind the user in both
orders, and the text behind it has the same attributes, or in neither, or there are none. -/
def UserOrder (t : Session ρ) (ms ms' : List Member) (rest : Text) : Prop :=
  ∀ w v behind behind', (ascii "u", w) ∈ ms → (ascii "ua", v, behind) ∈ placed ms rest →
    (ascii "ua", v, behind') ∈ placed ms' rest →
    (handleIn 8 w).isSome ∧ t.users (handleIn 8 w) → peek v = openArray →
      ((Before "u" "ua" ms ↔ Before "u" "ua" ms') ∧
        (Before "u" "ua" ms → strays behind = strays behind')) ∨
      (listed v = [] ∧ (Before "u" "ua" ms → strays behind = []) ∧
        (Before "u" "ua" ms' → strays behind' = []))

/-- A list that is read behind its user only, in either of two orders. -/
theorem guarded_eq_iff {α : Type} {p q : Prop} [Decidable p] [Decidable q] {xs ys zs : List α} :
    (if p then xs ++ ys else []) = (if q then xs ++ zs else []) ↔
      ((p ↔ q) ∧ (p → ys = zs)) ∨ (xs = [] ∧ (p → ys = []) ∧ (q → zs = [])) := by
  by_cases first : p <;> by_cases second : q
  · rw [if_pos first, if_pos second, List.append_cancel_left_eq]
    constructor
    · exact fun same => .inl ⟨iff_of_true first second, fun _ => same⟩
    · rintro (⟨-, same⟩ | ⟨-, none, none'⟩)
      · exact same first
      · exact (none first).trans (none' second).symm
  · simp [first, second]
  · simp [first, second, eq_comm]
  · simp [first, second]

theorem announced_eq {t : Session ρ} {rest behind : Text} {w v : Bytes} (distinct : Distinct ms)
    (list : (ascii "ua", v, behind) ∈ placed ms rest) (user : (ascii "u", w) ∈ ms)
    (value : IsValue v) (known : (handleIn 8 w).isSome ∧ t.users (handleIn 8 w))
    (entered : peek v = openArray) : announced t.users ms rest =
      (if Before "u" "ua" ms then listed v ++ strays behind else []).map
        (Prod.mk (handleIn 8 w)) := by
  by_cases before : Before "u" "ua" ms
  · rw [announced_behind distinct list user before, announcements, if_pos ⟨known, entered⟩,
      if_pos before, marked_entries value entered]
  · rw [announced_ahead distinct list before, if_neg before, List.map_nil]

theorem announced_silent {users : Handle → Bool} {rest behind : Text} {w v : Bytes}
    (distinct : Distinct ms) (list : (ascii "ua", v, behind) ∈ placed ms rest)
    (user : (ascii "u", w) ∈ ms)
    (silent : ¬(((handleIn 8 w).isSome ∧ users (handleIn 8 w)) ∧ peek v = openArray)) :
    announced users ms rest = [] := by
  by_cases before : Before "u" "ua" ms
  · rw [announced_behind distinct list user before, announcements, if_neg silent]
  · exact announced_ahead distinct list before

/-- The order of the members of a user attribute packet does not matter if and only if the list
is announced in the same way. -/
theorem alike_userattr_iff {t : Session ρ} (packet : UserPacket ms) (perm : ms.Perm ms')
    (rest : Text) :
    Alike (scUserattr (Session.client settle)) t ms ms' rest ↔ UserOrder t ms ms' rest := by
  have distinct := packet.distinct
  have distinct' := distinct.perm perm
  obtain ⟨left, first⟩ := scUserattr_run settle packet t rest
  obtain ⟨left', second⟩ := scUserattr_run settle (packet.perm perm) t rest
  rw [alike_iff first second, announce_inj]
  constructor
  · intro same w v behind behind' user list list' known entered
    have value := (distinct.legible _ (mem_placed.mpr ⟨behind, list⟩)).2
    rw [announced_eq distinct list user value known entered,
      announced_eq distinct' list' (perm.mem_iff.mp user) value known entered] at same
    exact guarded_eq_iff.mp (List.map_injective_iff.mpr (Prod.mk_right_injective _) same)
  · intro order
    by_cases lists : ascii "ua" ∈ ms.map Prod.fst
    · obtain ⟨v, mem⟩ := exists_of_name lists
      obtain ⟨behind, list⟩ : ∃ c, (ascii "ua", v, c) ∈ placed ms rest := mem_placed.mp mem
      obtain ⟨behind', list'⟩ : ∃ c, (ascii "ua", v, c) ∈ placed ms' rest :=
        mem_placed.mp (perm.mem_iff.mp mem)
      by_cases users : ascii "u" ∈ ms.map Prod.fst
      · obtain ⟨w, user⟩ := exists_of_name users
        have user' := perm.mem_iff.mp user
        by_cases speaks : ((handleIn 8 w).isSome ∧ t.users (handleIn 8 w)) ∧ peek v = openArray
        · have value := (distinct.legible _ mem).2
          have alike := order w v behind behind' user list list' speaks.1 speaks.2
          rw [announced_eq distinct list user value speaks.1 speaks.2,
            announced_eq distinct' list' user' value speaks.1 speaks.2, guarded_eq_iff.mpr alike]
        · rw [announced_silent distinct list user speaks,
            announced_silent distinct' list' user' speaks]
      · -- no user is read in either order
        have unread : ∀ ms₀ : List Member, ms₀.Perm ms → ¬Before "u" "ua" ms₀ := by
          intro ms₀ same before
          obtain ⟨⟨w, user⟩, -⟩ := before.mem
          exact users (List.mem_map_of_mem (same.mem_iff.mp user))
        rw [announced_ahead distinct list (unread ms (.refl ms)),
          announced_ahead distinct' list' (unread ms' perm.symm)]
    · have lists' : ascii "ua" ∉ ms'.map Prod.fst :=
        fun mem => lists ((perm.map Prod.fst).mem_iff.mpr mem)
      rw [announced_missing rest lists, announced_missing rest lists']

end UserOrders

/-- For every state and every order of the members, when a packet has the same effect: a node
update, if `tmd` keeps its side of `ts` or the node does not tell the difference; user attributes,
if the list of a known user keeps its side of the user, with the same attributes behind its
bracket, or if there are none at all. -/
theorem member_order_iff {ρ : Type} (settle : Session ρ → Bytes → Bytes × ρ) (t : Session ρ)
    {ms ms' : List Member} (perm : ms.Perm ms') (rest : Text) :
    (NodePacket ms →
      (Alike (scUpdatenode (Session.client settle)) t ms ms' rest ↔ NodeOrder t ms ms')) ∧
    (UserPacket ms →
      (Alike (scUserattr (Session.client settle)) t ms ms' rest ↔ UserOrder t ms ms' rest)) :=
  ⟨fun packet => alike_updatenode_iff settle packet perm rest,
    fun packet => alike_userattr_iff settle packet perm rest⟩

/-- A node without a key, whose attribute text stays as it is. -/
def keyless (t : Session Unit) (h : Bytes) : Bytes × Unit :=
  (((t.nodes h).map Node.attrstring).getD [], ())

def small : Session Unit where
  nodes h :=
    if h = [0, 0, 0, 0, 0, 4] then
      some ⟨some (List.replicate 8 1), [], 500, 900, ⟨false, false, false, false⟩, false⟩
    else none
  users h := h = some [0, 0, 0, 0, 0, 0, 0, 1]
  nodenotify := []
  app := []
  others := ()

def nodeMember : Member := (ascii "n", str (ascii "AAAAAAAE"))
def tsMember : Member := (ascii "ts", ascii "1000")
def tmdMember : Member := (ascii "tmd", ascii "5")
def userMember : Member := (ascii "u", str (ascii "AAAAAAAAAAE"))
def listMember : Member := (ascii "ua", array [str (ascii "+a")])

theorem nodePacket_small : NodePacket [nodeMember, tsMember, tmdMember] where
  distinct :=
    { legible := by
        intro m mem
        simp only [List.mem_cons, List.not_mem_nil, or_false] at mem
        rcases mem with rfl | rfl | rfl
        · exact ⟨by unfold Plain; decide, .str (by decide)⟩
        · exact ⟨by unfold Plain; decide, .num (by decide)⟩
        · exact ⟨by unfold Plain; decide, .num (by decide)⟩
      named := by decide
      names := by decide }
  handles := by decide
  attributes := by decide
  numbers := by decide

theorem userPacket_small : UserPacket [userMember, listMember] where
  distinct :=
    { legible := by
        intro m mem
        simp only [List.mem_cons, List.not_mem_nil, or_false] at mem
        rcases mem with rfl | rfl
        · exact ⟨by unfold Plain; decide, .str (by decide)⟩
        · refine ⟨by unfold Plain; decide, .arr fun x listed => ?_⟩
          obtain rfl := List.mem_singleton.mp listed
          exact .str (by decide)
      named := by decide
      names := by decide }
  handles := by decide

theorem member_order_small :
    (Alike (scUpdatenode (Session.client keyless)) small [nodeMember, tsMember, tmdMember]
        [tsMember, nodeMember, tmdMember] [] ↔
      NodeOrder small [nodeMember, tsMember, tmdMember] [tsMember, nodeMember, tmdMember]) ∧
    (Alike (scUserattr (Session.client keyless)) small [userMember, listMember]
        [listMember, userMember] [] ↔
      UserOrder small [userMember, listMember] [listMember, userMember] []) :=
  ⟨(member_order_iff keyless small (.swap ..) []).1 nodePacket_small,
    (member_order_iff keyless small (.swap ..) []).2 userPacket_small⟩

/-- With `tmd` in front of `ts` the client timestamp is 4 and not 1005; with the list in front of
the user the attribute is not announced. -/
theorem turned_members_differ :
    (NodePacket [nodeMember, tsMember, tmdMember] ∧
      [nodeMember, tsMember, tmdMember].Perm [nodeMember, tmdMember, tsMember] ∧
      ¬Alike (scUpdatenode (Session.client keyless)) small [nodeMember, tsMember, tmdMember]
        [nodeMember, tmdMember, tsMember] []) ∧
    (UserPacket [userMember, listMember] ∧
      [userMember, listMember].Perm [listMember, userMember] ∧
      ¬Alike (scUserattr (Session.client keyless)) small [userMember, listMember]
        [listMember, userMember] []) := by
  refine ⟨⟨nodePacket_small, .cons _ (.swap ..), ?_⟩, userPacket_small, .swap .., ?_⟩
  · rintro ⟨t', left, left', first, second⟩
    have ordered : ((scUpdatenode (Session.client keyless)).run small
        (body [nodeMember, tsMember, tmdMember] [])).map (fun r =>
          (r.1.nodes [0, 0, 0, 0, 0, 4]).map Node.clienttimestamp) = .ok (some 1005) := rfl
    have turned : ((scUpdatenode (Session.client keyless)).run small
        (body [nodeMember, tmdMember, tsMember] [])).map (fun r =>
          (r.1.nodes [0, 0, 0, 0, 0, 4]).map Node.clienttimestamp) = .ok (some 4) := rfl
    rw [first] at ordered
    rw [second] at turned
    exact absurd (ordered.symm.trans turned) (by decide)
  · rintro ⟨t', left, left', first, second⟩
    have ordered : ((scUserattr (Session.client keyless)).run small
        (body [userMember, listMember] [])).map (fun r => r.1.app.length) = .ok 1 := rfl
    have turned : ((scUserattr (Session.client keyless)).run small
        (body [listMember, userMember] [])).map (fun r => r.1.app.length) = .ok 0 := rfl
    rw [first] at ordered
    rw [second] at turned
    exact absurd (ordered.symm.trans turned) (by decide)

end MegaSdk.Server.MemberOrder
