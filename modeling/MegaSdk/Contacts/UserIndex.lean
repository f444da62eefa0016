import MegaSdk.Contacts.Users
import MegaSdk.Lib.Runs
import Mathlib.Logic.Relation

/-!
# The indexes of the user table

`mapuser` gives an address to a user found by its handle without asking whether another user has
it. The runs in which the indexes stay consistent are those in which no address is taken so.
-/

namespace MegaSdk.Contacts

open Runs
open Cache (copystring undef)
open Relation (ReflTransGen)

/-- The indexes and the users point at each other; users that do not exist have no address. -/
structure Consistent (c : Client) : Prop where
  handle : ∀ {h id}, c.uhindex h = some id → (c.users id).userhandle = h
  address : ∀ {m id}, c.umindex m = some id → (c.users id).email.map tolower = m
  reachable : ∀ {id}, (c.users id).email ≠ [] →
    c.umindex ((c.users id).email.map tolower) = some id

/-- The indexes only hold numbers that have been given out. -/
structure Bounded (c : Client) : Prop where
  uhindex : ∀ {h id}, c.uhindex h = some id → c.Live id
  umindex : ∀ {m id}, c.umindex m = some id → c.Live id
  fresh : ∀ {id}, c.userid < id → c.users id = User.new

/-- If the user with handle `uh` has no address yet, then nobody else has the new one, and the user
is not found under the empty address. -/
def AddressFree (c : Client) (uh : UInt64) (email : Bytes) : Prop :=
  (∀ id, c.uhindex uh = some id → (c.users id).email = []) → nuid email ≠ [] →
    c.umindex (nuid email) = none ∧ ∀ id, c.uhindex uh = some id → c.umindex [] ≠ some id

/-- `mapuser` takes no address from a user and no user from its handle. -/
def Maps (c : Client) (uh : UInt64) (email : Bytes) : Prop :=
  if (c.uhindex uh).isSome then AddressFree c uh email
  else ∀ id, c.umindex (nuid email) = some id → c.uhindex (c.users id).userhandle ≠ some id

def KeepsIndexes (c : Client) : Event → Prop
  | .finduserHandle _ _ => True
  | .finduser _ _ => True
  | .mapuser uh email => blank email = false → Maps c uh email
  | .readuser x =>
    ∀ m, x.m = some m → x.uh ≠ undef → x.uh ≠ 0 → blank m = false → AddressFree c x.uh m
  | .unserialize d =>
    ∀ x ptr, UserHead.read (d ++ [0]) = .ok (x, ptr) → x.uh ≠ 0 → blank x.m = false →
      AddressFree c x.uh x.m

section Cases

variable (c : Client)

theorem finduserHandle_cases (uh : UInt64) (add : Bool) :
    (c.finduserHandle uh add = (c, none) ∧ (add = true → uh = 0)) ∨
    (∃ id, c.uhindex uh = some id ∧ c.finduserHandle uh add = (c, some id)) ∨
    (c.uhindex uh = none ∧ c.finduserHandle uh add = (c.addHandle uh, some (c.userid + 1))) := by
  unfold Client.finduserHandle
  by_cases null : uh = 0
  · exact Or.inl ⟨by rw [if_pos null], fun _ => null⟩
  · rw [if_neg null]
    cases known : c.uhindex uh with
    | some id => exact Or.inr (Or.inl ⟨id, rfl, rfl⟩)
    | none =>
      cases add with
      | false => exact Or.inl ⟨rfl, nofun⟩
      | true => exact Or.inr (Or.inr ⟨rfl, rfl⟩)

theorem finduser_cases (uid : Bytes) (add : Bool) :
    (c.finduser uid add).1 = c ∨ (∃ uh, (c.finduser uid add) = c.finduserHandle uh add) ∨
    (c.umindex (nuid uid) = none ∧ (c.finduser uid add).1 = c.addAddress uid) := by
  unfold Client.finduser
  by_cases empty : blank uid
  · exact Or.inl (by rw [if_pos empty])
  · rw [if_neg empty]
    by_cases text : 64 ∉ uid.takeWhile (· ≠ 0)
    · rw [if_pos text]
      dsimp only
      split_ifs
      · exact Or.inr (Or.inl ⟨_, rfl⟩)
      · exact Or.inl rfl
    · rw [if_neg text]
      cases known : c.umindex (nuid uid) with
      | some id => exact Or.inl rfl
      | none =>
        cases add with
        | false => exact Or.inl rfl
        | true => exact Or.inr (Or.inr ⟨rfl, rfl⟩)

theorem mapuser_blank {email : Bytes} (empty : blank email = true) (uh : UInt64) :
    c.mapuser uh email = c := by
  rw [Client.mapuser, if_pos empty]

theorem mapuser_known {email : Bytes} (text : blank email = false) {uh : UInt64} {id : Nat}
    (known : c.uhindex uh = some id) :
    c.mapuser uh email = if (c.users id).email = [] then c.giveAddress id email else c := by
  simp only [Client.mapuser, text, known, Bool.false_eq_true, if_false]

theorem mapuser_found {email : Bytes} (text : blank email = false) {uh : UInt64} {id : Nat}
    (unknown : c.uhindex uh = none) (found : c.umindex (nuid email) = some id) :
    c.mapuser uh email = c.giveHandle id uh := by
  simp only [Client.mapuser, text, unknown, found, Bool.false_eq_true, if_false]

theorem mapuser_neither {uh : UInt64} {email : Bytes} (unknown : c.uhindex uh = none)
    (unfound : c.umindex (nuid email) = none) : c.mapuser uh email = c := by
  simp only [Client.mapuser, unknown, unfound, ite_self]

end Cases

/-- An entry of an index after a write is the written one or an old one. -/
theorem update_eq_some {α : Type} [DecidableEq α] {index : α → Option Nat} {a x : α} {id k : Nat} :
    Function.update index a (some id) x = some k ↔ x = a ∧ k = id ∨ x ≠ a ∧ index x = some k := by
  by_cases same : x = a
  · subst same
    simp [eq_comm]
  · simp [same]

inductive Writes : Client → Client → Prop
  | me (c : Client) (uh : UInt64) : Writes c { c with me := uh }
  | modify {c : Client} {uh : UInt64} {id : Nat} (known : c.uhindex uh = some id) {f : User → User}
    (handle : (f (c.users id)).userhandle = (c.users id).userhandle)
    (address : (f (c.users id)).email = (c.users id).email) : Writes c (c.modify id f)
  | addHandle {c : Client} {uh : UInt64} (unknown : c.uhindex uh = none) :
    Writes c (c.addHandle uh)
  | addAddress {c : Client} {email : Bytes} (unknown : c.umindex (nuid email) = none) :
    Writes c (c.addAddress email)
  | giveAddress {c : Client} {uh : UInt64} {id : Nat} (known : c.uhindex uh = some id)
    (without : (c.users id).email = []) (email : Bytes) : Writes c (c.giveAddress id email)
  | giveHandle {c : Client} {uh : UInt64} {id : Nat} {m : Bytes} (found : c.umindex m = some id)
    (unknown : c.uhindex uh = none) : Writes c (c.giveHandle id uh)

section Sequences

variable (c : Client)

theorem writes_recordMe (v : Visibility) (uh : UInt64) :
    ReflTransGen Writes c (c.recordMe v uh) := by
  rw [Client.recordMe]
  split
  · exact .single (.me c uh)
  · exact .refl

theorem writes_finduserHandle (uh : UInt64) (add : Bool) :
    ReflTransGen Writes c (c.finduserHandle uh add).1 := by
  rcases finduserHandle_cases c uh add with ⟨same, -⟩ | ⟨id, -, same⟩ | ⟨unknown, added⟩
  · rw [same]
  · rw [same]
  · rw [added]
    exact .single (.addHandle unknown)

theorem writes_finduser (uid : Bytes) (add : Bool) :
    ReflTransGen Writes c (c.finduser uid add).1 := by
  rcases finduser_cases c uid add with same | ⟨uh, same⟩ | ⟨unknown, added⟩
  · rw [same]
  · rw [same]
    exact writes_finduserHandle c uh add
  · rw [added]
    exact .single (.addAddress unknown)

theorem writes_mapuser (uh : UInt64) (email : Bytes) :
    ReflTransGen Writes c (c.mapuser uh email) := by
  cases empty : blank email with
  | true => rw [mapuser_blank c empty]
  | false =>
    cases known : c.uhindex uh with
    | some id =>
      rw [mapuser_known c empty known]
      split
      · next without => exact .single (.giveAddress known without email)
      · exact .refl
    | none =>
      cases found : c.umindex (nuid email) with
      | some id =>
        rw [mapuser_found c empty known found]
        exact .single (.giveHandle found known)
      | none => rw [mapuser_neither c known found]

/-- A known handle keeps its user. -/
theorem mapuser_uhindex {uh : UInt64} {id : Nat} (known : c.uhindex uh = some id) (email : Bytes) :
    (c.mapuser uh email).uhindex = c.uhindex := by
  cases empty : blank email with
  | true => rw [mapuser_blank c empty]
  | false =>
    rw [mapuser_known c empty known]
    split
    · rfl
    · rfl

variable {c}

theorem writes_readRest {uh : UInt64} {id : Nat} (known : c.uhindex uh = some id) (ptr : Bytes) :
    ReflTransGen Writes c (c.readRest id ptr).1 := by
  unfold Client.readRest
  split_ifs
  · exact .refl
  · cases Cache.AttrMap.unserializeFrom (ptr.length + 1) (c.users id).attrs ptr with
    | null => exact .refl
    | wild => exact .refl
    | ok entry =>
      have still : ∀ f, (c.modify id f).uhindex uh = some id := fun _ => known
      dsimp only
      split_ifs
      all_goals dsimp only
      · exact .single (.modify known rfl rfl)
      all_goals exact .tail (.single (.modify known rfl rfl)) (.modify (still _) rfl rfl)

/-- `finduser(uh, 1)` finds a user for every handle but 0. -/
theorem finduserHandle_found {uh : UInt64} {id : Nat} {d : Client}
    (found : c.finduserHandle uh true = (d, some id)) : d.uhindex uh = some id := by
  rcases finduserHandle_cases c uh true with ⟨same, -⟩ | ⟨k, known, same⟩ | ⟨-, added⟩
  · rw [same] at found
    cases found
  · rw [same] at found
    obtain ⟨rfl, equal⟩ := Prod.mk.inj found
    rw [known, equal]
  · rw [added] at found
    obtain ⟨rfl, equal⟩ := Prod.mk.inj found
    exact update_eq_some.mpr (Or.inl ⟨rfl, (Option.some.inj equal).symm⟩)

variable (c)

theorem writes_readuser (x : Contact) : ReflTransGen Writes c (c.readuser x) := by
  unfold Client.readuser
  cases x.m with
  | none => exact .refl
  | some m =>
    dsimp only
    by_cases unset : x.uh = undef
    · rw [if_pos unset]
    · rw [if_neg unset]
      have first := (writes_recordMe c x.v x.uh).trans
        (writes_finduserHandle (c.recordMe x.v x.uh) x.uh true)
      cases result : (c.recordMe x.v x.uh).finduserHandle x.uh true with
      | mk d found =>
        rw [result] at first
        cases found with
        | none => exact first
        | some id =>
          have known := finduserHandle_found result
          have mapped := first.trans (writes_mapuser d x.uh m)
          dsimp only
          split
          · exact mapped
          · rw [← mapuser_uhindex d known m] at known
            exact mapped.tail (.modify known rfl rfl)

theorem writes_unserialize (data : Bytes) : ReflTransGen Writes c (c.unserialize data).1 := by
  unfold Client.unserialize
  cases UserHead.read (data ++ [0]) with
  | null => exact .refl
  | wild => exact .refl
  | ok head =>
    obtain ⟨x, ptr⟩ := head
    dsimp only
    have first := writes_finduserHandle c x.uh true
    cases result : c.finduserHandle x.uh true with
    | mk d found =>
      rw [result] at first
      cases found with
      | none => exact first
      | some id =>
        have known := finduserHandle_found result
        rw [← Client.recordMe_uhindex d x.v x.uh] at known
        have mapped := (first.trans (writes_recordMe d x.v x.uh)).trans
          (writes_mapuser (d.recordMe x.v x.uh) x.uh x.m)
        rw [← mapuser_uhindex _ known x.m] at known
        have still : ∀ f, (((d.recordMe x.v x.uh).mapuser x.uh x.m).modify id f).uhindex x.uh =
            some id := fun _ => known
        exact (mapped.tail (.modify known rfl rfl)).trans (writes_readRest (still _) ptr)

/-- Every operation is a sequence of such writes. -/
theorem writes_step (e : Event) : ReflTransGen Writes c (step c e) := by
  cases e with
  | finduserHandle uh add => exact writes_finduserHandle c uh add
  | finduser uid add => exact writes_finduser c uid add
  | mapuser uh email => exact writes_mapuser c uh email
  | readuser contact => exact writes_readuser c contact
  | unserialize data => exact writes_unserialize c data

end Sequences

/-- What every write keeps is kept by every operation. -/
theorem step_keeps {Inv : Client → Prop} (keeps : ∀ {c d}, Inv c → Writes c d → Inv d) {c : Client}
    (start : Inv c) (e : Event) : Inv (step c e) := by
  generalize after : step c e = d
  have writes := writes_step c e
  rw [after] at writes
  clear after
  induction writes with
  | refl => exact start
  | tail _ write ih => exact keeps ih write

section Bounds

variable {c : Client} {id : Nat}

theorem bounded_start : Bounded Client.start where
  uhindex := nofun
  umindex := nofun
  fresh _ := rfl

theorem Bounded.modify (bounded : Bounded c) (inside : c.Live id) (f : User → User) :
    Bounded (c.modify id f) where
  uhindex := bounded.uhindex
  umindex := bounded.umindex
  fresh {k} above := by
    have other : k ≠ id := by
      rintro rfl
      exact absurd inside.2 (Nat.not_le.mpr above)
    exact (Function.update_of_ne other _ _).trans (bounded.fresh above)

theorem Bounded.create (bounded : Bounded c) (u : User) : Bounded (c.create u) where
  uhindex known := (bounded.uhindex known).imp_right Nat.le_succ_of_le
  umindex known := (bounded.umindex known).imp_right Nat.le_succ_of_le
  fresh {k} above := by
    have beyond : c.userid + 1 < k := above
    exact (Function.update_of_ne (by omega) _ _).trans (bounded.fresh (by omega))

theorem Bounded.indexHandle (bounded : Bounded c) (inside : c.Live id) (uh : UInt64) :
    Bounded (c.indexHandle uh id) where
  uhindex {h k} known := by
    rcases update_eq_some.mp known with ⟨-, rfl⟩ | ⟨-, known⟩
    · exact inside
    · exact bounded.uhindex known
  umindex := bounded.umindex
  fresh := bounded.fresh

theorem Bounded.indexAddress (bounded : Bounded c) (inside : c.Live id) (m : Bytes) :
    Bounded (c.indexAddress m id) where
  uhindex := bounded.uhindex
  umindex {n k} known := by
    rcases update_eq_some.mp known with ⟨-, rfl⟩ | ⟨-, known⟩
    · exact inside
    · exact bounded.umindex known
  fresh := bounded.fresh

theorem Bounded.addHandle (bounded : Bounded c) (uh : UInt64) : Bounded (c.addHandle uh) :=
  (bounded.create _).indexHandle ⟨Nat.succ_pos _, Nat.le_refl _⟩ uh

theorem Bounded.addAddress (bounded : Bounded c) (email : Bytes) : Bounded (c.addAddress email) :=
  (bounded.create _).indexAddress ⟨Nat.succ_pos _, Nat.le_refl _⟩ _

theorem Bounded.writes {d : Client} (bounded : Bounded c) (writes : Writes c d) : Bounded d := by
  cases writes with
  | me uh => exact ⟨bounded.uhindex, bounded.umindex, bounded.fresh⟩
  | modify known => exact bounded.modify (bounded.uhindex known) _
  | addHandle => exact bounded.addHandle _
  | addAddress => exact bounded.addAddress _
  | giveAddress known =>
    have inside := bounded.uhindex known
    exact (bounded.modify inside _).indexAddress inside _
  | giveHandle found =>
    have inside := bounded.umindex found
    exact (bounded.modify inside _).indexHandle inside _

end Bounds

section Consistency

variable {c : Client} {id : Nat} {uh : UInt64} {email : Bytes}

theorem consistent_start : Consistent Client.start where
  handle := nofun
  address := nofun
  reachable some_address := absurd rfl some_address

/-- Only handles and addresses matter. -/
theorem Consistent.modify_iff {f : User → User} (handle : (f (c.users id)).userhandle =
    (c.users id).userhandle) (address : (f (c.users id)).email = (c.users id).email) :
    Consistent (c.modify id f) ↔ Consistent c := by
  have handles : ∀ k, ((c.modify id f).users k).userhandle = (c.users k).userhandle := by
    intro k
    rw [Client.modify_users]
    split
    · next same => rw [same, handle]
    · rfl
  have addresses : ∀ k, ((c.modify id f).users k).email = (c.users k).email := by
    intro k
    rw [Client.modify_users]
    split
    · next same => rw [same, address]
    · rfl
  constructor
  · rintro ⟨handle, address, reachable⟩
    simp only [handles, addresses] at handle address reachable
    exact ⟨handle, address, reachable⟩
  · rintro ⟨handle, address, reachable⟩
    refine ⟨?_, ?_, ?_⟩
    all_goals simp only [handles, addresses]
    · exact handle
    · exact address
    · exact reachable

theorem Consistent.recordMe_iff {v : Visibility} :
    Consistent (c.recordMe v uh) ↔ Consistent c := by
  rw [Client.recordMe]
  split
  · exact ⟨fun ⟨h, a, r⟩ => ⟨h, a, r⟩, fun ⟨h, a, r⟩ => ⟨h, a, r⟩⟩
  · exact Iff.rfl

theorem addHandle_old (old : id ≤ c.userid) : (c.addHandle uh).users id = c.users id := by
  rw [Client.addHandle, Client.indexHandle_users, Client.create_users, if_neg (by omega)]

theorem addHandle_new : (c.addHandle uh).users (c.userid + 1) =
    { User.new with uid := handleText uh, userhandle := uh } := by
  rw [Client.addHandle, Client.indexHandle_users, Client.create_users, if_pos rfl]

theorem addAddress_old (old : id ≤ c.userid) : (c.addAddress email).users id = c.users id := by
  rw [Client.addAddress, Client.indexAddress_users, Client.create_users, if_neg (by omega)]

theorem addAddress_new : (c.addAddress email).users (c.userid + 1) =
    { User.new with uid := nuid email, email := copystring email } := by
  rw [Client.addAddress, Client.indexAddress_users, Client.create_users, if_pos rfl]

/-- Users that have an address exist. -/
theorem Bounded.exists (bounded : Bounded c) (some_address : (c.users id).email ≠ []) :
    id ≤ c.userid := by
  by_contra above
  rw [bounded.fresh (Nat.lt_of_not_le above)] at some_address
  exact some_address rfl

/-- A new user under a handle. -/
theorem Consistent.addHandle (consistent : Consistent c) (bounded : Bounded c) (uh : UInt64) :
    Consistent (c.addHandle uh) where
  handle {h k} known := by
    rcases update_eq_some.mp known with ⟨rfl, rfl⟩ | ⟨-, known⟩
    · rw [addHandle_new]
    · rw [addHandle_old (bounded.uhindex known).2]
      exact consistent.handle known
  address {m k} known := by
    rw [addHandle_old (bounded.umindex known).2]
    exact consistent.address known
  reachable {k} some_address := by
    rcases eq_or_ne k (c.userid + 1) with rfl | other
    · rw [addHandle_new] at some_address
      exact absurd rfl some_address
    · have inside := (bounded.addHandle uh).exists some_address
      have old : k ≤ c.userid := Nat.lt_succ_iff.mp (Nat.lt_of_le_of_ne inside other)
      rw [addHandle_old old] at some_address ⊢
      exact consistent.reachable some_address

/-- A new user under an address that is not in the index. -/
theorem Consistent.addAddress (consistent : Consistent c) (bounded : Bounded c)
    (unknown : c.umindex (nuid email) = none) : Consistent (c.addAddress email) where
  handle {h k} known := by
    rw [addAddress_old (bounded.uhindex known).2]
    exact consistent.handle known
  address {m k} known := by
    rcases update_eq_some.mp known with ⟨rfl, rfl⟩ | ⟨-, known⟩
    · rw [addAddress_new, nuid]
    · rw [addAddress_old (bounded.umindex known).2]
      exact consistent.address known
  reachable {k} some_address := by
    rcases eq_or_ne k (c.userid + 1) with rfl | other
    · rw [addAddress_new]
      exact update_eq_some.mpr (Or.inl ⟨rfl, rfl⟩)
    · have inside := (bounded.addAddress email).exists some_address
      have old : k ≤ c.userid := Nat.lt_succ_iff.mp (Nat.lt_of_le_of_ne inside other)
      rw [addAddress_old old] at some_address ⊢
      have known := consistent.reachable some_address
      refine update_eq_some.mpr (Or.inr ⟨fun taken => ?_, known⟩)
      rw [taken, unknown] at known
      cases known

theorem giveAddress_email (k : Nat) : ((c.giveAddress id email).users k).email =
    if k = id then copystring email else (c.users k).email := by
  rw [Client.giveAddress, Client.indexAddress_users, Client.modify_users]
  split
  · rfl
  · rfl

theorem giveAddress_userhandle (k : Nat) :
    ((c.giveAddress id email).users k).userhandle = (c.users k).userhandle := by
  rw [Client.giveAddress, Client.indexAddress_users, Client.modify_users]
  split
  · next same => rw [same]
  · rfl

/-- A user without an address gets one: the indexes stay consistent exactly if nobody had it and the
user was not found under the empty address. -/
theorem Consistent.giveAddress_iff (consistent : Consistent c) (without : (c.users id).email = []) :
    Consistent (c.giveAddress id email) ↔
      (nuid email ≠ [] → c.umindex (nuid email) = none ∧ c.umindex [] ≠ some id) := by
  constructor
  · intro after some_address
    constructor
    · by_contra taken
      obtain ⟨k, taken⟩ := Option.ne_none_iff_exists'.mp taken
      have same := consistent.address taken
      have other : k ≠ id := by
        rintro rfl
        rw [without] at same
        exact some_address same.symm
      have email_k : ((c.giveAddress id email).users k).email = (c.users k).email := by
        rw [giveAddress_email, if_neg other]
      have found := @Consistent.reachable _ after k (by
        rw [email_k]
        intro none
        rw [none] at same
        exact some_address same.symm)
      rw [email_k, same] at found
      rcases update_eq_some.mp found with ⟨-, equal⟩ | ⟨differs, -⟩
      · exact other equal
      · exact differs rfl
    · intro empty
      have found := @Consistent.address _ after [] id
        (update_eq_some.mpr (Or.inr ⟨some_address.symm, empty⟩))
      rw [giveAddress_email, if_pos rfl] at found
      exact some_address found
  · intro free
    refine ⟨fun {h k} known => ?_, fun {m k} known => ?_, fun {k} some_address => ?_⟩
    · rw [giveAddress_userhandle]
      exact consistent.handle known
    · rw [giveAddress_email]
      rcases update_eq_some.mp known with ⟨rfl, rfl⟩ | ⟨differs, known⟩
      · rw [if_pos rfl, nuid]
      · by_cases same : k = id
        · subst same
          have empty := consistent.address known
          rw [without] at empty
          obtain rfl : [] = m := empty
          exact absurd known (free fun none => differs none.symm).2
        · rw [if_neg same]
          exact consistent.address known
    · rw [giveAddress_email] at some_address ⊢
      by_cases same : k = id
      · rw [if_pos same]
        exact update_eq_some.mpr (Or.inl ⟨rfl, same⟩)
      · rw [if_neg same] at some_address ⊢
        have known := consistent.reachable some_address
        refine update_eq_some.mpr (Or.inr ⟨fun taken => ?_, known⟩)
        have lower_some : nuid email ≠ [] := by
          rw [← taken]
          exact fun none => some_address (List.map_eq_nil_iff.mp none)
        rw [taken, (free lower_some).1] at known
        cases known

theorem giveHandle_email (k : Nat) :
    ((c.giveHandle id uh).users k).email = (c.users k).email := by
  rw [Client.giveHandle, Client.indexHandle_users, Client.modify_users]
  split
  · next same => rw [same]
  · rfl

theorem giveHandle_userhandle (k : Nat) : ((c.giveHandle id uh).users k).userhandle =
    if k = id then uh else (c.users k).userhandle := by
  rw [Client.giveHandle, Client.indexHandle_users, Client.modify_users]
  split
  · rfl
  · rfl

/-- A user gets an unknown handle: the indexes stay consistent exactly if the user is not found
under another handle. -/
theorem Consistent.giveHandle_iff (consistent : Consistent c) (unknown : c.uhindex uh = none) :
    Consistent (c.giveHandle id uh) ↔ c.uhindex (c.users id).userhandle ≠ some id := by
  constructor
  · intro after known
    have other : (c.users id).userhandle ≠ uh := by
      rintro rfl
      rw [unknown] at known
      cases known
    have found := after.handle (update_eq_some.mpr (Or.inr ⟨other, known⟩))
    rw [giveHandle_userhandle, if_pos rfl] at found
    exact other found.symm
  · intro free
    refine ⟨fun {h k} known => ?_, fun {m k} known => ?_, fun {k} some_address => ?_⟩
    · rw [giveHandle_userhandle]
      rcases update_eq_some.mp known with ⟨rfl, rfl⟩ | ⟨-, known⟩
      · rw [if_pos rfl]
      · have handle := consistent.handle known
        rw [if_neg]
        · exact handle
        · rintro rfl
          rw [handle] at free
          exact free known
    · rw [giveHandle_email]
      exact consistent.address known
    · rw [giveHandle_email] at some_address ⊢
      exact consistent.reachable some_address

end Consistency

/-- A state that the operations have reached with consistent indexes. -/
structure Good (c : Client) : Prop extends Consistent c, Bounded c

section Operations

variable {c : Client} {id : Nat} {uh : UInt64} {email : Bytes}

theorem Good.mapuser_iff (good : Good c) (text : blank email = false) :
    Consistent (c.mapuser uh email) ↔ Maps c uh email := by
  cases known : c.uhindex uh with
  | some id =>
    rw [mapuser_known c text known, Maps, known, Option.isSome_some, if_pos rfl, AddressFree, known]
    by_cases without : (c.users id).email = []
    · rw [if_pos without, good.toConsistent.giveAddress_iff without]
      constructor
      · intro free _ some_address
        refine ⟨(free some_address).1, fun k same => ?_⟩
        obtain rfl := Option.some.inj same
        exact (free some_address).2
      · intro free some_address
        have each := free (fun k same => Option.some.inj same ▸ without) some_address
        exact ⟨each.1, each.2 id rfl⟩
    · rw [if_neg without]
      exact ⟨fun _ none => absurd (none id rfl) without, fun _ => good.toConsistent⟩
  | none =>
    rw [Maps, known, Option.isSome_none, if_neg Bool.false_ne_true]
    cases found : c.umindex (nuid email) with
    | some id =>
      rw [mapuser_found c text known found, good.toConsistent.giveHandle_iff known]
      exact ⟨fun free k same => Option.some.inj same ▸ free, fun free => free id rfl⟩
    | none =>
      rw [mapuser_neither c known found]
      exact ⟨fun _ k found => (nomatch found), fun _ => good.toConsistent⟩

theorem Good.recordMe (good : Good c) (v : Visibility) : Good (c.recordMe v uh) :=
  ⟨Consistent.recordMe_iff.mpr good.toConsistent, by
    rw [Client.recordMe]
    split
    · exact good.toBounded.writes (.me c uh)
    · exact good.toBounded⟩

theorem addressFree_recordMe {v : Visibility} {h : UInt64} :
    AddressFree (c.recordMe v h) uh email ↔ AddressFree c uh email := by
  simp only [AddressFree, Client.recordMe_users, Client.recordMe_uhindex, Client.recordMe_umindex]

theorem Good.finduserHandle (good : Good c) (uh : UInt64) (add : Bool) :
    Good (c.finduserHandle uh add).1 := by
  refine ⟨?_, step_keeps Bounded.writes good.toBounded (.finduserHandle uh add)⟩
  rcases finduserHandle_cases c uh add with ⟨same, -⟩ | ⟨id, -, same⟩ | ⟨-, added⟩
  · rw [same]
    exact good.toConsistent
  · rw [same]
    exact good.toConsistent
  · rw [added]
    exact good.toConsistent.addHandle good.toBounded uh

theorem Good.finduser (good : Good c) (uid : Bytes) (add : Bool) :
    Good (c.finduser uid add).1 := by
  refine ⟨?_, step_keeps Bounded.writes good.toBounded (.finduser uid add)⟩
  rcases finduser_cases c uid add with same | ⟨uh, same⟩ | ⟨unknown, added⟩
  · rw [same]
    exact good.toConsistent
  · rw [same]
    exact (good.finduserHandle uh add).toConsistent
  · rw [added]
    exact good.toConsistent.addAddress good.toBounded unknown

/-- `finduser(uh, 1)` finds a user for every handle but 0; a new one has no address to lose. -/
theorem Good.found (good : Good c) (nonzero : uh ≠ 0) : ∃ c' id,
    c.finduserHandle uh true = (c', some id) ∧ c'.uhindex uh = some id ∧ Good c' ∧
      ∀ email, AddressFree c' uh email ↔ AddressFree c uh email := by
  rcases finduserHandle_cases c uh true with ⟨-, null⟩ | ⟨id, known, same⟩ | ⟨unknown, added⟩
  · exact absurd (null rfl) nonzero
  · exact ⟨c, id, same, known, good, fun _ => Iff.rfl⟩
  · have next := good.finduserHandle uh true
    rw [added] at next
    have here : (c.addHandle uh).uhindex uh = some (c.userid + 1) :=
      update_eq_some.mpr (Or.inl ⟨rfl, rfl⟩)
    refine ⟨_, _, added, here, next, fun email => ?_⟩
    have empty : ((c.addHandle uh).users (c.userid + 1)).email = [] := by
      rw [addHandle_new]
      rfl
    have unlisted : (c.addHandle uh).umindex [] ≠ some (c.userid + 1) := fun listed =>
      absurd (good.umindex listed).2 (Nat.not_succ_le_self _)
    simp only [AddressFree, here, unknown, Option.some.injEq, forall_eq', empty, forall_const,
      reduceCtorEq, false_implies, and_true]
    exact forall_congr' fun _ => ⟨fun free => free.1, fun free => ⟨free, unlisted⟩⟩

theorem consistent_set {v : Visibility} {ts : Int64} :
    Consistent (c.modify id (User.set v ts)) ↔ Consistent c :=
  Consistent.modify_iff rfl rfl

theorem Good.readuser_iff (good : Good c) (x : Contact) :
    Consistent (c.readuser x) ↔ KeepsIndexes c (.readuser x) := by
  obtain ⟨uh, v, ts, address⟩ := x
  unfold Client.readuser KeepsIndexes
  cases address with
  | none => exact ⟨fun _ _ missing => (nomatch missing), fun _ => good.toConsistent⟩
  | some m =>
    dsimp only
    by_cases unset : uh = undef
    · rw [if_pos unset]
      exact ⟨fun _ _ _ set => absurd unset set, fun _ => good.toConsistent⟩
    · rw [if_neg unset]
      by_cases null : uh = 0
      · have none : (c.recordMe v uh).finduserHandle uh true = (c.recordMe v uh, none) := by
          rw [Client.finduserHandle, if_pos null]
        rw [none]
        exact ⟨fun _ _ _ _ nonzero => absurd null nonzero,
          fun _ => (good.recordMe v).toConsistent⟩
      · obtain ⟨c', id, found, known, good', free⟩ := (good.recordMe v).found null
        rw [found]
        dsimp only
        have mapped : Consistent (if v = visibilityUnknown then c'.mapuser uh m
            else (c'.mapuser uh m).modify id (User.set v ts)) ↔
              Consistent (c'.mapuser uh m) := by
          split
          · exact Iff.rfl
          · exact consistent_set
        rw [mapped]
        cases empty : blank m with
        | true =>
          rw [mapuser_blank c' empty]
          refine ⟨fun _ k same _ _ text => ?_, fun _ => good'.toConsistent⟩
          obtain rfl := Option.some.inj same
          rw [empty] at text
          cases text
        | false =>
          rw [good'.mapuser_iff empty, Maps, known, Option.isSome_some, if_pos rfl, free,
            addressFree_recordMe]
          refine ⟨fun free k same _ _ _ => ?_, fun free => free m rfl unset null empty⟩
          obtain rfl := Option.some.inj same
          exact free

theorem consistent_readRest (ptr : Bytes) :
    Consistent (c.readRest id ptr).1 ↔ Consistent c := by
  unfold Client.readRest
  split_ifs
  · exact Iff.rfl
  · cases Cache.AttrMap.unserializeFrom (ptr.length + 1) (c.users id).attrs ptr with
    | null => exact Iff.rfl
    | wild => exact Iff.rfl
    | ok entry =>
      dsimp only
      split_ifs
      all_goals dsimp only
      · exact Consistent.modify_iff rfl rfl
      all_goals exact (Consistent.modify_iff rfl rfl).trans (Consistent.modify_iff rfl rfl)

theorem Good.unserialize_iff (good : Good c) (d : Bytes) :
    Consistent (c.unserialize d).1 ↔ KeepsIndexes c (.unserialize d) := by
  unfold Client.unserialize
  simp only [KeepsIndexes]
  generalize UserHead.read (d ++ [0]) = head
  cases head with
  | null => exact ⟨fun _ _ _ read => (nomatch read), fun _ => good.toConsistent⟩
  | wild => exact ⟨fun _ _ _ read => (nomatch read), fun _ => good.toConsistent⟩
  | ok head =>
    obtain ⟨x, ptr⟩ := head
    dsimp only
    by_cases null : x.uh = 0
    · have none : c.finduserHandle x.uh true = (c, none) := by
        rw [Client.finduserHandle, if_pos null]
      rw [none]
      refine ⟨fun _ y rest same nonzero => ?_, fun _ => good.toConsistent⟩
      obtain ⟨rfl, -⟩ := Prod.mk.inj (RecordReader.Read.ok.inj same)
      exact absurd null nonzero
    · obtain ⟨c', id, found, known, good', free⟩ := good.found null
      rw [found]
      dsimp only
      rw [consistent_readRest, consistent_set]
      have known_me : (c'.recordMe x.v x.uh).uhindex x.uh = some id := by
        rw [Client.recordMe_uhindex, known]
      cases empty : blank x.m with
      | true =>
        rw [mapuser_blank _ empty]
        refine ⟨fun _ y rest same _ text => ?_, fun _ => (good'.recordMe x.v).toConsistent⟩
        obtain ⟨rfl, -⟩ := Prod.mk.inj (RecordReader.Read.ok.inj same)
        rw [empty] at text
        cases text
      | false =>
        rw [(good'.recordMe x.v).mapuser_iff empty, Maps, known_me, Option.isSome_some, if_pos rfl,
          addressFree_recordMe, free]
        refine ⟨fun free y rest same _ _ => ?_, fun free => free x ptr rfl null empty⟩
        obtain ⟨rfl, -⟩ := Prod.mk.inj (RecordReader.Read.ok.inj same)
        exact free

end Operations

/-- The condition is exact for every operation. -/
theorem Good.step_iff {c : Client} (good : Good c) (e : Event) :
    Consistent (step c e) ↔ KeepsIndexes c e := by
  cases e with
  | finduserHandle uh add =>
    exact ⟨fun _ => trivial, fun _ => (good.finduserHandle uh add).toConsistent⟩
  | finduser uid add => exact ⟨fun _ => trivial, fun _ => (good.finduser uid add).toConsistent⟩
  | mapuser uh email =>
    cases empty : blank email with
    | true =>
      rw [step, mapuser_blank c empty]
      exact ⟨fun _ text => absurd (empty.symm.trans text) Bool.true_eq_false_eq_False,
        fun _ => good.toConsistent⟩
    | false =>
      rw [step, good.mapuser_iff empty]
      exact ⟨fun maps _ => maps, fun maps => maps empty⟩
  | readuser contact => exact good.readuser_iff contact
  | unserialize d => exact good.unserialize_iff d

/-- The indexes are consistent in every state of a run exactly if no step of it takes an address
from a user or a user from its handle. -/
theorem always_consistent_iff (events : List Event) :
    Always step Consistent Client.start events ↔ Meets step KeepsIndexes Client.start events := by
  have start : Good Client.start := ⟨consistent_start, bounded_start⟩
  have keeps : ∀ c e, Good c → KeepsIndexes c e → Good (step c e) := fun _ e good meets =>
    ⟨(good.step_iff e).mpr meets, step_keeps Bounded.writes good.toBounded e⟩
  have needs : ∀ c e, Good c → Consistent (step c e) → KeepsIndexes c e := fun _ e good =>
    (good.step_iff e).mp
  exact always_iff_meets_of (fun _ good => good.toConsistent) keeps needs start events

/-- A user is created by its address, and then the contact list brings the same address with the
handle: the handle gets a second user, and the address goes over to it. -/
def contactArrives : List Event :=
  [.finduser (ascii "a@b") true, .readuser ⟨1, visible, 0, some (ascii "a@b\",")⟩]

theorem contactArrives_loses : ¬Always step Consistent Client.start contactArrives := by
  intro always
  have found := @Consistent.reachable _ always.at_end 1 (by decide)
  exact absurd found (by decide)

end MegaSdk.Contacts
