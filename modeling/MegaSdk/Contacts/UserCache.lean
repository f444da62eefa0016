import MegaSdk.Contacts.UserIndex
import Mathlib.Data.Set.Function

/-!
# The user table in the state cache

The records are read through `finduser` and `mapuser`, not copied. A table comes back, in whatever
order its records are read, exactly if every user has a handle of its own and the indexes hold the
handles and addresses of the users and nothing else.
-/

namespace MegaSdk.Contacts

open ByteOrder RecordReader Runs
open Cache (AttrMap NodeHead copystring undef word64)
open Crypto (PublicKey bitCount decodeints serializeint decodeints_serializeint)

/-- What a record can hold: an address without NUL and quote and shorter than 256 bytes, attributes
with names of 1 to 8 bytes and short values, and integers of less than 65536 bits. -/
structure User.Storable (u : User) : Prop where
  plain : ∀ b ∈ u.email, b ≠ 0 ∧ b ≠ 34
  short : u.email.length < 256
  attrs : u.attrs.Storable
  pq : bitCount u.pubk.pq < 65536
  e : bitCount u.pubk.e < 65536

/-- The public key of a user, if there is a valid one. -/
def User.publicKey (u : User) : Option PublicKey := if isvalid u.pubk then some u.pubk else none

def User.keyBytes (u : User) : Bytes := if isvalid u.pubk then serializekey u.pubk else []

def User.reloaded (u : User) : User :=
  { u with
    uid := handleText u.userhandle
    pubk := if isvalid u.pubk then u.pubk else ⟨0, 0⟩ }

section Records

variable {u : User}

theorem setkey_serializekey {key : PublicKey} (pq : bitCount key.pq < 65536)
    (e : bitCount key.e < 65536) (old : PublicKey) :
    setkey old (serializekey key) = (key, true) := by
  have second := decodeints_serializeint e 0 []
  rw [List.append_nil] at second
  have both : decodeints 2 (serializekey key) = some ([key.pq, key.e], []) := by
    rw [serializekey, decodeints_serializeint pq, second]
    rfl
  rw [setkey, both]
  rfl

theorem copystring_plain {text : Bytes} (plain : ∀ b ∈ text, b ≠ 0 ∧ b ≠ 34) :
    copystring text = text :=
  List.takeWhile_eq_self_iff.mpr fun b mem => by simpa using plain b mem

theorem read_serialize (storable : u.Storable) : UserHead.read (u.serialize ++ [0]) =
    .ok (⟨u.userhandle, u.ctime, u.visibility, u.email⟩,
      u.attrs.serialize ++ (u.keyBytes ++ [0])) := by
  have l : u.email.length % 256 = u.email.length := Nat.mod_eq_of_lt storable.short
  have word : (UInt8.ofNat u.email.length).toNat = u.email.length := by
    rw [UInt8.toNat_ofNat', l]
  have written : u.serialize ++ [0] = leBytes 8 u.userhandle.toNat ++
      (leBytes 8 u.ctime.toUInt64.toNat ++ (leBytes 4 u.visibility.toUInt32.toNat ++
        (UInt8.ofNat u.email.length :: (u.email ++ (List.replicate 8 0 ++
          (u.attrs.serialize ++ (u.keyBytes ++ [0]))))))) := by
    rw [User.serialize, l, List.take_length, User.keyBytes, word64]
    simp only [List.append_assoc, List.cons_append, List.nil_append]
  have more : u.attrs.serialize ++ (u.keyBytes ++ [0]) ≠ [] := by simp
  have enough : 22 < (u.serialize ++ [0]).length := by
    rw [written]
    simp only [List.length_append, length_leBytes, List.length_cons, List.length_replicate]
    omega
  have uh : u.userhandle.toNat < 256 ^ 8 := u.userhandle.toNat_lt
  have ts : u.ctime.toUInt64.toNat < 256 ^ 8 := u.ctime.toUInt64.toNat_lt
  have v : u.visibility.toUInt32.toNat < 256 ^ 4 := u.visibility.toUInt32.toNat_lt
  rw [UserHead.read, require, if_pos enough, Read.bind_ok, written]
  simp only [word_append uh, word_append ts, word_append v, Read.bind_ok, word_one, word,
    bytes_append rfl, Cache.Node.skip_zeros 8 more, UInt64.ofNat_toNat, UInt32.ofNat_toNat,
    Int64.toInt64_toUInt64, Int32.toInt32_toUInt32]

theorem serializekey_ne_nil (key : PublicKey) : serializekey key ≠ [] := by
  rw [serializekey, serializeint, List.cons_append]
  exact List.cons_ne_nil _ _

variable {c : Client} {id : Nat}

theorem modify_modify (f g : User → User) :
    (c.modify id f).modify id g = c.modify id fun v => g (f v) := by
  simp only [Client.modify, Function.update_self, Function.update_idem]

/-- The end of a record, for a user that has neither attributes nor a key. -/
theorem readRest_serialize (storable : u.Storable) (attrs : (c.users id).attrs = [])
    (pubk : (c.users id).pubk = ⟨0, 0⟩) :
    c.readRest id (u.attrs.serialize ++ (u.keyBytes ++ [0])) =
      (c.modify id fun v => { v with attrs := u.attrs, pubk := u.reloaded.pubk }, .ok id) := by
  have some_attrs : u.attrs.serialize ≠ [] := by simp [AttrMap.serialize]
  have positive := List.length_pos_iff.mpr some_attrs
  have read : AttrMap.unserializeFrom ((u.attrs.serialize ++ (u.keyBytes ++ [0])).length + 1) []
      (u.attrs.serialize ++ (u.keyBytes ++ [0])) = .ok (u.attrs, u.keyBytes ++ [0]) :=
    AttrMap.unserialize_serialize storable.attrs _
  rw [Client.readRest, if_neg (by simp only [List.length_append, List.length_singleton]; omega),
    attrs, read]
  dsimp only
  cases valid : isvalid u.pubk with
  | false =>
    have none : u.keyBytes = [] := by
      rw [User.keyBytes, valid]
      rfl
    have zero : u.reloaded.pubk = ⟨0, 0⟩ := by
      rw [User.reloaded, valid]
      rfl
    rw [none, if_pos (by simp), zero]
    congr 1
    rw [Client.modify, Client.modify, pubk]
  | true =>
    have some_key : u.keyBytes = serializekey u.pubk := by
      rw [User.keyBytes, valid]
      rfl
    have key : u.reloaded.pubk = u.pubk := by
      rw [User.reloaded, valid]
      rfl
    have length := List.length_pos_iff.mpr (serializekey_ne_nil u.pubk)
    rw [some_key, if_neg (by rw [List.length_append, List.length_singleton]; omega),
      List.dropLast_concat, setkey_serializekey storable.pq storable.e, modify_modify, key]
    rfl

end Records

/-- The client with one more user, as its record brings it. -/
def Client.loaded (c : Client) (u : User) : Client where
  users := Function.update c.users (c.userid + 1) u.reloaded
  userid := c.userid + 1
  uhindex := Function.update c.uhindex u.userhandle (some (c.userid + 1))
  umindex := if u.email = [] then c.umindex
    else Function.update c.umindex (u.email.map tolower) (some (c.userid + 1))
  me := if u.visibility = ownAccount then u.userhandle else c.me

section Loaded

variable (c : Client) (u : User)

@[simp] theorem loaded_userid : (c.loaded u).userid = c.userid + 1 := rfl

@[simp] theorem loaded_users (id : Nat) :
    (c.loaded u).users id = if id = c.userid + 1 then u.reloaded else c.users id :=
  Function.update_apply ..

@[simp] theorem loaded_uhindex (h : UInt64) : (c.loaded u).uhindex h =
    if u.userhandle = h then some (c.userid + 1) else c.uhindex h := by
  simp only [Client.loaded, Function.update_apply, eq_comm]

@[simp] theorem loaded_umindex (m : Bytes) : (c.loaded u).umindex m =
    if u.email ≠ [] ∧ u.email.map tolower = m then some (c.userid + 1) else c.umindex m := by
  by_cases none : u.email = []
  · simp [Client.loaded, none]
  · simp only [Client.loaded, none, if_false, Function.update_apply, ne_eq, not_false_eq_true,
      true_and, eq_comm]

end Loaded

/-- `mapuser` for a user that has no address yet. -/
theorem mapuser_plain {d : Client} {uh : UInt64} {id : Nat} {email : Bytes}
    (plain : ∀ b ∈ email, b ≠ 0 ∧ b ≠ 34) (known : d.uhindex uh = some id)
    (without : (d.users id).email = []) : d.mapuser uh email =
      { d with
        users := Function.update d.users id { d.users id with email := email }
        umindex := if email = [] then d.umindex
          else Function.update d.umindex (email.map tolower) (some id) } := by
  cases email with
  | nil =>
    have same : { d.users id with email := [] } = d.users id := by rw [← without]
    rw [mapuser_blank d rfl, same, Function.update_eq_self, if_pos rfl]
  | cons b rest =>
    have text : blank (b :: rest) = false := decide_eq_false (plain b List.mem_cons_self).1
    rw [mapuser_known d text known, if_pos without, Client.giveAddress, nuid,
      copystring_plain plain, if_neg (List.cons_ne_nil b rest)]
    rfl

/-- The record of a user with an unknown handle brings one user more. -/
theorem unserialize_serialize {c : Client} {u : User} (storable : u.Storable)
    (nonzero : u.userhandle ≠ 0) (unknown : c.uhindex u.userhandle = none) :
    c.unserialize u.serialize = (c.loaded u, .ok (c.userid + 1)) := by
  have found : c.finduserHandle u.userhandle true =
      (c.addHandle u.userhandle, some (c.userid + 1)) := by
    rw [Client.finduserHandle, if_neg nonzero, unknown]
    rfl
  have known : ((c.addHandle u.userhandle).recordMe u.visibility u.userhandle).uhindex
      u.userhandle = some (c.userid + 1) := by
    rw [Client.recordMe_uhindex]
    exact update_eq_some.mpr (Or.inl ⟨rfl, rfl⟩)
  have fresh : ((c.addHandle u.userhandle).recordMe u.visibility u.userhandle).users
      (c.userid + 1) = { User.new with uid := handleText u.userhandle, userhandle := u.userhandle } := by
    rw [Client.recordMe_users, addHandle_new]
  have mapped := mapuser_plain storable.plain known (by rw [fresh]; rfl)
  rw [Client.unserialize, read_serialize storable]
  dsimp only
  rw [found]
  dsimp only
  rw [mapped, fresh, readRest_serialize storable]
  · rw [modify_modify, Client.recordMe]
    congr 1
    rw [Client.loaded]
    by_cases own : u.visibility = ownAccount
    · simp only [if_pos own, Client.modify, Client.addHandle, Client.indexHandle, Client.create,
        Function.update_self, Function.update_idem]
      rfl
    · simp only [if_neg own, Client.modify, Client.addHandle, Client.indexHandle, Client.create,
        Function.update_self, Function.update_idem]
      rfl
  all_goals
    rw [Client.modify_users, if_pos rfl]
    simp only [Function.update_self]
    rfl

namespace Client

/-- The user records of `fetchsc`, which fails with the first that cannot be read. -/
def fetchUsers (c : Client) : List Bytes → Option Client
  | [] => some c
  | d :: rest =>
    match c.unserialize d with
    | (c, .ok _) => c.fetchUsers rest
    | _ => none

/-- The numbers of the users, as `initsc` runs through them. -/
def ids (c : Client) : List Nat := List.range' 1 c.userid

def records (c : Client) (order : List Nat) : List Bytes :=
  order.map fun id => (c.users id).serialize

/-- The attributes and public keys that other commands have brought. -/
def equip (c : Client) (attrs : Nat → AttrMap) (pubk : Nat → PublicKey) : Client :=
  { c with users := fun id => { c.users id with attrs := attrs id, pubk := pubk id } }

end Client

structure User.Same (u v : User) : Prop where
  userhandle : v.userhandle = u.userhandle
  email : v.email = u.email
  visibility : v.visibility = u.visibility
  ctime : v.ctime = u.ctime
  attrs : v.attrs = u.attrs
  publicKey : v.publicKey = u.publicKey

/-- The same users under other numbers, found by the same handles and addresses. -/
structure Renumbered (number : Nat → Nat) (c d : Client) : Prop where
  bijective : Set.BijOn number {id | c.Live id} {id | d.Live id}
  user : ∀ {id}, c.Live id → (c.users id).Same (d.users (number id))
  handle : ∀ h, (d.finduserHandle h false).2 = (c.finduserHandle h false).2.map number
  address : ∀ m, d.umindex m = (c.umindex m).map number

/-- Every user has a handle of its own, and the indexes hold what the users have. -/
structure Linked (c : Client) : Prop where
  nonzero : ∀ {id}, c.Live id → (c.users id).userhandle ≠ 0
  handle : ∀ {h} id, h ≠ 0 → (c.uhindex h = some id ↔ c.Live id ∧ (c.users id).userhandle = h)
  address : ∀ m id, c.umindex m = some id ↔
    c.Live id ∧ (c.users id).email ≠ [] ∧ (c.users id).email.map tolower = m

theorem mem_ids {c : Client} {id : Nat} : id ∈ c.ids ↔ c.Live id := by
  rw [Client.ids, List.mem_range'_1, Client.Live]
  omega

theorem nodup_ids (c : Client) : c.ids.Nodup := List.nodup_range'

section Replica

variable (c : Client)

/-- The client that has read the records of the users in `order`. -/
def replica (order : List Nat) : Client :=
  order.foldl (fun d id => d.loaded (c.users id)) Client.start

def place (order : List Nat) (id : Nat) : Nat := order.idxOf id + 1

/-- Different users with different handles, none of them 0. -/
structure Apart (order : List Nat) : Prop where
  nodup : order.Nodup
  nonzero : ∀ id ∈ order, (c.users id).userhandle ≠ 0
  apart : ∀ id ∈ order, ∀ k ∈ order, (c.users id).userhandle = (c.users k).userhandle → id = k

variable {c} {order : List Nat}

theorem replica_concat (id : Nat) :
    replica c (order ++ [id]) = (replica c order).loaded (c.users id) := by
  rw [replica, List.foldl_append]
  rfl

theorem replica_userid : (replica c order).userid = order.length := by
  induction order using List.reverseRecOn with
  | nil => rfl
  | append_singleton order id ih =>
    rw [replica_concat, loaded_userid, ih, List.length_append, List.length_singleton]

theorem place_old {id : Nat} (member : id ∈ order) (x : Nat) :
    place (order ++ [x]) id = place order id := by
  rw [place, List.idxOf_append_of_mem member, place]

theorem place_new {x : Nat} (absent : x ∉ order) : place (order ++ [x]) x = order.length + 1 := by
  rw [place, List.idxOf_append_of_notMem absent, List.idxOf_cons_self, Nat.add_zero]

theorem place_le {id : Nat} (member : id ∈ order) : place order id ≤ order.length :=
  List.idxOf_lt_length_of_mem member

theorem replica_users (nodup : order.Nodup) {id : Nat} (member : id ∈ order) :
    (replica c order).users (place order id) = (c.users id).reloaded := by
  induction order using List.reverseRecOn with
  | nil => cases member
  | append_singleton order x ih =>
    obtain ⟨before, -, disjoint⟩ := List.nodup_append.mp nodup
    have absent : x ∉ order := fun mem => disjoint x mem x List.mem_cons_self rfl
    rw [replica_concat, loaded_users, replica_userid]
    rcases List.mem_append.mp member with old | new
    · have below := place_le old
      rw [place_old old, if_neg (by omega)]
      exact ih before old
    · obtain rfl := List.mem_singleton.mp new
      rw [place_new absent, if_pos rfl]

/-- The last element with a property, under its place. -/
theorem find_concat (p : Nat → Bool) {x : Nat} (absent : x ∉ order) :
    (((order ++ [x]).reverse.find? p).map (place (order ++ [x]))) =
      if p x then some (order.length + 1) else (order.reverse.find? p).map (place order) := by
  rw [List.reverse_append, List.reverse_singleton, List.singleton_append, List.find?_cons]
  cases p x with
  | true => rw [if_pos rfl, Option.map_some, place_new absent]
  | false =>
    rw [if_neg Bool.false_ne_true]
    exact Option.map_congr fun id found =>
      place_old (List.mem_reverse.mp (List.mem_of_find?_eq_some found)) x

theorem replica_uhindex (nodup : order.Nodup) (h : UInt64) : (replica c order).uhindex h =
    (order.reverse.find? fun id => (c.users id).userhandle = h).map (place order) := by
  induction order using List.reverseRecOn with
  | nil => rfl
  | append_singleton order x ih =>
    obtain ⟨before, -, disjoint⟩ := List.nodup_append.mp nodup
    have absent : x ∉ order := fun mem => disjoint x mem x List.mem_cons_self rfl
    rw [find_concat _ absent, replica_concat, loaded_uhindex, replica_userid, ih before]
    simp only [decide_eq_true_eq]

theorem replica_umindex (nodup : order.Nodup) (m : Bytes) : (replica c order).umindex m =
    (order.reverse.find? fun id =>
      (c.users id).email ≠ [] ∧ (c.users id).email.map tolower = m).map (place order) := by
  induction order using List.reverseRecOn with
  | nil => rfl
  | append_singleton order x ih =>
    obtain ⟨before, -, disjoint⟩ := List.nodup_append.mp nodup
    have absent : x ∉ order := fun mem => disjoint x mem x List.mem_cons_self rfl
    rw [find_concat _ absent, replica_concat, loaded_umindex, replica_userid, ih before]
    simp only [decide_eq_true_eq]

end Replica

section Fetch

variable {c : Client}

/-- Records of users with different handles are read into the replica. -/
theorem fetch_replica {done todo : List Nat} (storable : ∀ id ∈ todo, (c.users id).Storable)
    (apart : Apart c (done ++ todo)) :
    (replica c done).fetchUsers (c.records todo) = some (replica c (done ++ todo)) := by
  induction todo generalizing done with
  | nil => rw [List.append_nil, Client.records, List.map_nil, Client.fetchUsers]
  | cons id todo ih =>
    have member : id ∈ done ++ id :: todo := List.mem_append_right _ List.mem_cons_self
    obtain ⟨nodup, -, disjoint⟩ := List.nodup_append.mp apart.nodup
    have unknown : (replica c done).uhindex (c.users id).userhandle = none := by
      rw [replica_uhindex nodup, Option.map_eq_none_iff, List.find?_eq_none]
      intro k earlier same
      have before := List.mem_reverse.mp earlier
      have equal := apart.apart k (List.mem_append_left _ before) id member (of_decide_eq_true same)
      exact disjoint k before id List.mem_cons_self equal
    have read := unserialize_serialize (storable id List.mem_cons_self)
      (apart.nonzero id member) unknown
    have split : done ++ id :: todo = (done ++ [id]) ++ todo := by simp
    rw [Client.records, List.map_cons, Client.fetchUsers, read]
    dsimp only
    rw [← replica_concat, split]
    exact ih (fun k later => storable k (List.mem_cons_of_mem _ later)) (split ▸ apart)

/-- No user is read whose handle is 0. -/
theorem nonzero_of_fetch {order : List Nat} {d e : Client}
    (storable : ∀ id ∈ order, (c.users id).Storable)
    (read : d.fetchUsers (c.records order) = some e) :
    ∀ id ∈ order, (c.users id).userhandle ≠ 0 := by
  induction order generalizing d with
  | nil => exact fun _ member => absurd member List.not_mem_nil
  | cons id order ih =>
    have here : (c.users id).userhandle ≠ 0 := by
      intro null
      have refused : d.unserialize (c.users id).serialize = (d, .null) := by
        rw [Client.unserialize, read_serialize (storable id List.mem_cons_self)]
        dsimp only
        rw [Client.finduserHandle, if_pos null]
      rw [Client.records, List.map_cons, Client.fetchUsers, refused] at read
      cases read
    rw [Client.records, List.map_cons, Client.fetchUsers] at read
    split at read
    · intro k member
      rcases List.mem_cons.mp member with rfl | later
      · exact here
      · exact ih (fun j mem => storable j (List.mem_cons_of_mem _ mem)) read k later
    · cases read

def Indexed (d : Client) : Prop := ∀ id, d.Live id → d.uhindex (d.users id).userhandle = some id

/-- What decides whether users are found by their handles. -/
structure SameHandles (d e : Client) : Prop where
  userid : e.userid = d.userid
  uhindex : e.uhindex = d.uhindex
  userhandle : ∀ id, (e.users id).userhandle = (d.users id).userhandle

theorem SameHandles.trans {d e f : Client} (first : SameHandles d e) (second : SameHandles e f) :
    SameHandles d f :=
  ⟨second.userid.trans first.userid, second.uhindex.trans first.uhindex,
    fun id => (second.userhandle id).trans (first.userhandle id)⟩

theorem SameHandles.indexed {d e : Client} (same : SameHandles d e) (indexed : Indexed d) :
    Indexed e := by
  intro id live
  rw [Client.Live, same.userid] at live
  rw [same.uhindex, same.userhandle]
  exact indexed id live

theorem sameHandles_modify {d : Client} {id : Nat} {f : User → User}
    (handle : (f (d.users id)).userhandle = (d.users id).userhandle) :
    SameHandles d (d.modify id f) where
  userid := rfl
  uhindex := rfl
  userhandle k := by
    rw [Client.modify_users]
    split
    · next same => rw [same, handle]
    · rfl

theorem sameHandles_readRest {d : Client} {id : Nat} (ptr : Bytes) :
    SameHandles d (d.readRest id ptr).1 := by
  unfold Client.readRest
  split_ifs
  · exact ⟨rfl, rfl, fun _ => rfl⟩
  · cases AttrMap.unserializeFrom (ptr.length + 1) (d.users id).attrs ptr with
    | null => exact ⟨rfl, rfl, fun _ => rfl⟩
    | wild => exact ⟨rfl, rfl, fun _ => rfl⟩
    | ok entry =>
      dsimp only
      split_ifs
      all_goals dsimp only
      · exact sameHandles_modify rfl
      all_goals exact (sameHandles_modify rfl).trans (sameHandles_modify rfl)

theorem sameHandles_mapuser {d : Client} {uh : UInt64} {id : Nat} (known : d.uhindex uh = some id)
    (email : Bytes) : SameHandles d (d.mapuser uh email) := by
  cases empty : blank email with
  | true =>
    rw [mapuser_blank d empty]
    exact ⟨rfl, rfl, fun _ => rfl⟩
  | false =>
    rw [mapuser_known d empty known]
    split
    · exact ⟨rfl, rfl, giveAddress_userhandle⟩
    · exact ⟨rfl, rfl, fun _ => rfl⟩

theorem Indexed.addHandle {d : Client} (indexed : Indexed d) {uh : UInt64}
    (unknown : d.uhindex uh = none) : Indexed (d.addHandle uh) := by
  intro id live
  rcases eq_or_ne id (d.userid + 1) with rfl | other
  · rw [addHandle_new]
    exact update_eq_some.mpr (Or.inl ⟨rfl, rfl⟩)
  · have old : d.Live id := ⟨live.1, Nat.lt_succ_iff.mp (Nat.lt_of_le_of_ne live.2 other)⟩
    have known := indexed id old
    rw [addHandle_old old.2]
    refine update_eq_some.mpr (Or.inr ⟨fun same => ?_, known⟩)
    rw [same, unknown] at known
    cases known

theorem Indexed.unserialize {d : Client} (indexed : Indexed d) (data : Bytes) :
    Indexed (d.unserialize data).1 := by
  unfold Client.unserialize
  cases UserHead.read (data ++ [0]) with
  | null => exact indexed
  | wild => exact indexed
  | ok head =>
    obtain ⟨x, ptr⟩ := head
    dsimp only
    have rest : ∀ e id, e.uhindex x.uh = some id → SameHandles e
        ((((e.recordMe x.v x.uh).mapuser x.uh x.m).modify id (User.set x.v x.ts)).readRest id ptr).1 := by
      intro e id known
      have me : SameHandles e (e.recordMe x.v x.uh) :=
        ⟨Client.recordMe_userid .., Client.recordMe_uhindex .., fun k => by
          rw [Client.recordMe_users]⟩
      rw [← Client.recordMe_uhindex e x.v x.uh] at known
      exact ((me.trans (sameHandles_mapuser known x.m)).trans (sameHandles_modify rfl)).trans
        (sameHandles_readRest ptr)
    rcases finduserHandle_cases d x.uh true with ⟨none, -⟩ | ⟨id, known, found⟩ | ⟨unknown, added⟩
    · rw [none]
      exact indexed
    · rw [found]
      exact (rest d id known).indexed indexed
    · rw [added]
      exact (rest _ _ (update_eq_some.mpr (Or.inl ⟨rfl, rfl⟩))).indexed (indexed.addHandle unknown)

theorem Indexed.fetch {d e : Client} (indexed : Indexed d) {data : List Bytes}
    (read : d.fetchUsers data = some e) : Indexed e := by
  induction data generalizing d with
  | nil =>
    obtain rfl := Option.some.inj read
    exact indexed
  | cons record data ih =>
    have next := indexed.unserialize record
    rw [Client.fetchUsers] at read
    split at read
    · next f id found =>
      rw [found] at next
      exact ih next read
    · cases read

end Fetch

section Reload

variable {c d : Client} {order : List Nat} {number : Nat → Nat}

theorem lookup_handle (h : UInt64) :
    (c.finduserHandle h false).2 = if h = 0 then none else c.uhindex h := by
  rw [Client.finduserHandle]
  split
  · rfl
  · cases c.uhindex h with
    | some id => rfl
    | none => rfl

/-- A search from either end finds the only element with a property. -/
theorem find_unique {p : Nat → Bool} {o : Option Nat}
    (unique : ∀ id, o = some id ↔ id ∈ order ∧ p id = true) : order.reverse.find? p = o := by
  cases found : order.reverse.find? p with
  | some id =>
    have member := List.mem_reverse.mp (List.mem_of_find?_eq_some found)
    exact ((unique id).mpr ⟨member, List.find?_some found⟩).symm
  | none =>
    cases o with
    | none => rfl
    | some id =>
      obtain ⟨member, holds⟩ := (unique id).mp rfl
      exact absurd holds (List.find?_eq_none.mp found id (List.mem_reverse.mpr member))

theorem same_reloaded (u : User) : u.Same u.reloaded where
  userhandle := rfl
  email := rfl
  visibility := rfl
  ctime := rfl
  attrs := rfl
  publicKey := by
    rw [User.publicKey, User.publicKey]
    cases valid : isvalid u.pubk with
    | true =>
      have kept : u.reloaded.pubk = u.pubk := by
        rw [User.reloaded, valid]
        rfl
      rw [kept, valid]
    | false =>
      have none : u.reloaded.pubk = ⟨0, 0⟩ := by
        rw [User.reloaded, valid]
        rfl
      rw [none, if_neg Bool.false_ne_true]
      rfl

theorem bijOn_place (nodup : order.Nodup) (all : ∀ id, id ∈ order ↔ c.Live id) :
    Set.BijOn (place order) {id | c.Live id} {id | (replica c order).Live id} := by
  refine ⟨?_, ?_, ?_⟩
  · intro id live
    have below := place_le ((all id).mpr live)
    rw [← replica_userid (c := c)] at below
    exact ⟨Nat.succ_pos _, below⟩
  · intro id live k _ same
    exact (List.idxOf_inj ((all id).mpr live)).mp (Nat.succ.inj same)
  · intro k live
    have below : k - 1 < order.length := by
      have bounds : 0 < k ∧ k ≤ (replica c order).userid := live
      rw [replica_userid] at bounds
      omega
    refine ⟨order[k - 1], (all _).mp (List.getElem_mem below), ?_⟩
    rw [place, nodup.idxOf_getElem]
    exact Nat.sub_add_cancel live.1

theorem Linked.apart (linked : Linked c) (nodup : order.Nodup)
    (all : ∀ id, id ∈ order ↔ c.Live id) : Apart c order where
  nodup := nodup
  nonzero id member := linked.nonzero ((all id).mp member)
  apart id member k other same := by
    have nonzero := linked.nonzero ((all id).mp member)
    have first := (linked.handle id nonzero).mpr ⟨(all id).mp member, rfl⟩
    have second := (linked.handle k nonzero).mpr ⟨(all k).mp other, same.symm⟩
    exact Option.some.inj (first.symm.trans second)

/-- A linked table is read in any order. -/
theorem Linked.renumbered (linked : Linked c) (nodup : order.Nodup)
    (all : ∀ id, id ∈ order ↔ c.Live id) : Renumbered (place order) c (replica c order) where
  bijective := bijOn_place nodup all
  user {id} live := by
    rw [replica_users nodup ((all id).mpr live)]
    exact same_reloaded _
  handle h := by
    rw [lookup_handle, lookup_handle]
    split
    · rfl
    · next nonzero =>
      rw [replica_uhindex nodup, find_unique (o := c.uhindex h)]
      intro id
      rw [linked.handle id nonzero, all id, decide_eq_true_eq]
  address m := by
    rw [replica_umindex nodup, find_unique (o := c.umindex m)]
    intro id
    rw [linked.address m id, all id, decide_eq_true_eq]

/-- If a table comes back, then its users have different handles. -/
theorem Renumbered.apart (renumbered : Renumbered number c d) (indexed : Indexed d)
    (nodup : order.Nodup) (all : ∀ id, id ∈ order ↔ c.Live id)
    (nonzero : ∀ id ∈ order, (c.users id).userhandle ≠ 0) : Apart c order where
  nodup := nodup
  nonzero := nonzero
  apart id member k other same := by
    have live := (all id).mp member
    have live_k := (all k).mp other
    have first := indexed _ (renumbered.bijective.mapsTo live)
    have second := indexed _ (renumbered.bijective.mapsTo live_k)
    rw [(renumbered.user live).userhandle] at first
    rw [(renumbered.user live_k).userhandle, ← same] at second
    exact renumbered.bijective.injOn live live_k (Option.some.inj (first.symm.trans second))

/-- A renumbering onto the replica is the place in the order. -/
theorem Renumbered.eq_place (renumbered : Renumbered number c (replica c order))
    (apart : Apart c order) (all : ∀ id, id ∈ order ↔ c.Live id) {id k : Nat} (live : c.Live id)
    (member : k ∈ order) (same : number id = place order k) : id = k := by
  have handles := (renumbered.user live).userhandle
  rw [same, replica_users apart.nodup member] at handles
  exact apart.apart id ((all id).mpr live) k member handles.symm

theorem Renumbered.handle_iff (renumbered : Renumbered number c (replica c order))
    (apart : Apart c order) (all : ∀ id, id ∈ order ↔ c.Live id)
    (indexed : Indexed (replica c order)) (listed : ∀ {h id}, c.uhindex h = some id → c.Live id)
    {h : UInt64} (id : Nat) (nonzero : h ≠ 0) :
    c.uhindex h = some id ↔ c.Live id ∧ (c.users id).userhandle = h := by
  have lookup := renumbered.handle h
  rw [lookup_handle, lookup_handle, if_neg nonzero, if_neg nonzero] at lookup
  constructor
  · intro known
    have live := listed known
    rw [known, Option.map_some, replica_uhindex apart.nodup, Option.map_eq_some_iff] at lookup
    obtain ⟨k, found, same⟩ := lookup
    have member := List.mem_reverse.mp (List.mem_of_find?_eq_some found)
    obtain rfl := renumbered.eq_place apart all live member same.symm
    have holds := List.find?_some found
    exact ⟨live, of_decide_eq_true holds⟩
  · rintro ⟨live, rfl⟩
    have known := indexed _ (renumbered.bijective.mapsTo live)
    rw [(renumbered.user live).userhandle, lookup, Option.map_eq_some_iff] at known
    obtain ⟨k, known, same⟩ := known
    rw [known, renumbered.bijective.injOn (listed known) live same]

theorem Renumbered.address_of_listed (renumbered : Renumbered number c (replica c order))
    (apart : Apart c order) (all : ∀ id, id ∈ order ↔ c.Live id) {m : Bytes} {id : Nat}
    (live : c.Live id) (known : c.umindex m = some id) :
    (c.users id).email ≠ [] ∧ (c.users id).email.map tolower = m := by
  have lookup := renumbered.address m
  rw [known, Option.map_some, replica_umindex apart.nodup, Option.map_eq_some_iff] at lookup
  obtain ⟨k, found, same⟩ := lookup
  have member := List.mem_reverse.mp (List.mem_of_find?_eq_some found)
  obtain rfl := renumbered.eq_place apart all live member same.symm
  have holds := List.find?_some found
  exact of_decide_eq_true holds

/-- The user whose record is read last is found by its address. -/
theorem Renumbered.listed_of_address {last : Nat}
    (renumbered : Renumbered number c (replica c (order ++ [last])))
    (apart : Apart c (order ++ [last])) (all : ∀ id, id ∈ order ++ [last] ↔ c.Live id)
    (listed : ∀ {m id}, c.umindex m = some id → c.Live id)
    (some_address : (c.users last).email ≠ []) :
    c.umindex ((c.users last).email.map tolower) = some last := by
  have lookup := renumbered.address ((c.users last).email.map tolower)
  rw [replica_umindex apart.nodup, List.reverse_append, List.reverse_singleton,
    List.singleton_append, List.find?_cons_of_pos (by simpa using some_address), Option.map_some,
    eq_comm, Option.map_eq_some_iff] at lookup
  obtain ⟨k, known, same⟩ := lookup
  have member : last ∈ order ++ [last] := List.mem_append_right _ List.mem_cons_self
  rw [known, renumbered.eq_place apart all (listed known) member same]

end Reload

/-- A table after some operations, with attributes and public keys. -/
def filled (events : List Event) (attrs : Nat → AttrMap) (pubk : Nat → PublicKey) : Client :=
  (run step Client.start events).equip attrs pubk

/-- `readusers` goes through its array. -/
theorem run_readuser (c : Client) (contacts : List Contact) :
    run step c (contacts.map .readuser) = c.readusers contacts := by
  rw [run, List.foldl_map]
  rfl

def Plain (c : Client) : Prop := ∀ id, ∀ b ∈ (c.users id).email, b ≠ 0 ∧ b ≠ 34

theorem plain_copystring (text : Bytes) : ∀ b ∈ copystring text, b ≠ 0 ∧ b ≠ 34 := by
  intro b member
  simpa using List.mem_takeWhile_imp member

theorem Plain.writes {c d : Client} (plain : Plain c) (writes : Writes c d) : Plain d := by
  cases writes with
  | me uh => exact plain
  | @modify uh id known f handle address =>
    intro k
    rw [Client.modify_users]
    split
    · rw [address]
      exact plain id
    · exact plain k
  | addHandle unknown =>
    intro k
    rw [Client.addHandle, Client.indexHandle_users, Client.create_users]
    split
    · exact fun _ member => absurd member List.not_mem_nil
    · exact plain k
  | @addAddress email unknown =>
    intro k
    rw [Client.addAddress, Client.indexAddress_users, Client.create_users]
    split
    · exact plain_copystring email
    · exact plain k
  | giveAddress known without email =>
    intro k
    rw [giveAddress_email]
    split
    · exact plain_copystring email
    · exact plain k
  | giveHandle found unknown =>
    intro k
    rw [giveHandle_email]
    exact plain k

section Filled

variable {events : List Event} {attrs : Nat → AttrMap} {pubk : Nat → PublicKey}

theorem plain_filled : Plain (filled events attrs pubk) := by
  have start : Plain Client.start := fun _ _ member => absurd member List.not_mem_nil
  have keeps : ∀ c e, Plain c → Plain (step c e) := fun _ e plain =>
    step_keeps Plain.writes plain e
  exact (always_of_step keeps start events).at_end

theorem bounded_run (events : List Event) : Bounded (run step Client.start events) := by
  have keeps : ∀ c e, Bounded c → Bounded (step c e) := fun _ e bounded =>
    step_keeps Bounded.writes bounded e
  exact (always_of_step keeps bounded_start events).at_end

theorem indexed_start : Indexed Client.start := fun _ live =>
  absurd (Nat.lt_of_lt_of_le live.1 live.2) (Nat.lt_irrefl 0)

/-- Every record is written and read in any order, and the same table comes back, exactly if every
user has a handle of its own and the indexes hold just the handles and addresses of the users. -/
theorem reload_iff (events : List Event) (attrs : Nat → AttrMap) (pubk : Nat → PublicKey)
    (short : ∀ id, (filled events attrs pubk).Live id →
      ((filled events attrs pubk).users id).email.length < 256)
    (storable : ∀ id, (attrs id).Storable)
    (bits : ∀ id, bitCount (pubk id).pq < 65536 ∧ bitCount (pubk id).e < 65536) :
    (∀ order, order.Perm (filled events attrs pubk).ids → ∃ d number,
      Client.start.fetchUsers ((filled events attrs pubk).records order) = some d ∧
        Renumbered number (filled events attrs pubk) d) ↔ Linked (filled events attrs pubk) := by
  have users : ∀ id, (filled events attrs pubk).Live id →
      ((filled events attrs pubk).users id).Storable := fun id live =>
    ⟨plain_filled id, short id live, storable id, (bits id).1, (bits id).2⟩
  have handles : ∀ {h id}, (filled events attrs pubk).uhindex h = some id →
      (filled events attrs pubk).Live id := (bounded_run events).uhindex
  have addresses : ∀ {m id}, (filled events attrs pubk).umindex m = some id →
      (filled events attrs pubk).Live id := (bounded_run events).umindex
  generalize filled events attrs pubk = c at users handles addresses ⊢
  have all : ∀ {order : List Nat}, order.Perm c.ids → ∀ id, id ∈ order ↔ c.Live id :=
    fun perm id => perm.mem_iff.trans mem_ids
  have nodup : ∀ {order : List Nat}, order.Perm c.ids → order.Nodup := fun perm =>
    perm.nodup_iff.mpr (nodup_ids c)
  constructor
  · intro back
    obtain ⟨first, number, read, renumbered⟩ := back c.ids (List.Perm.refl _)
    have nonzero := nonzero_of_fetch (fun id mem => users id (mem_ids.mp mem)) read
    have ids_apart := renumbered.apart (indexed_start.fetch read) (nodup_ids c)
      (all (List.Perm.refl _)) nonzero
    have apart : ∀ {order : List Nat}, order.Perm c.ids → Apart c order := fun perm =>
      ⟨nodup perm, fun id mem => nonzero id (perm.mem_iff.mp mem), fun id mem k other =>
        ids_apart.apart id (perm.mem_iff.mp mem) k (perm.mem_iff.mp other)⟩
    have replicated : ∀ {order : List Nat}, order.Perm c.ids →
        Client.start.fetchUsers (c.records order) = some (replica c order) := fun perm =>
      @fetch_replica c [] _ (fun id mem => users id ((all perm id).mp mem)) (apart perm)
    have again : ∀ order : List Nat, order.Perm c.ids →
        ∃ number, Renumbered number c (replica c order) := by
      intro order perm
      obtain ⟨d, number, read, renumbered⟩ := back order perm
      rw [replicated perm] at read
      obtain rfl := Option.some.inj read
      exact ⟨number, renumbered⟩
    have perm_ids := List.Perm.refl c.ids
    obtain ⟨number, renumbered⟩ := again c.ids perm_ids
    refine ⟨fun {id} live => nonzero id (mem_ids.mpr live), fun {h} id some_handle => ?_,
      fun m id => ⟨fun known => ?_, ?_⟩⟩
    · exact renumbered.handle_iff (apart perm_ids) (all perm_ids)
        (indexed_start.fetch (replicated perm_ids)) handles id some_handle
    · exact ⟨addresses known,
        renumbered.address_of_listed (apart perm_ids) (all perm_ids) (addresses known) known⟩
    · rintro ⟨live, some_address, rfl⟩
      have last : (c.ids.erase id ++ [id]).Perm c.ids :=
        (List.perm_append_comm.trans (List.perm_cons_erase (mem_ids.mpr live)).symm)
      obtain ⟨_, renumbered⟩ := again _ last
      exact renumbered.listed_of_address (apart last) (all last) addresses some_address
  · intro linked order perm
    have apart := linked.apart (nodup perm) (all perm)
    have read := @fetch_replica c [] _ (fun id mem => users id ((all perm id).mp mem)) apart
    exact ⟨_, _, read, linked.renumbered (nodup perm) (all perm)⟩

end Filled

/-- Two contacts of the contact list, of which the first has a name and a public key. -/
def twoContacts : Client :=
  (Client.start.readusers
      [⟨1, visible, 5, some (ascii "A@b\",")⟩, ⟨2, visible, 7, some (ascii "c@d\",")⟩]).equip
    (fun id => if id = 1 then [(110, ascii "\"x")] else [])
    fun id => if id = 1 then ⟨3233, 17⟩ else ⟨0, 0⟩

theorem live_twoContacts {id : Nat} : twoContacts.Live id ↔ id = 1 ∨ id = 2 := by
  have last : twoContacts.userid = 2 := rfl
  rw [Client.Live, last]
  omega

theorem linked_twoContacts : Linked twoContacts := by
  have handles : twoContacts.uhindex =
      Function.update (Function.update (fun _ => none) 1 (some 1)) 2 (some 2) := rfl
  have addresses : twoContacts.umindex = Function.update
      (Function.update (fun _ => none) (ascii "a@b") (some 1)) (ascii "c@d") (some 2) := rfl
  have address : ∀ id, id = 1 ∨ id = 2 → (twoContacts.users id).email ≠ [] ∧
      (twoContacts.users id).email.map tolower =
        if id = 1 then ascii "a@b" else ascii "c@d" := by
    rintro id (rfl | rfl)
    · decide
    · decide
  refine ⟨fun {id} here => ?_, fun {h} id _ => ?_, fun m id => ?_⟩
  · rcases live_twoContacts.mp here with rfl | rfl
    · decide
    · decide
  · have first : (twoContacts.users 1).userhandle = 1 := rfl
    have second : (twoContacts.users 2).userhandle = 2 := rfl
    rw [handles, live_twoContacts, or_and_right]
    by_cases two : h = 2
    · subst two
      grind
    · by_cases one : h = 1
      · subst one
        grind
      · grind
  · have apart : ascii "a@b" ≠ ascii "c@d" := by decide
    rw [addresses, Function.update_apply, Function.update_apply, live_twoContacts]
    grind

theorem twoContacts_reload : Linked twoContacts ∧
    ∀ order, order.Perm twoContacts.ids → ∃ d number,
      Client.start.fetchUsers (twoContacts.records order) = some d ∧
        Renumbered number twoContacts d := by
  refine ⟨linked_twoContacts, ?_⟩
  rw [twoContacts, ← run_readuser]
  refine (reload_iff _ _ _ ?_ ?_ ?_).mpr linked_twoContacts
  · intro id live
    obtain rfl | rfl := live_twoContacts.mp live
    · decide
    · decide
  · intro id
    split
    · refine ⟨List.pairwise_singleton _ _, fun entry mem => ?_, fun entry mem => ?_⟩
      · rw [List.mem_singleton.mp mem]
        exact ⟨ascii "n", by decide, by decide, forall_mem_of_all (by decide), by decide⟩
      · rw [List.mem_singleton.mp mem]
        decide
    · exact ⟨List.Pairwise.nil, nofun, nofun⟩
  · intro id
    split
    · decide
    · decide

/-- Two users that are only known by their addresses. -/
def strangers : List Event := [.finduser (ascii "a@b") true, .finduser (ascii "c@d") true]

/-- Both records have the undefined handle, and reading them makes one user. -/
theorem strangers_collapse :
    ¬∀ order, order.Perm (filled strangers (fun _ => []) fun _ => ⟨0, 0⟩).ids → ∃ d number,
      Client.start.fetchUsers
          ((filled strangers (fun _ => []) fun _ => ⟨0, 0⟩).records order) = some d ∧
        Renumbered number (filled strangers (fun _ => []) fun _ => ⟨0, 0⟩) d := by
  intro back
  have ids : (filled strangers (fun _ => []) fun _ => ⟨0, 0⟩).ids = [1, 2] := by decide
  obtain ⟨d, number, read, renumbered⟩ := back _ (List.Perm.refl _)
  have apart := renumbered.apart (indexed_start.fetch read) (nodup_ids _) (fun _ => mem_ids) (by
    rw [ids]
    decide)
  rw [ids] at apart
  exact absurd (apart.apart 1 (by decide) 2 (by decide) (by decide)) (by decide)

end MegaSdk.Contacts
