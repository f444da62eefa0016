import MegaSdk.Nodes.Denotation

/-!
# Updating attributes

megaclient.cpp, `MegaClient::setattr`, and commands.cpp, `CommandSetAttr`. The names and the
values of an update come as an array of pointers that ends with NULL. A value is copied
from where its pointer leads; of a name, the pointer itself is taken for the packed form.
-/

namespace MegaSdk.Nodes.AttributeUpdate

open Json Crypto
open Cache (AttrMap)

/-- A `const char*`; NULL is 0. -/
abbrev Pointer := UInt64

abbrev Memory := Pointer → Bytes

structure Node where
  nodehandle : Bytes
  key : Block
  attrs : AttrMap
  /-- `changed.attrs`. -/
  changed : Bool
  notified : Bool

/-- The arguments of a `CommandSetAttr`. -/
structure CommandSetAttr where
  node : Bytes
  attrstring : Bytes

structure Client where
  nodenotify : List Bytes
  reqs : List CommandSetAttr

/-- The constructor of `CommandSetAttr`. -/
def commandSetAttr (aes : Aes) (n : Node) : CommandSetAttr :=
  let json := getjson n.attrs
  { node := Base64.btoa n.nodehandle
    attrstring := Base64.btoa (makeattr (aes n.key) json json.length) }

/-- `notifynode`, without the flags of the `LocalNode`s. -/
def notifynode (n : Node) (c : Client) : Node × Client :=
  if n.notified then (n, c)
  else ({ n with notified := true }, { c with nodenotify := c.nodenotify ++ [n.nodehandle] })

/-- `while (*newattr)`, with `nameid(*newattr)` a cast of the pointer. -/
def fileAll (memory : Memory) : AttrMap → List Pointer → AttrMap
  | attrs, name :: value :: rest =>
    if name = 0 then attrs else fileAll memory (attrs.set name (memory value)) rest
  | attrs, _ => attrs

def setattr (aes : Aes) (memory : Memory) (checkaccess : AccessLevel → Bool)
    (newattr : Option (List Pointer)) (n : Node) (c : Client) : ApiError × Node × Client :=
  if checkaccess full = false then (.access, n, c)
  else
    let attrs :=
      match newattr with
      | some newattr => fileAll memory n.attrs newattr
      | none => n.attrs
    let (n, c) := notifynode { n with attrs := attrs, changed := true } c
    (.ok, n, { c with reqs := c.reqs ++ [commandSetAttr aes n] })

def lastListed {α : Type} [DecidableEq α] (entries : List (α × Bytes)) (k : α) : Option Bytes :=
  entries.reverse.lookup k

section LastListed
variable {α : Type} [DecidableEq α] (entry : α × Bytes) (entries : List (α × Bytes)) (k : α)

theorem lastListed_cons : lastListed (entry :: entries) k =
    (lastListed entries k).or (if k = entry.1 then some entry.2 else none) := by
  obtain ⟨name, v⟩ := entry
  rw [lastListed, List.reverse_cons, List.lookup_append, lastListed]
  by_cases same : k = name
  · rw [same, List.lookup_cons_self, if_pos rfl]
  · have other : [(name, v)].lookup k = none := by simpa using same
    rw [other, if_neg same]

/-- A key that names are filed under with an injection has the value of its name. -/
theorem lastListed_map {β : Type} [DecidableEq β] (f : α → β)
    (injective : ∀ e ∈ entries, f e.1 = f k → e.1 = k) :
    lastListed (entries.map fun e => (f e.1, e.2)) (f k) = lastListed entries k := by
  induction entries with
  | nil => rfl
  | cons e entries ih =>
    have more := ih fun e' mem => injective e' (List.mem_cons_of_mem e mem)
    have here : f k = f e.1 ↔ k = e.1 :=
      ⟨fun same => (injective e List.mem_cons_self same.symm).symm, congrArg f⟩
    rw [List.map_cons, lastListed_cons, lastListed_cons, more]
    simp only [here]

theorem mem_of_lastListed {v : Bytes} (listed : lastListed entries k = some v) :
    (k, v) ∈ entries := by
  have found := List.lookup_eq_some_iff.mp listed
  obtain ⟨before, after, same, -⟩ := found
  have mem : (k, v) ∈ entries.reverse := by simp [same]
  exact List.mem_reverse.mp mem

end LastListed

theorem mem_setAll_iff {attrs : AttrMap} (ascending : Ascending attrs)
    (entries : List (UInt64 × Bytes)) (id : UInt64) (v : Bytes) :
    (id, v) ∈ setAll attrs entries ↔
      lastListed entries id = some v ∨ lastListed entries id = none ∧ (id, v) ∈ attrs := by
  induction entries generalizing attrs with
  | nil => simp [setAll, lastListed]
  | cons entry entries ih =>
    have more : (id, v) ∈ setAll attrs (entry :: entries) ↔ _ :=
      ih (ascending_set ascending entry.1 entry.2)
    rw [more, mem_set ascending, lastListed_cons]
    cases lastListed entries id with
    | some w => simp
    | none =>
      by_cases same : id = entry.1
      · simp [same, Prod.ext_iff, eq_comm]
      · simp [same, Prod.ext_iff]

section Update
variable (memory : Memory) (pairs : List (Pointer × Pointer))

/-- The array of an update: names and values in turn, and NULL. -/
def array : List Pointer := pairs.flatMap (fun p => [p.1, p.2]) ++ [0]

def named : List (Bytes × Bytes) := pairs.map fun p => (memory p.1, memory p.2)

def byName : List (UInt64 × Bytes) := (named memory pairs).map fun o => (nameid o.1, o.2)

/-- The listed values under the pointers to the names. -/
def byPointer : List (UInt64 × Bytes) := pairs.map fun p => (p.1, memory p.2)

def WellListed : Prop := ∀ p ∈ pairs, p.1 ≠ 0 ∧ IsName (memory p.1)

variable {memory pairs}

theorem fileAll_array (listed : WellListed memory pairs) (attrs : AttrMap) :
    fileAll memory attrs (array pairs) = setAll attrs (byPointer memory pairs) := by
  induction pairs generalizing attrs with
  | nil => rfl
  | cons p pairs ih =>
    have more := ih (fun q mem => listed q (List.mem_cons_of_mem p mem))
      (attrs.set p.1 (memory p.2))
    have array_cons : array (p :: pairs) = p.1 :: p.2 :: array pairs := by simp [array]
    rw [array_cons, fileAll, if_neg (listed p List.mem_cons_self).1, more]
    rfl

theorem kept_of_isName {name : Bytes} (isName : IsName name) : Kept name :=
  ⟨isName.short, fun _ mem => isName.nonzero mem,
    fun _ mem => isName.ascii (List.mem_of_mem_drop mem)⟩

theorem isName_of_named (listed : WellListed memory pairs) {o : Bytes × Bytes}
    (mem : o ∈ named memory pairs) : IsName o.1 := by
  obtain ⟨p, present, rfl⟩ := List.mem_map.mp mem
  exact (listed p present).2

/-- What is listed under a packed name is listed under the name. -/
theorem lastListed_byName (listed : WellListed memory pairs) {name : Bytes} (kept : Kept name) :
    lastListed (byName memory pairs) (nameid name) = lastListed (named memory pairs) name := by
  refine lastListed_map _ name nameid fun o mem same => ?_
  exact nameid_inj (kept_of_isName (isName_of_named listed mem)) kept same

/-- The attributes are the members of the object. -/
structure Holds (attrs : AttrMap) (obj : List (Bytes × Bytes)) : Prop where
  names : AreNames (obj.map Prod.fst)
  kept : ∀ o ∈ obj, Kept o.1
  entries : ∀ id v, (id, v) ∈ attrs ↔ ∃ name, (name, v) ∈ obj ∧ id = nameid name

/-- The old object with each listed name set to its last listed value. -/
def Updated (old listed obj : List (Bytes × Bytes)) : Prop :=
  ∀ name v, (name, v) ∈ obj ↔
    lastListed listed name = some v ∨ lastListed listed name = none ∧ (name, v) ∈ old

/-- The attributes of the command decrypt to the object. -/
def Sends (ecbd : Block → Block) (command : CommandSetAttr) (obj : List (Bytes × Bytes)) : Prop :=
  ∃ json behind, Received ecbd command.attrstring [] (attrText json behind) ∧ Denotes json obj

/-- Filing the values under the pointers comes to the same as filing them under the names: each
pointer, as a number, is a listed name with the same last value, or no listed name and an attribute
that has the value already; and the other way round. -/
structure Harmless (memory : Memory) (pairs : List (Pointer × Pointer)) (attrs : AttrMap) :
    Prop where
  pointers : ∀ id v, lastListed (byPointer memory pairs) id = some v →
    lastListed (byName memory pairs) id = some v ∨
      lastListed (byName memory pairs) id = none ∧ (id, v) ∈ attrs
  names : ∀ id v, lastListed (byName memory pairs) id = some v →
    lastListed (byPointer memory pairs) id = some v ∨
      lastListed (byPointer memory pairs) id = none ∧ (id, v) ∈ attrs

variable {attrs : AttrMap}

theorem value_unique (ascending : Ascending attrs) {id : UInt64} {v w : Bytes}
    (first : (id, v) ∈ attrs) (second : (id, w) ∈ attrs) : v = w := by
  induction attrs with
  | nil => cases first
  | cons entry attrs ih =>
    obtain ⟨least, others⟩ := List.pairwise_cons.mp ascending
    have above : ∀ u, (id, u) ∈ attrs → entry.1 ≠ id := fun u mem =>
      UInt64.ne_of_lt (least _ mem)
    rcases List.mem_cons.mp first with rfl | later
    · rcases List.mem_cons.mp second with same | later'
      · exact (congrArg Prod.snd same).symm
      · exact absurd rfl (above w later')
    · rcases List.mem_cons.mp second with rfl | later'
      · exact absurd rfl (above v later)
      · exact ih others later later'

/-- One of two ways to list the values of a key, where neither adds to the other and the map. -/
theorem listed_of_harmless {here there : Option Bytes} {held : Bytes → Prop}
    (unique : ∀ v w, held v → held w → v = w)
    (forth : ∀ v, here = some v → there = some v ∨ there = none ∧ held v)
    (back : ∀ v, there = some v → here = some v ∨ here = none ∧ held v) {v : Bytes}
    (final : here = some v ∨ here = none ∧ held v) : there = some v ∨ there = none ∧ held v := by
  rcases final with listed | ⟨unlisted, old⟩
  · exact forth v listed
  · cases other : there with
    | none => exact .inr ⟨rfl, old⟩
    | some w =>
      rcases back w other with listed | ⟨-, old'⟩
      · rw [unlisted] at listed
        cases listed
      · exact .inl (congrArg some (unique w v old' old))

theorem harmless_iff (ascending : Ascending attrs) :
    Harmless memory pairs attrs ↔
      ∀ id v, (id, v) ∈ setAll attrs (byPointer memory pairs) ↔
        (id, v) ∈ setAll attrs (byName memory pairs) := by
  simp only [mem_setAll_iff ascending]
  constructor
  · intro harmless id v
    have unique : ∀ v w, (id, v) ∈ attrs → (id, w) ∈ attrs → v = w :=
      fun v w => value_unique ascending
    constructor
    · exact listed_of_harmless unique (harmless.pointers id) (harmless.names id)
    · exact listed_of_harmless unique (harmless.names id) (harmless.pointers id)
  · intro same
    constructor
    · intro id v pointer
      exact (same id v).mp (.inl pointer)
    · intro id v name
      exact (same id v).mpr (.inl name)

variable (ascending : Ascending attrs) (each : ∀ entry ∈ attrs, Carried entry)
include each

theorem mem_map_carried (name v : Bytes) :
    (name, v) ∈ attrs.map carried ↔ Kept name ∧ (nameid name, v) ∈ attrs := by
  rw [List.mem_map]
  constructor
  · rintro ⟨entry, mem, same⟩
    obtain ⟨name', key, -, -, kept⟩ := each entry mem
    rw [carried, key, nameid2string_kept kept] at same
    cases same
    exact ⟨kept, key ▸ mem⟩
  · rintro ⟨kept, mem⟩
    exact ⟨_, mem, by rw [carried, nameid2string_kept kept]⟩

theorem holds_carried (sorted : Ascending attrs) : Holds attrs (attrs.map carried) where
  names := areNames_carried sorted each
  kept := by
    rintro ⟨name, v⟩ mem
    exact ((mem_map_carried each name v).mp mem).1
  entries := by
    intro id v
    constructor
    · intro mem
      have key := (each _ mem).key
      exact ⟨(carried (id, v)).1, List.mem_map_of_mem mem, key⟩
    · rintro ⟨name, mem, rfl⟩
      exact ((mem_map_carried each name v).mp mem).2

include ascending

/-- The members of the updated map, as names. -/
theorem kept_mem_setAll_iff (listed : WellListed memory pairs) (name v : Bytes) :
    Kept name ∧ (nameid name, v) ∈ setAll attrs (byName memory pairs) ↔
      lastListed (named memory pairs) name = some v ∨
        lastListed (named memory pairs) name = none ∧ (name, v) ∈ attrs.map carried := by
  have known : lastListed (named memory pairs) name = some v → Kept name := fun found =>
    kept_of_isName (isName_of_named listed (mem_of_lastListed _ _ found))
  rw [mem_map_carried each, mem_setAll_iff ascending]
  constructor
  · rintro ⟨kept, found⟩
    rw [lastListed_byName listed kept] at found
    exact found.imp_right fun old => ⟨old.1, kept, old.2⟩
  · rintro (found | ⟨unlisted, kept, old⟩)
    · exact ⟨known found, .inl (by rw [lastListed_byName listed (known found), found])⟩
    · exact ⟨kept, .inr ⟨by rw [lastListed_byName listed kept, unlisted], old⟩⟩

theorem carried_setAll (listed : WellListed memory pairs) :
    ∀ entry ∈ setAll attrs (byName memory pairs), Carried entry := by
  rintro ⟨id, v⟩ mem
  rcases (mem_setAll_iff ascending _ id v).mp mem with found | ⟨-, old⟩
  · obtain ⟨o, present, same⟩ := List.mem_map.mp (mem_of_lastListed _ _ found)
    obtain rfl : nameid o.1 = id := congrArg Prod.fst same
    have isName := isName_of_named listed present
    exact ⟨o.1, rfl, isName.nonempty, isName.unquoted, kept_of_isName isName⟩
  · exact each _ old

/-- An object that is the update and that some map holds is held by the map in which the values
were filed under the names. -/
theorem mem_of_updated (listed : WellListed memory pairs) {final : AttrMap}
    {obj : List (Bytes × Bytes)} (updated : Updated (attrs.map carried) (named memory pairs) obj)
    (holds : Holds final obj) (id : UInt64) (v : Bytes) :
    (id, v) ∈ final ↔ (id, v) ∈ setAll attrs (byName memory pairs) := by
  rw [holds.entries]
  constructor
  · rintro ⟨name, mem, rfl⟩
    exact ((kept_mem_setAll_iff ascending each listed name v).mpr ((updated name v).mp mem)).2
  · intro mem
    obtain ⟨name, key, -, -, kept⟩ := carried_setAll ascending each listed _ mem
    obtain rfl : id = nameid name := key
    exact ⟨name, (updated name v).mpr
      ((kept_mem_setAll_iff ascending each listed name v).mp ⟨kept, mem⟩), rfl⟩

end Update

/-- What `makeattr` makes of a map decrypts to the object of the map. -/
theorem sends_carried {ecb ecbd : Block → Block} (inverts : ∀ b, ecbd (ecb b) = b)
    {attrs : AttrMap} (ascending : Ascending attrs) (each : ∀ entry ∈ attrs, Carried entry)
    {command : CommandSetAttr} (made : command.attrstring =
      Base64.btoa (makeattr ecb (getjson attrs) (getjson attrs).length)) :
    Sends ecbd command (attrs.map carried) := by
  have nonzero : ∀ entry ∈ attrs, entry.1 ≠ 0 := by
    intro entry mem
    obtain ⟨name, key, nonempty, unquoted, kept⟩ := each entry mem
    rw [key]
    exact nameid_ne_zero (isLiteral_of_unquoted kept.nonzero unquoted) nonempty
  have legible : Legible (attrs.map wired) := by
    intro m mem
    obtain ⟨entry, present, rfl⟩ := List.mem_map.mp mem
    obtain ⟨name, key, nonempty, unquoted, kept⟩ := each entry present
    refine ⟨?_, .str (literal_escape entry.2)⟩
    rw [wired, key, nameid2string_kept kept]
    exact ⟨isLiteral_of_unquoted kept.nonzero unquoted, unquoted.1⟩
  have text := nonzero_getjson_of_legible nonzero legible
  rw [makeattr_eq ecb text (.inr rfl)] at made
  refine ⟨getjson attrs, padding (getjson attrs), ⟨?_, ?_, ?_⟩, denotes_getjson ascending each⟩
  · rw [made]
    exact btoa_padded_ne_nil ecb (getjson attrs)
  · rw [made, atob_attrstring, length_cbcEncrypt ecb (whole_padded _)]
    exact Nat.mod_eq_zero_of_dvd (whole_padded _)
  · rw [made, atob_attrstring, cbcDecrypt_encrypt inverts (whole_padded _), padded, attrText]
    simp

section Setattr
variable {aes aesd : Aes} (memory : Memory) {checkaccess : AccessLevel → Bool}
  (pairs : List (Pointer × Pointer)) (n : Node) (c : Client)

/-- The update was made, in the node and in the command that was queued. -/
def Updates (aes aesd : Aes) (checkaccess : AccessLevel → Bool) : Prop :=
  ∃ n' c' command obj,
    setattr aes memory checkaccess (some (array pairs)) n c = (.ok, n', c') ∧
      c'.reqs = c.reqs ++ [command] ∧ command.node = Base64.btoa n.nodehandle ∧
        Updated (n.attrs.map carried) (named memory pairs) obj ∧ Holds n'.attrs obj ∧
          Sends (aesd n.key) command obj

variable {memory pairs}

theorem setattr_array (access : checkaccess full = true) (listed : WellListed memory pairs) :
    ∃ n' c', setattr aes memory checkaccess (some (array pairs)) n c = (.ok, n', c') ∧
      c'.reqs = c.reqs ++ [commandSetAttr aes n'] ∧ n'.nodehandle = n.nodehandle ∧
        n'.key = n.key ∧ n'.attrs = setAll n.attrs (byPointer memory pairs) := by
  have files := fileAll_array listed n.attrs
  cases notified : n.notified with
  | true =>
    simp only [setattr, access, files, notifynode, notified]
    exact ⟨_, _, rfl, rfl, rfl, rfl, rfl⟩
  | false =>
    simp only [setattr, access, files, notifynode, notified]
    exact ⟨_, _, rfl, rfl, rfl, rfl, rfl⟩

/-- An update is made exactly if it is harmless that the pointers are taken for packed names. -/
theorem updates_iff_harmless (inverts : ∀ key block, aesd key (aes key block) = block)
    (access : checkaccess full = true) (ascending : Ascending n.attrs)
    (each : ∀ entry ∈ n.attrs, Carried entry) (listed : WellListed memory pairs) :
    Updates memory pairs n c aes aesd checkaccess ↔ Harmless memory pairs n.attrs := by
  obtain ⟨n', c', made, queued, handle, key, attrs⟩ :=
    @setattr_array aes memory checkaccess pairs n c access listed
  rw [harmless_iff ascending, ← attrs]
  constructor
  · rintro ⟨n'', c'', command, obj, made', -, -, updated, holds, -⟩
    rw [made] at made'
    cases made'
    exact mem_of_updated ascending each listed updated holds
  · intro same
    have sorted : Ascending n'.attrs := by
      rw [attrs]
      exact ascending_setAll ascending _
    have known : ∀ entry ∈ n'.attrs, Carried entry := by
      rintro ⟨id, v⟩ mem
      exact carried_setAll ascending each listed _ ((same id v).mp mem)
    refine ⟨n', c', _, n'.attrs.map carried, made, queued, ?_, ?_, holds_carried known sorted, ?_⟩
    · rw [commandSetAttr, handle]
    · intro name v
      rw [mem_map_carried known, same]
      exact kept_mem_setAll_iff ascending each listed name v
    · rw [← key]
      exact sends_carried (inverts n'.key) sorted known rfl

end Setattr

def sampleNode : Node where
  nodehandle := [1, 2, 3, 4, 5, 6]
  key := Vector.ofFn fun i => UInt8.ofNat i
  attrs := [(110, ascii "a")]
  changed := false
  notified := false

theorem carried_sample : ∀ entry ∈ sampleNode.attrs, Carried entry := by
  intro entry mem
  obtain rfl := List.mem_singleton.mp mem
  refine ⟨ascii "n", by decide, by decide, by decide, by decide, ?_, ?_⟩
  · exact forall_mem_of_all (by decide)
  · exact forall_mem_of_all (by decide)

/-- The name `n`, at the address that is its packed form, and a value. -/
def luckyMemory : Memory := fun p =>
  if p = 110 then ascii "n" else if p = 8192 then ascii "a" else []

theorem updates_lucky :
    Updates luckyMemory [(110, 8192)] sampleNode ⟨[], []⟩
      (fun _ => Equiv.swap sampleBlocks.1 sampleBlocks.2)
      (fun _ => Equiv.swap sampleBlocks.1 sampleBlocks.2) (fun _ => true) := by
  have same : byPointer luckyMemory [(110, 8192)] = byName luckyMemory [(110, 8192)] := by decide
  have isName : IsName (luckyMemory 110) :=
    ⟨by decide, by decide, forall_mem_of_all (by decide)⟩
  refine (updates_iff_harmless sampleNode ⟨[], []⟩ (fun _ block => Equiv.swap_apply_self _ _ block)
    rfl (List.pairwise_singleton _ _) carried_sample ?_).mpr ⟨?_, ?_⟩
  · intro p mem
    obtain rfl := List.mem_singleton.mp mem
    exact ⟨by decide, isName⟩
  · intro id v found
    rw [same] at found
    exact .inl found
  · intro id v found
    rw [same]
    exact .inl found

/-- The name `lat` and a value, where a program may have them. -/
def usualMemory : Memory := fun p =>
  if p = 4096 then ascii "lat" else if p = 8192 then ascii "1" else []

/-- The value is filed under the address of the name, and sent so. -/
theorem address_filed :
    (setattr (fun _ block => block) usualMemory (fun _ => true) (some [4096, 8192, 0]) sampleNode
        ⟨[], []⟩).2.1.attrs = [(110, ascii "a"), (4096, ascii "1")] ∧
      getjson [(110, ascii "a"), (4096, ascii "1")] =
        ascii "\"n\":\"a\",\"" ++ 16 :: ascii "\":\"1\"" ∧
      ¬Updates usualMemory [(4096, 8192)] sampleNode ⟨[], []⟩ (fun _ block => block)
        (fun _ block => block) (fun _ => true) := by
  have filed : (setattr (fun _ block => block) usualMemory (fun _ => true)
      (some [4096, 8192, 0]) sampleNode ⟨[], []⟩).2.1.attrs =
        [(110, ascii "a"), (4096, ascii "1")] := by decide +kernel
  refine ⟨filed, by decide +kernel, ?_⟩
  rintro ⟨n', c', command, obj, made, -, -, updated, holds, -⟩
  have attrs : n'.attrs = [(110, ascii "a"), (4096, ascii "1")] := by
    rw [← filed]
    exact (congrArg (fun result => result.2.1.attrs) made).symm
  have listed : WellListed usualMemory [(4096, 8192)] := by
    intro p mem
    obtain rfl := List.mem_singleton.mp mem
    exact ⟨by decide, by decide, by decide, forall_mem_of_all (by decide)⟩
  have misfiled : (4096, ascii "1") ∈ n'.attrs := by
    rw [attrs]
    exact List.mem_cons_of_mem _ List.mem_cons_self
  have named := (mem_of_updated (List.pairwise_singleton _ _) carried_sample listed updated holds
    4096 (ascii "1")).mp misfiled
  revert named
  decide +kernel

end MegaSdk.Nodes.AttributeUpdate
