import MegaSdk.Cache.Unserialize

/-!
# Attribute maps in records

`AttrMap::nameid2string`, `serialize` and `unserialize` as they run: names are unpacked into a
buffer of eight bytes that keeps what it held before, and read back through a pointer into a
record. The length of a value is written from an unsigned variable and read through a signed type.
-/

namespace MegaSdk.Cache.AttrMap

open ByteOrder RecordReader

/-- The loop of `nameid2string` over the bytes of the name: the buffer and `ptr - buf`. Every byte
is written, and `ptr` moves on behind the nonzero ones. -/
def nameLoop : Bytes → Bytes → Nat → Read (Bytes × Nat)
  | [], buf, ptr => .ok (buf, ptr)
  | c :: more, buf, ptr =>
    if ptr < buf.length then nameLoop more (buf.set ptr c) (if c ≠ 0 then ptr + 1 else ptr)
    else .wild

/-- The loop of `serialize`, which appends to `d`. -/
def serializeLoop (d buf : Bytes) : AttrMap → Read Bytes
  | [] => .ok (d ++ [0])
  | (id, value) :: more =>
    (nameLoop (beBytes 8 id.toNat) buf 0).bind fun (buf, n) =>
      let l := UInt8.ofNat n
      if l ≠ 0 then
        let ll := value.length % 65536
        serializeLoop (d ++ [l] ++ buf.take l.toNat ++ leBytes 2 ll ++ value.take ll) buf more
      else serializeLoop d buf more

/-- `*ptr`, for a pointer into a record. -/
def byteAt (record : Bytes) (ptr : Nat) : Read UInt8 :=
  match record[ptr]? with
  | some c => .ok c
  | none => .wild

/-- `while (l--)`: the packed name, and the pointer behind it. -/
def readName (record : Bytes) : Nat → UInt64 → Nat → Read (UInt64 × Nat)
  | 0, id, ptr => .ok (id, ptr)
  | l + 1, id, ptr =>
    (byteAt record ptr).bind fun c => readName record l (id <<< 8 + c.toUInt64) (ptr + 1)

/-- `MemAccess::get<short>(ptr)`. -/
def getShort (record : Bytes) (ptr : Nat) : Read Int :=
  (bytes 2 (record.drop ptr)).bind fun (value, _) => .ok (signed 16 (ofLe value))

/-- A signed value in an `unsigned short`. -/
def toUnsignedShort (n : Int) : Nat := (n % 65536).toNat

/-- The loop of `unserialize`, for at most `rounds` entries. -/
def unserializeLoop (record : Bytes) : Nat → AttrMap → Nat → Read (AttrMap × Nat)
  | 0, _, _ => .wild
  | rounds + 1, attrs, ptr =>
    (byteAt record ptr).bind fun l =>
      let ptr := ptr + 1
      if l = 0 then .ok (attrs, ptr)
      else
        (readName record l.toNat 0 ptr).bind fun (id, ptr) =>
          (getShort record ptr).bind fun short =>
            let ll := toUnsignedShort short
            let ptr := ptr + 2
            (bytes ll (record.drop ptr)).bind fun (value, _) =>
              unserializeLoop record rounds (attrs.set id value) (ptr + ll)

/-- `unserialize` into an empty map, from a pointer into a record: the map, and the pointer that it
returns. -/
def unserializeAt (record : Bytes) (ptr : Nat) : Read (AttrMap × Nat) :=
  unserializeLoop record (record.length + 1) [] ptr

/-- The buffer holds the nonzero bytes, as many as it has read. -/
theorem nameLoop_eq {todo buf done : Bytes} {ptr : Nat} (front : buf.take ptr = done)
    (length : done.length = ptr) (room : ptr + todo.length ≤ buf.length) :
    ∃ result, nameLoop todo buf ptr =
        .ok (result, (done ++ todo.filter (· ≠ 0)).length) ∧ result.length = buf.length ∧
      result.take (done ++ todo.filter (· ≠ 0)).length = done ++ todo.filter (· ≠ 0) := by
  induction todo generalizing buf done ptr with
  | nil =>
    refine ⟨buf, ?_, rfl, ?_⟩
    · simp [nameLoop, length]
    · simp [length, front]
  | cons c todo ih =>
    rw [List.length_cons] at room
    rw [nameLoop, if_pos (by omega)]
    by_cases zero : c = 0
    · have same : (buf.set ptr c).take ptr = done := by
        rw [List.take_set_of_le (Nat.le_refl _), front]
      obtain ⟨result, run, size, held⟩ := ih same length (by rw [List.length_set]; omega)
      rw [if_neg (not_not_intro zero), List.filter_cons_of_neg (by simpa using zero)]
      exact ⟨result, run, size.trans List.length_set, held⟩
    · have next : (buf.set ptr c).take (ptr + 1) = done ++ [c] := by
        have inside : ptr < (buf.set ptr c).length := by
          rw [List.length_set]
          omega
        rw [List.take_succ_eq_append_getElem inside, List.getElem_set_self,
          List.take_set_of_le (Nat.le_refl _), front]
      have longer : (done ++ [c]).length = ptr + 1 := by simp [length]
      obtain ⟨result, run, size, held⟩ := ih next longer (by rw [List.length_set]; omega)
      rw [if_pos zero, List.filter_cons_of_pos (by simpa using zero)]
      rw [List.append_assoc, List.singleton_append] at run held
      exact ⟨result, run, size.trans List.length_set, held⟩

/-- Names are unpacked inside a buffer of eight bytes. -/
theorem nameLoop_nameid (id : UInt64) {buf : Bytes} (eight : buf.length = 8) :
    ∃ result, nameLoop (beBytes 8 id.toNat) buf 0 = .ok (result, (nameid2string id).length) ∧
      result.length = 8 ∧ result.take (nameid2string id).length = nameid2string id := by
  have todo : (beBytes 8 id.toNat).length = 8 := by simp [beBytes]
  obtain ⟨result, run, size, held⟩ := nameLoop_eq (List.take_zero (l := buf)) rfl
    (show 0 + (beBytes 8 id.toNat).length ≤ buf.length by omega)
  exact ⟨result, run, size.trans eight, held⟩

theorem length_nameid2string_le (id : UInt64) : (nameid2string id).length ≤ 8 := by
  have whole : (beBytes 8 id.toNat).length = 8 := by simp [beBytes]
  exact Nat.le_trans (List.length_filter_le _ _) (Nat.le_of_eq whole)

/-- The map is appended entry by entry, whatever the buffer for the names holds. -/
theorem serializeLoop_eq (d : Bytes) {buf : Bytes} (eight : buf.length = 8) (attrs : AttrMap) :
    serializeLoop d buf attrs = .ok (d ++ attrs.serialize) := by
  induction attrs generalizing d buf with
  | nil => rfl
  | cons entry attrs ih =>
    obtain ⟨id, value⟩ := entry
    obtain ⟨result, run, size, held⟩ := nameLoop_nameid id eight
    have short := length_nameid2string_le id
    have l : (UInt8.ofNat (nameid2string id).length).toNat = (nameid2string id).length := by
      rw [UInt8.toNat_ofNat']
      omega
    have whole : AttrMap.serialize ((id, value) :: attrs) =
        serializeEntry (id, value) ++ AttrMap.serialize attrs := by simp [serialize]
    rw [serializeLoop, run, Read.bind_ok, whole, serializeEntry]
    dsimp only
    rw [l, held, ih _ size, ih _ size]
    by_cases none : nameid2string id = []
    · simp [none]
    · have nonzero : UInt8.ofNat (nameid2string id).length ≠ 0 := by
        intro zero
        rw [zero] at l
        exact none (List.length_eq_zero_iff.mp l.symm)
      rw [if_pos nonzero, if_neg none]
      simp

/-- A signed 16-bit value in an unsigned variable is the value that was written. -/
theorem toUnsignedShort_signed {value : Nat} (short : value < 65536) :
    toUnsignedShort (signed 16 value) = value := by
  rw [toUnsignedShort, signed, BitVec.toInt_eq_toNat_bmod, BitVec.toNat_ofNat, Int.bmod]
  omega

section Pointers
variable {record front rest : Bytes} {ptr : Nat}

theorem drop_behind (here : record.drop ptr = front ++ rest) :
    record.drop (ptr + front.length) = rest := by
  rw [← List.drop_drop, here, List.drop_left]

theorem drop_next {c : UInt8} (here : record.drop ptr = c :: rest) :
    record.drop (ptr + 1) = rest :=
  drop_behind (show record.drop ptr = [c] ++ rest from here)

theorem byteAt_eq {c : UInt8} (here : record.drop ptr = c :: rest) :
    byteAt record ptr = .ok c := by
  have first : record[ptr]? = some c := by
    have head := congrArg (fun text : Bytes => text[0]?) here
    simpa using head
  rw [byteAt, first]

theorem readName_eq {name : Bytes} (id : UInt64) (here : record.drop ptr = name ++ rest) :
    readName record name.length id ptr =
      .ok (name.foldl (fun id c => id <<< 8 + c.toUInt64) id, ptr + name.length) := by
  induction name generalizing id ptr with
  | nil => rfl
  | cons c name ih =>
    rw [List.length_cons, readName, byteAt_eq here, Read.bind_ok, ih _ (drop_next here),
      List.foldl_cons]
    congr 2
    omega

theorem getShort_eq {value : Nat} (short : value < 65536)
    (here : record.drop ptr = leBytes 2 value ++ rest) :
    getShort record ptr = .ok (signed 16 value) := by
  have fits : value < 256 ^ 2 := short
  rw [getShort, here, bytes_append (length_leBytes 2 value), Read.bind_ok]
  simp only [ofLe_leBytes, Nat.mod_eq_of_lt fits]

/-- Through a pointer into a record, the map is read as from the bytes behind the pointer. -/
theorem unserializeLoop_eq {rounds : Nat} {attrs result : AttrMap}
    (read : unserializeFrom rounds attrs (record.drop ptr) = .ok (result, rest)) :
    unserializeLoop record rounds attrs ptr = .ok (result, record.length - rest.length) := by
  induction rounds generalizing attrs ptr with
  | zero => cases read
  | succ rounds ih =>
    rw [unserializeFrom] at read
    obtain ⟨⟨l, behind⟩, first, entry⟩ := Read.bind_eq_ok.mp read
    obtain ⟨small, here⟩ := word_eq_ok.mp first
    have byte : record.drop ptr = UInt8.ofNat l :: behind := here
    have size : (UInt8.ofNat l).toNat = l := by
      rw [UInt8.toNat_ofNat']
      omega
    rw [unserializeLoop, byteAt_eq byte, Read.bind_ok]
    by_cases ended : l = 0
    · simp only [ended, if_true] at entry
      cases entry
      have bound := congrArg List.length byte
      rw [List.length_drop, List.length_cons] at bound
      have stop : ptr + 1 = record.length - rest.length := by omega
      simp [ended, stop]
    · simp only [ended, if_false] at entry
      have nonzero : UInt8.ofNat l ≠ 0 := by
        intro zero
        rw [zero] at size
        exact ended size.symm
      obtain ⟨⟨name, behind2⟩, named, entry⟩ := Read.bind_eq_ok.mp entry
      obtain ⟨length, split⟩ := bytes_eq_ok.mp named
      obtain ⟨⟨ll, behind3⟩, worded, entry⟩ := Read.bind_eq_ok.mp entry
      obtain ⟨short, written⟩ := word_eq_ok.mp worded
      obtain ⟨⟨value, behind4⟩, valued, more⟩ := Read.bind_eq_ok.mp entry
      obtain ⟨taken, last⟩ := bytes_eq_ok.mp valued
      dsimp only at split written last more
      have atName := (drop_next byte).trans split
      have atLength := (drop_behind atName).trans written
      have atValue := (drop_behind atLength).trans last
      rw [length_leBytes] at atValue
      have atNext := drop_behind atValue
      rw [taken] at atNext
      rw [if_neg nonzero, size, ← length, readName_eq 0 atName, Read.bind_ok]
      simp only [getShort_eq short atLength, Read.bind_ok, toUnsignedShort_signed short, atValue,
        bytes_append taken]
      rw [← atNext] at more
      exact ih more

end Pointers

/-- A map is appended to a record and read back from there, and the pointer that is returned
points to what follows. -/
theorem attributes_read_back {attrs : AttrMap} (storable : attrs.Storable) (d trailing : Bytes)
    (buf : Vector UInt8 8) :
    serializeLoop d buf.toList attrs = .ok (d ++ attrs.serialize) ∧
    unserializeAt (d ++ attrs.serialize ++ trailing) d.length =
      .ok (attrs, (d ++ attrs.serialize).length) := by
  constructor
  · exact serializeLoop_eq d Vector.length_toList attrs
  · have least := storable.length_le
    have enough : attrs.length < (d ++ attrs.serialize ++ trailing).length + 1 := by
      simp only [List.length_append]
      omega
    have read := @unserializeFrom_serialize [] attrs storable _ enough trailing
    have here : (d ++ attrs.serialize ++ trailing).drop d.length = attrs.serialize ++ trailing := by
      rw [List.append_assoc, List.drop_left]
    have stop : (d ++ attrs.serialize ++ trailing).length - trailing.length =
        (d ++ attrs.serialize).length := by
      rw [List.length_append, Nat.add_sub_cancel]
    rw [← here, List.nil_append] at read
    rw [unserializeAt, unserializeLoop_eq read, stop]

def single (value : Bytes) : AttrMap := [(packed [110], value)]

theorem storable_single {value : Bytes} (short : value.length < 65536) :
    AttrMap.Storable (single value) where
  ascending := List.pairwise_singleton _ _
  named entry member := by
    rw [List.mem_singleton.mp member]
    exact ⟨[110], by decide, by decide, forall_mem_of_all (by decide), rfl⟩
  short entry member := by
    rw [List.mem_singleton.mp member]
    exact short

theorem attributes_read_back_long :
    serializeLoop [1] (Vector.replicate 8 255).toList (single (List.replicate 40000 7)) =
      .ok ([1] ++ (single (List.replicate 40000 7)).serialize) ∧
    unserializeAt ([1] ++ (single (List.replicate 40000 7)).serialize ++ [9]) [1].length =
      .ok (single (List.replicate 40000 7),
        ([1] ++ (single (List.replicate 40000 7)).serialize).length) :=
  attributes_read_back (storable_single (by rw [List.length_replicate]; decide)) [1] [9] _

end MegaSdk.Cache.AttrMap
