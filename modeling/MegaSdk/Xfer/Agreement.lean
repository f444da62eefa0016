import MegaSdk.Xfer.ChunkCrypt

/-!
# Upload and download agree

All chunks of a file are prepared in any order on one side and finalized in any
order on the other, with arbitrary bytes in the buffers' padding. The file comes
out as it went in, and the chunk MACs coalesce to the meta MAC in its key.
-/

namespace MegaSdk.Xfer

open Crypto

/-- What an upload has produced so far: bodies by chunk position, and chunk MACs. -/
structure Upload where
  bodies : Std.ExtTreeMap Nat Bytes
  macs : ChunkMacs

structure Download where
  file : Bytes
  macs : ChunkMacs

def Upload.prepare (ecb : Block → Block) (ctriv : UInt64) (file : Bytes) (up : Upload)
    (c : Nat × Nat) : Option Upload :=
  (prepareUL ecb file ctriv c.1 c.2 up.macs).map fun p => ⟨up.bodies.insert c.1 p.1, p.2⟩

def prepareAll (ecb : Block → Block) (ctriv : UInt64) (file : Bytes) (order : List (Nat × Nat)) :
    Option Upload :=
  order.foldlM (Upload.prepare ecb ctriv file) ⟨∅, ∅⟩

def Download.finalize (ecb : Block → Block) (ctriv : UInt64) (bodies : Std.ExtTreeMap Nat Bytes)
    (padding : Nat → Nat → UInt8) (down : Download) (c : Nat × Nat) : Download :=
  let cipher := (bodies[c.1]?).getD []
  let done := finalizeDL ecb (ByteFile.write 0) down.file down.macs ctriv 0 none
    (buffer cipher (padding c.1)) cipher.length c.1
  ⟨done.1, done.2⟩

/-- Finalize the chunks in the given order into an empty file. -/
def finalizeAll (ecb : Block → Block) (ctriv : UInt64) (bodies : Std.ExtTreeMap Nat Bytes)
    (padding : Nat → Nat → UInt8) (order : List (Nat × Nat)) : Download :=
  order.foldl (Download.finalize ecb ctriv bodies padding) ⟨[], ∅⟩

section Chunk
variable (ecb : Block → Block) (ctriv : UInt64) (file : Bytes)

def chunkData (c : Nat × Nat) : Bytes := (file.drop c.1).take (c.2 - c.1)

/-- A chunk's padded plaintext, encrypted, with its MAC. -/
def sealChunk (c : Nat × Nat) : Bytes × Block :=
  ctrCrypt ecb (chunkData file c ++ List.replicate (padLen (chunkData file c).length) 0)
    (chunkData file c).length c.1 ctriv true

def chunkCipher (c : Nat × Nat) : Bytes :=
  (sealChunk ecb ctriv file c).1.take (chunkData file c).length

variable {file} {c : Nat × Nat}

theorem length_chunkData (hc : c ∈ chunks file.length) :
    (chunkData file c).length = c.2 - c.1 := by
  obtain ⟨order, stop⟩ := mem_chunks hc
  have bound := chunkEnd_le file.length c.1
  rw [chunkData, List.length_take, List.length_drop]
  omega

theorem prepareUL_eq (hc : c ∈ chunks file.length) (macs : ChunkMacs) :
    prepareUL ecb file ctriv c.1 c.2 macs =
      some (chunkCipher ecb ctriv file c, macs.insert c.1 (sealChunk ecb ctriv file c).2) := by
  have size := length_chunkData hc
  have read : fread file (c.2 - c.1) (padLen (c.2 - c.1)) c.1 =
      some (chunkData file c ++ List.replicate (padLen (c.2 - c.1)) 0) := by
    rw [fread]
    exact if_pos size
  rw [prepareUL]
  simp only [chunk_size_lt hc, read, chunkCipher, sealChunk, size]

theorem length_chunkCipher (c : Nat × Nat) :
    (chunkCipher ecb ctriv file c).length = (chunkData file c).length := by
  rw [chunkCipher, List.length_take]
  exact Nat.min_eq_left (ctrLoop_agree ecb _ (chunkData file c) [] _ _ (Nat.le_refl _)).1

/-- Finalizing a chunk's ciphertext writes its plaintext and records its MAC. -/
theorem finalizeDL_eq (down : Bytes) (macs : ChunkMacs) (padding : Nat → UInt8) (c : Nat × Nat) :
    finalizeDL ecb (ByteFile.write 0) down macs ctriv 0 none
        (buffer (chunkCipher ecb ctriv file c) padding) (chunkCipher ecb ctriv file c).length c.1 =
      (ByteFile.write 0 down (chunkData file c) c.1,
        macs.insert c.1 (sealChunk ecb ctriv file c).2) := by
  have size : (chunkCipher ecb ctriv file c).length = (chunkData file c).length :=
    length_chunkCipher ecb ctriv c
  obtain ⟨_, restored, mac⟩ := ctrLoop_agree ecb (chunkData file c).length (chunkData file c)
    ((List.range (padLen (chunkCipher ecb ctriv file c).length)).map padding)
    (ctrBlock ctriv c.1) (initialMac ctriv) (Nat.le_refl _)
  rw [finalizeDL]
  simp only [writeRange, size, buffer, ctrCrypt]
  rw [size] at restored mac
  exact Prod.ext (congrArg (fun data => ByteFile.write 0 down data c.1) restored)
    (congrArg (macs.insert c.1) mac)

end Chunk

section Orders
variable {Value : Type} {v : Nat × Nat → Value}

/-- Record a value for each chunk under its position. -/
def record (v : Nat × Nat → Value) (m : Std.ExtTreeMap Nat Value) (c : Nat × Nat) :
    Std.ExtTreeMap Nat Value :=
  m.insert c.1 (v c)

/-- The order in which chunks are recorded does not matter. -/
theorem record_perm {size : Nat} {order : List (Nat × Nat)} (perm : order.Perm (chunks size))
    (m : Std.ExtTreeMap Nat Value) :
    order.foldl (record v) m = (chunks size).foldl (record v) m := by
  refine perm.foldl_eq' (fun c hc d hd m => ?_) m
  by_cases same : c.1 = d.1
  · rw [chunk_eq_of_pos (perm.mem_iff.mp hc) (perm.mem_iff.mp hd) same]
  · refine Std.ExtTreeMap.ext_getElem? fun k => ?_
    simp only [record, Std.ExtTreeMap.getElem?_insert, compare_eq_iff_eq]
    by_cases hk : c.1 = k
    · have other : d.1 ≠ k := fun hd => same (hk.trans hd.symm)
      simp [hk, other]
    · simp [hk]

theorem getElem?_record_other {k : Nat} {order : List (Nat × Nat)} (m : Std.ExtTreeMap Nat Value)
    (other : ∀ c ∈ order, c.1 ≠ k) : (order.foldl (record v) m)[k]? = m[k]? := by
  induction order generalizing m with
  | nil => rfl
  | cons d rest ih =>
    rw [List.foldl_cons, ih _ fun c hc => other c (List.mem_cons_of_mem _ hc)]
    simp [record, Std.ExtTreeMap.getElem?_insert, other d List.mem_cons_self]

theorem getElem?_record {size : Nat} {order : List (Nat × Nat)} (sub : ∀ c ∈ order, c ∈ chunks size)
    (m : Std.ExtTreeMap Nat Value) {c : Nat × Nat} (hc : c ∈ order) :
    (order.foldl (record v) m)[c.1]? = some (v c) := by
  induction order generalizing m with
  | nil => cases hc
  | cons d rest ih =>
    rw [List.foldl_cons]
    by_cases later : ∃ e ∈ rest, e.1 = c.1
    · obtain ⟨e, he, same⟩ := later
      have heq : e = c := chunk_eq_of_pos (sub e (List.mem_cons_of_mem _ he)) (sub c hc) same
      exact ih (fun x hx => sub x (List.mem_cons_of_mem _ hx)) _ (heq ▸ he)
    · have here : c = d := by
        rcases List.mem_cons.mp hc with rfl | hc
        · rfl
        · exact absurd ⟨c, hc, rfl⟩ later
      subst here
      rw [getElem?_record_other _ fun e he same => later ⟨e, he, same⟩]
      simp [record]

end Orders

section Run
variable (ecb : Block → Block) (ctriv : UInt64) {file : Bytes}

/-- Preparing the chunks never fails and records every body and MAC. -/
theorem prepareAll_eq {order : List (Nat × Nat)} (sub : ∀ c ∈ order, c ∈ chunks file.length)
    (up : Upload) :
    order.foldlM (Upload.prepare ecb ctriv file) up =
      some ⟨order.foldl (record (chunkCipher ecb ctriv file)) up.bodies,
        order.foldl (record fun c => (sealChunk ecb ctriv file c).2) up.macs⟩ := by
  induction order generalizing up with
  | nil => rfl
  | cons c rest ih =>
    have now : Upload.prepare ecb ctriv file up c =
        some ⟨record (chunkCipher ecb ctriv file) up.bodies c,
          record (fun c => (sealChunk ecb ctriv file c).2) up.macs c⟩ := by
      rw [Upload.prepare, prepareUL_eq ecb ctriv (sub c List.mem_cons_self)]
      rfl
    rw [List.foldlM_cons, now, Option.bind_eq_bind, Option.bind_some,
      ih fun d hd => sub d (List.mem_cons_of_mem _ hd)]
    rfl

/-- The written chunks hold the bytes of the original file, and nothing is written
behind its end. -/
def Restored (file down : Bytes) (order : List (Nat × Nat)) : Prop :=
  down.length ≤ file.length ∧
    ∀ c ∈ order, ∀ i, c.1 ≤ i → i < c.2 → i < down.length ∧ down[i]? = file[i]?

theorem restored_write {down : Bytes} {done : List (Nat × Nat)} {c : Nat × Nat}
    (restored : Restored file down done) (hc : c ∈ chunks file.length) :
    Restored file (ByteFile.write 0 down (chunkData file c) c.1) (c :: done) := by
  obtain ⟨short, same⟩ := restored
  have size := length_chunkData hc
  obtain ⟨order, stop⟩ := mem_chunks hc
  have bound := chunkEnd_le file.length c.1
  by_cases none : chunkData file c = []
  · have empty : c.2 - c.1 = 0 := by rw [← size, none, List.length_nil]
    rw [none, ByteFile.write, if_pos rfl]
    refine ⟨short, fun d hd i low high => ?_⟩
    rcases List.mem_cons.mp hd with rfl | hd
    · omega
    · exact same d hd i low high
  · have grown : (ByteFile.write 0 down (chunkData file c) c.1).length =
        max down.length (c.1 + (chunkData file c).length) := ByteFile.length_write none
    refine ⟨by omega, fun d hd i low high => ?_⟩
    by_cases here : c.1 ≤ i ∧ i < c.2
    · refine ⟨by omega, ?_⟩
      rw [ByteFile.getElem?_write_inside here.1 (by omega), chunkData,
        List.getElem?_take_of_lt (by omega), List.getElem?_drop, Nat.add_sub_cancel' here.1]
    · rcases List.mem_cons.mp hd with rfl | hd
      · exact absurd ⟨low, high⟩ here
      · obtain ⟨inDown, old⟩ := same d hd i low high
        exact ⟨by omega, (ByteFile.getElem?_write_outside inDown (by omega)).trans old⟩

/-- Finalizing the chunks of an upload writes their plaintext and rebuilds their MACs. -/
theorem finalizeAll_spec {bodies : Std.ExtTreeMap Nat Bytes} (padding : Nat → Nat → UInt8)
    (sent : ∀ c ∈ chunks file.length, bodies[c.1]? = some (chunkCipher ecb ctriv file c))
    {order done : List (Nat × Nat)} (sub : ∀ c ∈ order, c ∈ chunks file.length)
    (down : Download) (restored : Restored file down.file done) :
    Restored file (order.foldl (Download.finalize ecb ctriv bodies padding) down).file
        (order ++ done) ∧
      (order.foldl (Download.finalize ecb ctriv bodies padding) down).macs =
        order.foldl (record fun c => (sealChunk ecb ctriv file c).2) down.macs := by
  induction order generalizing down done with
  | nil => exact ⟨restored, rfl⟩
  | cons c rest ih =>
    have hc := sub c List.mem_cons_self
    have now : Download.finalize ecb ctriv bodies padding down c =
        ⟨ByteFile.write 0 down.file (chunkData file c) c.1,
          record (fun c => (sealChunk ecb ctriv file c).2) down.macs c⟩ := by
      simp only [Download.finalize, sent c hc, Option.getD_some, finalizeDL_eq, record]
    rw [List.foldl_cons, List.foldl_cons, now]
    obtain ⟨whole, macs⟩ := ih (fun d hd => sub d (List.mem_cons_of_mem _ hd))
      ⟨ByteFile.write 0 down.file (chunkData file c) c.1, _⟩ (restored_write restored hc)
    refine ⟨⟨whole.1, fun d hd => whole.2 d ?_⟩, macs⟩
    simp only [List.cons_append, List.mem_cons, List.mem_append] at hd ⊢
    tauto

/-- A file whose chunks have all been written is the original one. -/
theorem restored_all {down : Bytes} {order : List (Nat × Nat)}
    (all : ∀ c ∈ chunks file.length, c ∈ order) (restored : Restored file down order) :
    down = file := by
  obtain ⟨short, same⟩ := restored
  refine List.ext_getElem? fun i => ?_
  by_cases inside : i < file.length
  · obtain ⟨c, hc, low, high⟩ := chunks_cover inside
    exact (same c (all c hc) i low high).2
  · rw [List.getElem?_eq_none (by omega), List.getElem?_eq_none (by omega)]

end Run

/-- For every file, key and counter start, every order of uploading and of downloading the
chunks and every padding of the receive buffers: the upload succeeds, the keys derived
from its file key restore the file, and its chunk MACs match the meta MAC. -/
theorem upload_download_agree (aes : Aes) (key : Block) (ctriv : UInt64) (file : Bytes)
    (ups downs : List (Nat × Nat)) (padding : Nat → Nat → UInt8)
    (allUp : ups.Perm (chunks file.length)) (allDown : downs.Perm (chunks file.length)) :
    ∃ up, prepareAll (aes key) ctriv file ups = some up ∧
      let k := fileKey key ctriv (macsMac (aes key) up.macs).1
      let ecb := aes (setKey k fileNode)
      let down := finalizeAll ecb (keyCtriv k) up.bodies padding downs
      down.file = file ∧ (macsMac ecb down.macs).1 = keyMetaMac k := by
  have upChunks : ∀ c ∈ ups, c ∈ chunks file.length := fun c hc => allUp.mem_iff.mp hc
  have downChunks : ∀ c ∈ downs, c ∈ chunks file.length := fun c hc => allDown.mem_iff.mp hc
  refine ⟨_, prepareAll_eq (aes key) ctriv upChunks ⟨∅, ∅⟩, ?_⟩
  simp only [setKey_fileKey, keyCtriv_fileKey, keyMetaMac_fileKey]
  have start : Restored file (Download.mk [] ∅).file [] :=
    ⟨Nat.zero_le _, fun c hc => absurd hc List.not_mem_nil⟩
  obtain ⟨restored, macs⟩ := finalizeAll_spec (aes key) ctriv padding
    (fun c hc => getElem?_record (v := chunkCipher (aes key) ctriv file) upChunks ∅
      (allUp.mem_iff.mpr hc)) downChunks _ start
  refine ⟨restored_all (fun c hc => ?_) restored, ?_⟩
  · rw [List.append_nil]
    exact allDown.mem_iff.mpr hc
  · rw [finalizeAll, macs, record_perm allUp, record_perm allDown]

/-- Two chunks, downloaded last to first with 255 in the padding, under a toy cipher. -/
theorem upload_download_agree_two_chunks :
    (chunks 131073).length = 2 ∧
      ∃ up, prepareAll (xorBlock (load [1])) 5 (List.replicate 131073 7) (chunks 131073) = some up ∧
        let k := fileKey (load [1]) 5 (macsMac (xorBlock (load [1])) up.macs).1
        let ecb := xorBlock (setKey k fileNode)
        let down := finalizeAll ecb (keyCtriv k) up.bodies (fun _ _ => 255) (chunks 131073).reverse
        down.file = List.replicate 131073 7 ∧ (macsMac ecb down.macs).1 = keyMetaMac k := by
  refine ⟨by decide, upload_download_agree xorBlock (load [1]) 5 (List.replicate 131073 7) _ _ _ ?_ ?_⟩
  · rw [List.length_replicate]
  · rw [List.length_replicate]
    exact List.reverse_perm _

end MegaSdk.Xfer
