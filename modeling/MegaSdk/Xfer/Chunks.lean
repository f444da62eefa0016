import MegaSdk.Types
import Mathlib.Algebra.Order.BigOperators.Group.List
import Mathlib.Data.List.Pairwise
import Mathlib.Algebra.Ring.Nat

/-!
# Chunks of a file

`ChunkedHash::chunkceil` of utils.cpp and the chunks in which a file of a given
size is transferred. Chunk sizes grow by one segment up to eight segments.
-/

namespace MegaSdk.Xfer

def segSize : Nat := 131072

/-- The loop of `chunkceil` over the growing chunks, with the chunk's start `cp`. -/
def chunkCeilFrom (p : Nat) : List Nat → Nat → Nat
  | [], cp => (p - cp) / (8 * segSize) * (8 * segSize) + cp + 8 * segSize
  | i :: rest, cp =>
    let np := cp + i * segSize
    if p ≥ cp ∧ p < np then np else chunkCeilFrom p rest np

/-- End of the chunk that holds position `p`, and start of the next one. -/
def chunkCeil (p : Nat) : Nat := chunkCeilFrom p [1, 2, 3, 4, 5, 6, 7, 8] 0

theorem chunkCeilFrom_gt {p cp : Nat} (is : List Nat) (start : cp ≤ p) :
    p < chunkCeilFrom p is cp := by
  induction is generalizing cp with
  | nil =>
    have := Nat.div_add_mod (p - cp) (8 * segSize)
    have := Nat.mod_lt (p - cp) (show 0 < 8 * segSize by decide)
    rw [chunkCeilFrom, Nat.mul_comm]
    omega
  | cons i rest ih =>
    rw [chunkCeilFrom]
    split
    · rename_i inside
      exact inside.2
    · exact ih (by omega)

theorem chunkCeilFrom_le {p cp : Nat} (is : List Nat) (start : cp ≤ p)
    (small : ∀ i ∈ is, i ≤ 8) : chunkCeilFrom p is cp ≤ p + 8 * segSize := by
  induction is generalizing cp with
  | nil =>
    have := Nat.div_mul_le_self (p - cp) (8 * segSize)
    rw [chunkCeilFrom]
    omega
  | cons i rest ih =>
    rw [chunkCeilFrom]
    split
    · have bound := Nat.mul_le_mul_right segSize (small i List.mem_cons_self)
      omega
    · exact ih (by omega) fun j hj => small j (List.mem_cons_of_mem _ hj)

theorem chunkCeil_gt (p : Nat) : p < chunkCeil p := chunkCeilFrom_gt _ (Nat.zero_le p)

theorem chunkCeil_le (p : Nat) : chunkCeil p ≤ p + 1048576 :=
  chunkCeilFrom_le _ (Nat.zero_le p) (by decide)

/-- End of the chunk at `pos` in a file of `size` bytes. -/
def chunkEnd (size pos : Nat) : Nat := min (chunkCeil pos) size

/-- The chunks from `pos` on. -/
def chunksFrom (size : Nat) : Nat → Nat → List (Nat × Nat)
  | 0, _ => []
  | fuel + 1, pos =>
    if pos < chunkEnd size pos then
      (pos, chunkEnd size pos) :: chunksFrom size fuel (chunkEnd size pos)
    else []

/-- The chunks `[pos, npos)` of a file; an empty file has one empty chunk. -/
def chunks (size : Nat) : List (Nat × Nat) :=
  if size = 0 then [(0, 0)] else chunksFrom size size 0

theorem chunkEnd_le (size pos : Nat) : chunkEnd size pos ≤ size := Nat.min_le_right _ _

theorem lt_chunkEnd_iff (size pos : Nat) : pos < chunkEnd size pos ↔ pos < size := by
  have := chunkCeil_gt pos
  rw [chunkEnd]
  omega

theorem mem_chunksFrom {size fuel pos : Nat} {c : Nat × Nat} (hc : c ∈ chunksFrom size fuel pos) :
    pos ≤ c.1 ∧ c.1 < c.2 ∧ c.2 = chunkEnd size c.1 := by
  induction fuel generalizing pos with
  | zero => cases hc
  | succ fuel ih =>
    rw [chunksFrom] at hc
    split at hc
    · rename_i some
      rcases List.mem_cons.mp hc with rfl | later
      · exact ⟨Nat.le_refl _, some, rfl⟩
      · obtain ⟨low, nonempty, stop⟩ := ih later
        exact ⟨by omega, nonempty, stop⟩
    · cases hc

/-- Every byte from `pos` on lies in one of the chunks. -/
theorem chunksFrom_cover {size fuel pos i : Nat} (enough : size ≤ pos + fuel) (low : pos ≤ i)
    (high : i < size) : ∃ c ∈ chunksFrom size fuel pos, c.1 ≤ i ∧ i < c.2 := by
  induction fuel generalizing pos with
  | zero => omega
  | succ fuel ih =>
    have some := (lt_chunkEnd_iff size pos).mpr (by omega)
    rw [chunksFrom, if_pos some]
    by_cases here : i < chunkEnd size pos
    · exact ⟨_, List.mem_cons_self, low, here⟩
    · obtain ⟨c, hc, inside⟩ := @ih (chunkEnd size pos) (by omega) (by omega)
      exact ⟨c, List.mem_cons_of_mem _ hc, inside⟩

theorem mem_chunks {size : Nat} {c : Nat × Nat} (hc : c ∈ chunks size) :
    c.1 ≤ c.2 ∧ c.2 = chunkEnd size c.1 := by
  rw [chunks] at hc
  split at hc
  · rename_i empty
    have only : c = (0, 0) := List.mem_singleton.mp hc
    subst only empty
    exact ⟨Nat.le_refl _, rfl⟩
  · exact ⟨Nat.le_of_lt (mem_chunksFrom hc).2.1, (mem_chunksFrom hc).2.2⟩

theorem chunks_cover {size i : Nat} (inside : i < size) :
    ∃ c ∈ chunks size, c.1 ≤ i ∧ i < c.2 := by
  rw [chunks, if_neg (by omega)]
  exact chunksFrom_cover (by omega) (Nat.zero_le i) inside

/-- Chunks are short enough for the 32-bit sizes of a request. -/
theorem chunk_size_lt {size : Nat} {c : Nat × Nat} (hc : c ∈ chunks size) :
    (c.2 - c.1) % 2 ^ 32 = c.2 - c.1 := by
  have stop := (mem_chunks hc).2
  have bound := chunkCeil_le c.1
  rw [chunkEnd] at stop
  exact Nat.mod_eq_of_lt (by omega)

theorem chunksFrom_ordered (size fuel pos : Nat) :
    (chunksFrom size fuel pos).Pairwise fun c d => c.2 ≤ d.1 := by
  induction fuel generalizing pos with
  | zero => exact List.Pairwise.nil
  | succ fuel ih =>
    rw [chunksFrom]
    split
    · exact List.Pairwise.cons (fun d hd => (mem_chunksFrom hd).1) (ih _)
    · exact List.Pairwise.nil

theorem chunks_ordered (size : Nat) : (chunks size).Pairwise fun c d => c.2 ≤ d.1 := by
  rw [chunks]
  split
  · exact List.pairwise_singleton _ _
  · exact chunksFrom_ordered size size 0

def Apart (c d : Nat × Nat) : Prop := c.2 ≤ d.1 ∨ d.2 ≤ c.1

instance : Std.Symm Apart := ⟨fun _ _ => Or.symm⟩

theorem apart_of_ordered {l : List (Nat × Nat)} (ordered : l.Pairwise fun c d => c.2 ≤ d.1)
    {c d : Nat × Nat} (hc : c ∈ l) (hd : d ∈ l) (differ : c ≠ d) : Apart c d := by
  have apart : l.Pairwise Apart := ordered.imp Or.inl
  exact apart.forall hc hd differ

/-- Different chunks do not overlap. -/
theorem chunks_apart {size : Nat} {c d : Nat × Nat} (hc : c ∈ chunks size)
    (hd : d ∈ chunks size) (differ : c ≠ d) : Apart c d :=
  apart_of_ordered (chunks_ordered size) hc hd differ

theorem chunk_eq_of_pos {size : Nat} {c d : Nat × Nat} (hc : c ∈ chunks size)
    (hd : d ∈ chunks size) (same : c.1 = d.1) : c = d := by
  refine Prod.ext same ?_
  rw [(mem_chunks hc).2, (mem_chunks hd).2, same]

theorem chunksFrom_sum {size fuel pos : Nat} (enough : size ≤ pos + fuel) :
    ((chunksFrom size fuel pos).map fun c => c.2 - c.1).sum = size - pos := by
  induction fuel generalizing pos with
  | zero =>
    rw [chunksFrom, List.map_nil, List.sum_nil]
    omega
  | succ fuel ih =>
    have iff := lt_chunkEnd_iff size pos
    have bound := chunkEnd_le size pos
    rw [chunksFrom]
    split
    · rw [List.map_cons, List.sum_cons, ih (by omega)]
      dsimp only
      omega
    · rw [List.map_nil, List.sum_nil]
      omega

/-- The chunks add up to the file. -/
theorem chunks_sum (size : Nat) : ((chunks size).map fun c => c.2 - c.1).sum = size := by
  rw [chunks]
  split
  · rename_i empty
    simp [empty]
  · rw [chunksFrom_sum (by omega), Nat.sub_zero]

theorem chunks_nodup (size : Nat) : ((chunks size).map Prod.fst).Nodup := by
  rw [List.Nodup, List.pairwise_map, chunks]
  split
  · exact List.pairwise_singleton _ _
  · refine (chunksFrom_ordered size size 0).imp_of_mem fun hc hd order => ?_
    have nonempty := (mem_chunksFrom hc).2.1
    omega

/-- A position at which a chunk starts, or the end of the file. -/
def IsStart (size pos : Nat) : Prop := pos = size ∨ ∃ c ∈ chunks size, c.1 = pos

theorem isStart_zero (size : Nat) : IsStart size 0 := by
  by_cases empty : size = 0
  · exact Or.inl empty.symm
  · obtain ⟨c, hc, low, _⟩ := chunks_cover (i := 0) (Nat.pos_of_ne_zero empty)
    exact Or.inr ⟨c, hc, by omega⟩

/-- The chunk that starts at a given position. -/
theorem isStart_mem {size pos : Nat} (start : IsStart size pos) (more : pos < size ∨ size = 0) :
    (pos, chunkEnd size pos) ∈ chunks size := by
  rcases start with last | ⟨c, hc, heq⟩
  · have empty : size = 0 := by omega
    subst empty
    subst last
    exact List.mem_singleton.mpr rfl
  · have stop := (mem_chunks hc).2
    rw [heq] at stop
    have same : c = (pos, chunkEnd size pos) := Prod.ext heq stop
    exact same ▸ hc

theorem chunksFrom_next {size fuel pos : Nat} (enough : size ≤ pos + fuel) {c : Nat × Nat}
    (hc : c ∈ chunksFrom size fuel pos) (more : c.2 < size) :
    ∃ d ∈ chunksFrom size fuel pos, d.1 = c.2 := by
  obtain ⟨low, nonempty, stop⟩ := mem_chunksFrom hc
  obtain ⟨d, hd, before, after⟩ := chunksFrom_cover enough (i := c.2) (by omega) more
  refine ⟨d, hd, ?_⟩
  -- a chunk that starts before `c.2` and ends behind it would overlap `c`
  by_contra apart
  have differ : c ≠ d := by
    rintro rfl
    omega
  rcases apart_of_ordered (chunksFrom_ordered size fuel pos) hc hd differ with first | second
  · omega
  · omega

theorem isStart_next {size pos : Nat} (start : IsStart size pos) :
    IsStart size (chunkEnd size pos) := by
  have bound := chunkEnd_le size pos
  by_cases last : chunkEnd size pos = size
  · exact Or.inl last
  · have nonempty : size ≠ 0 := by omega
    rcases start with heq | ⟨c, hc, heq⟩
    · have := lt_chunkEnd_iff size pos
      rw [chunkEnd] at last
      have := chunkCeil_gt pos
      omega
    · have stop := (mem_chunks hc).2
      rw [heq] at stop
      rw [chunks, if_neg nonempty] at hc
      obtain ⟨d, hd, next⟩ := chunksFrom_next (by omega) hc (by omega)
      refine Or.inr ⟨d, ?_, next.trans stop⟩
      rwa [chunks, if_neg nonempty]

end MegaSdk.Xfer
