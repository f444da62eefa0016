import MegaSdk.Lib.ByteOrder

/-!
# Computations with a log of their reads

A reader works on a memory that is longer than the buffer it was given, and leaves a log of the
offsets and lengths it has read. Whether all of them lie in the buffer is then a property of
the log.
-/

namespace LoggedReads

open ByteOrder

universe u v
variable {α : Type u} {β : Type v}

/-- A value with the reads that it took, as offsets and lengths. -/
structure Logged (α : Type u) where
  reads : List (Nat × Nat)
  value : α

def Logged.pure (value : α) : Logged α := ⟨[], value⟩

def Logged.bind (x : Logged α) (f : α → Logged β) : Logged β :=
  ⟨x.reads ++ (f x.value).reads, (f x.value).value⟩

/-- `n` bytes of the memory. -/
def fetch (memory : List UInt8) (offset n : Nat) : Logged (List UInt8) :=
  ⟨[(offset, n)], (memory.drop offset).take n⟩

/-- A little-endian integer of `n` bytes. -/
def fetchWord (memory : List UInt8) (offset n : Nat) : Logged Nat :=
  (fetch memory offset n).bind fun bytes => .pure (ofLe bytes)

def Within (limit : Nat) (x : Logged α) : Prop := ∀ read ∈ x.reads, read.1 + read.2 ≤ limit

@[simp] theorem value_pure (value : α) : (Logged.pure value).value = value := rfl

@[simp] theorem value_bind (x : Logged α) (f : α → Logged β) :
    (x.bind f).value = (f x.value).value := rfl

@[simp] theorem value_fetchWord (memory : List UInt8) (offset n : Nat) :
    (fetchWord memory offset n).value = ofLe ((memory.drop offset).take n) := rfl

variable {limit : Nat}

@[simp] theorem within_pure (value : α) : Within limit (Logged.pure value) := by
  simp [Within, Logged.pure]

@[simp] theorem within_bind (x : Logged α) (f : α → Logged β) :
    Within limit (x.bind f) ↔ Within limit x ∧ Within limit (f x.value) := by
  simp [Within, Logged.bind, or_imp, forall_and]

@[simp] theorem within_fetch (memory : List UInt8) (offset n : Nat) :
    Within limit (fetch memory offset n) ↔ offset + n ≤ limit := by
  simp [Within, fetch]

@[simp] theorem within_fetchWord (memory : List UInt8) (offset n : Nat) :
    Within limit (fetchWord memory offset n) ↔ offset + n ≤ limit := by
  simp [fetchWord]

/-- Inside the buffer the memory behind it does not matter. -/
theorem take_drop_memory {buffer beyond : List UInt8} {offset n : Nat}
    (inside : offset + n ≤ buffer.length) :
    ((buffer ++ beyond).drop offset).take n = (buffer.drop offset).take n := by
  rw [List.drop_append_of_le_length (by omega), List.take_append_of_le_length]
  rw [List.length_drop]
  omega

end LoggedReads
