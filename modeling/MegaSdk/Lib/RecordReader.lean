import MegaSdk.Lib.ByteOrder

/-!
# Reading records from a terminated buffer

A reader holds the bytes from its pointer to the end of the buffer, of which the last is the
terminating NUL. It returns a value, refuses the record, or reads past the buffer.
-/

namespace RecordReader

open ByteOrder

universe u v
variable {α : Type u} {β : Type v}

/-- The outcome of a reader; `wild` stands for a read past the end of the buffer. -/
inductive Read (α : Type u) where
  | ok (value : α)
  | null
  | wild
  deriving DecidableEq

namespace Read

def bind (x : Read α) (f : α → Read β) : Read β :=
  match x with
  | ok value => f value
  | null => null
  | wild => wild

@[simp] theorem bind_ok (value : α) (f : α → Read β) : (ok value).bind f = f value := rfl

theorem bind_eq_ok {x : Read α} {f : α → Read β} {result : β} :
    x.bind f = ok result ↔ ∃ value, x = ok value ∧ f value = ok result := by
  cases x <;> simp [bind]

theorem bind_ne_null {x : Read α} {f : α → Read β} (first : x ≠ null)
    (second : ∀ value, x = ok value → f value ≠ null) : x.bind f ≠ null := by
  cases x with
  | ok value => exact second value rfl
  | null => exact absurd rfl first
  | wild => exact fun impossible => by cases impossible

end Read

/-- `n` bytes at the pointer, and the pointer behind them. -/
def bytes (n : Nat) (ptr : List UInt8) : Read (List UInt8 × List UInt8) :=
  if n ≤ ptr.length then .ok (ptr.take n, ptr.drop n) else .wild

/-- A little-endian integer of `n` bytes at the pointer. -/
def word (n : Nat) (ptr : List UInt8) : Read (Nat × List UInt8) :=
  (bytes n ptr).bind fun (value, ptr) => .ok (ofLe value, ptr)

/-- Refuses when fewer than `n` bytes lie before the terminating NUL. -/
def require (n : Nat) (ptr : List UInt8) : Read Unit :=
  if n < ptr.length then .ok () else .null

theorem bytes_ne_null (n : Nat) (ptr : List UInt8) : bytes n ptr ≠ .null := by
  rw [bytes]
  split <;> exact fun impossible => by cases impossible

theorem word_ne_null (n : Nat) (ptr : List UInt8) : word n ptr ≠ .null :=
  Read.bind_ne_null (bytes_ne_null n ptr) fun _ _ impossible => by cases impossible

theorem bytes_append {n : Nat} {front : List UInt8} (length : front.length = n)
    (rest : List UInt8) : bytes n (front ++ rest) = .ok (front, rest) := by
  rw [bytes, if_pos (by simp [length]), List.take_left' length, List.drop_left' length]

theorem bytes_eq_ok {n : Nat} {ptr front rest : List UInt8} :
    bytes n ptr = .ok (front, rest) ↔ front.length = n ∧ ptr = front ++ rest := by
  constructor
  · intro read
    rw [bytes] at read
    split at read
    · next inside =>
      cases read
      exact ⟨List.length_take_of_le inside, (List.take_append_drop n ptr).symm⟩
    · cases read
  · rintro ⟨length, rfl⟩
    exact bytes_append length rest

theorem word_append {n value : Nat} (fits : value < 256 ^ n) (rest : List UInt8) :
    word n (leBytes n value ++ rest) = .ok (value, rest) := by
  rw [word, bytes_append (length_leBytes n value), Read.bind_ok]
  simp only [ofLe_leBytes, Nat.mod_eq_of_lt fits]

theorem word_eq_ok {n value : Nat} {ptr rest : List UInt8} :
    word n ptr = .ok (value, rest) ↔ value < 256 ^ n ∧ ptr = leBytes n value ++ rest := by
  constructor
  · intro read
    obtain ⟨⟨front, behind⟩, taken, result⟩ := Read.bind_eq_ok.mp read
    obtain ⟨rfl, rfl⟩ := bytes_eq_ok.mp taken
    cases result
    have written := leBytes_ofLe front 0
    rw [Nat.add_zero, List.replicate_zero, List.append_nil] at written
    exact ⟨ofLe_lt front, by rw [written]⟩
  · rintro ⟨fits, rfl⟩
    exact word_append fits rest

theorem word_one (b : UInt8) (rest : List UInt8) : word 1 (b :: rest) = .ok (b.toNat, rest) := by
  rw [word, show b :: rest = [b] ++ rest from rfl, bytes_append (n := 1) rfl, Read.bind_ok]
  simp [ofLe]

theorem require_append {n : Nat} {front rest : List UInt8} (enough : n ≤ front.length)
    (more : rest ≠ []) : require n (front ++ rest) = .ok () := by
  have positive := List.length_pos_iff.mpr more
  rw [require, if_pos (by rw [List.length_append]; omega)]

section Offsets
variable {buffer : List UInt8} {offset n : Nat}

/-- Reading at an offset of the buffer. -/
theorem bytes_drop (inside : offset + n ≤ buffer.length) :
    bytes n (buffer.drop offset) = .ok ((buffer.drop offset).take n, buffer.drop (offset + n)) := by
  rw [bytes, if_pos (by rw [List.length_drop]; omega), List.drop_drop]

theorem bytes_drop_wild (outside : buffer.length < offset + n) (positive : 0 < n) :
    bytes n (buffer.drop offset) = .wild := by
  rw [bytes, if_neg (by rw [List.length_drop]; omega)]

theorem word_drop (inside : offset + n ≤ buffer.length) :
    word n (buffer.drop offset) =
      .ok (ofLe ((buffer.drop offset).take n), buffer.drop (offset + n)) := by
  rw [word, bytes_drop inside, Read.bind_ok]

theorem word_drop_wild (outside : buffer.length < offset + n) (positive : 0 < n) :
    word n (buffer.drop offset) = .wild := by
  rw [word, bytes_drop_wild outside positive]
  rfl

theorem require_drop :
    require n (buffer.drop offset) = if offset + n < buffer.length then .ok () else .null := by
  rw [require, List.length_drop]
  congr 1
  exact propext (by omega)

end Offsets

end RecordReader
