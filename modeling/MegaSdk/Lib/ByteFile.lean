import Mathlib.Data.List.Basic

/-!
# Positioned writes

A file is the list of its bytes. A positioned write overwrites its range, extends
the file when the range ends behind it and fills a gap before the range with
`zero`; writing nothing changes nothing.
-/

namespace ByteFile

universe u
variable {Byte : Type u}

def write (zero : Byte) (file data : List Byte) (pos : Nat) : List Byte :=
  if data = [] then file
  else file.take pos ++ List.replicate (pos - file.length) zero ++ data ++
    file.drop (pos + data.length)

variable {zero : Byte} {file data : List Byte} {pos : Nat}

theorem length_write (some : data ≠ []) :
    (write zero file data pos).length = max file.length (pos + data.length) := by
  rw [write, if_neg some]
  simp only [List.length_append, List.length_take, List.length_replicate, List.length_drop]
  omega

theorem length_front : (file.take pos ++ List.replicate (pos - file.length) zero).length = pos := by
  simp only [List.length_append, List.length_take, List.length_replicate]
  omega

theorem getElem?_write_inside {i : Nat} (low : pos ≤ i) (high : i < pos + data.length) :
    (write zero file data pos)[i]? = data[i - pos]? := by
  have some : data ≠ [] := by
    intro empty
    rw [empty] at high
    simp at high
    omega
  rw [write, if_neg some, List.append_assoc,
    List.getElem?_append_right (by rw [length_front]; exact low),
    length_front, List.getElem?_append_left (by omega)]

/-- Bytes of the file outside the range stay as they are. -/
theorem getElem?_write_outside {i : Nat} (inFile : i < file.length)
    (outside : i < pos ∨ pos + data.length ≤ i) :
    (write zero file data pos)[i]? = file[i]? := by
  rw [write]
  split
  · rfl
  · rcases outside with before | after
    · rw [List.append_assoc, List.append_assoc,
        List.getElem?_append_left (by rw [List.length_take]; omega), List.getElem?_take_of_lt before]
    · rw [List.getElem?_append_right (by rw [List.length_append, length_front]; exact after),
        List.length_append, length_front, List.getElem?_drop]
      congr 1
      omega

end ByteFile
