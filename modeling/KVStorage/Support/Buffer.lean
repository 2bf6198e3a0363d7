import Mathlib.Data.List.Basic

/-! Arrays written and read in place. An access that does not lie inside the array
has no result. An array filled from its start does not depend on what it held. -/
namespace Support.Buffer

variable {α : Type}

def write (buffer : List α) (start : Nat) (data : List α) : Option (List α) :=
  if start + data.length ≤ buffer.length then
    some (buffer.take start ++ data ++ buffer.drop (start + data.length))
  else none

def read (buffer : List α) (start size : Nat) : Option (List α) :=
  if start + size ≤ buffer.length then some ((buffer.drop start).take size) else none

theorem writeInside {buffer data : List α} {start : Nat} (fits : start + data.length ≤ buffer.length) :
    ∃ left, write buffer start data = some left ∧ left.length = buffer.length := by
  refine ⟨_,if_pos fits,?_⟩
  simp only [List.length_append,List.length_take,List.length_drop]
  omega

/- An array whose first places hold the data and whose others are as they were. -/
structure Filled (original done buffer : List α) : Prop where
  split : buffer = done ++ original.drop done.length
  fits : done.length ≤ original.length

variable {original done buffer : List α} {size : Nat}

theorem filledNothing (original : List α) : Filled original [] original := ⟨rfl,Nat.zero_le _⟩

theorem filledWhole (filled : Filled original done buffer) (full : done.length = original.length) : buffer = done := by
  rw [filled.split,full,List.drop_length,List.append_nil]

theorem filledLength (filled : Filled original done buffer) : buffer.length = original.length := by
  have fits := filled.fits
  rw [filled.split,List.length_append,List.length_drop]
  omega

theorem writeNext (start : Nat) (data : List α) (filled : Filled original done buffer) (here : start = done.length)
    (fits : start + data.length ≤ original.length) :
    ∃ buffer', write buffer start data = some buffer' ∧ Filled original (done ++ data) buffer' := by
  have inside : start + data.length ≤ buffer.length := by rw [filledLength filled]; exact fits
  have front : buffer.take start = done := by rw [filled.split,here,List.take_left]
  have back : buffer.drop (start + data.length) = original.drop (done ++ data).length := by
    rw [filled.split,here,List.length_append,← List.drop_drop,List.drop_left,List.drop_drop]
  have filled' : Filled original (done ++ data) (done ++ data ++ buffer.drop (start + data.length)) := by
    refine ⟨by rw [back],?_⟩
    rw [List.length_append]
    omega
  exact ⟨_,by rw [write,if_pos inside,front],filled'⟩

theorem readPart (before data after : List α) {start : Nat} (here : start = before.length)
    (there : size = data.length) : read (before ++ data ++ after) start size = some data := by
  have inside : start + size ≤ (before ++ data ++ after).length := by
    simp only [List.length_append]
    omega
  rw [read,if_pos inside,here,there,List.append_assoc,List.drop_left,List.take_left]

theorem readAll (buffer : List α) : read buffer 0 buffer.length = some buffer := by
  rw [read,if_pos (by omega),List.drop_zero,List.take_length]

end Support.Buffer
