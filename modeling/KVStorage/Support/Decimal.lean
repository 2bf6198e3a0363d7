import Mathlib.Data.List.Basic
import Mathlib.Data.List.DropRight

/-! Decimal numbers in ASCII, high digit first. What a string of bytes is worth
and how a number is written are Lean's own; a reader with a cap looks at the tens
and at the last digit before it takes one more digit. A number is found again at
either end of a string, where the byte next to it is no digit. -/
namespace Support.Decimal

def isDigit (b : UInt8) : Bool := (Char.ofUInt8 b).isDigit

def digit (b : UInt8) : Nat := b.toNat - 48

/- The number that the digits make when they follow the digits of n. -/
def continuation (n : Nat) (ds : List UInt8) : Nat := Nat.ofDigitChars 10 (ds.map Char.ofUInt8) n

def number (ds : List UInt8) : Nat := continuation 0 ds

def write (n : Nat) : List UInt8 := (Nat.toDigits 10 n).map Char.toUInt8

theorem isDigitIff {b : UInt8} : isDigit b ↔ 48 ≤ b.toNat ∧ b.toNat ≤ 57 := Char.isDigit_iff_toNat

theorem digitSmall {b : UInt8} (decimal : isDigit b) : digit b < 10 := by
  have bounds := isDigitIff.mp decimal
  unfold digit
  omega

/- The test for overflow, on the tens and the last digit, is the test on the sum. -/
theorem overstepsIff (cap n : Nat) {d : Nat} (small : d < 10) :
    n > cap/10 ∨ (n = cap/10 ∧ d > cap%10) ↔ cap < n*10 + d := by
  omega

theorem continuationCons (n : Nat) (b : UInt8) (ds : List UInt8) :
    continuation n (b::ds) = continuation (n*10 + digit b) ds := by
  have char : (Char.ofUInt8 b).toNat - '0'.toNat = digit b := rfl
  rw [continuation,List.map_cons,Nat.ofDigitChars_cons,char,Nat.mul_comm]
  rfl

/- More digits never make a smaller number: one over the cap stays over it. -/
theorem continuationGrows (n : Nat) (ds : List UInt8) : n ≤ continuation n ds := by
  induction ds generalizing n with
  | nil => exact Nat.le_of_eq Nat.ofDigitChars_nil.symm
  | cons b ds ih =>
    have rest := ih (n*10 + digit b)
    rw [continuationCons]
    omega

section Writing

variable {n : Nat} {c : Char}

theorem charByte (decimal : c.isDigit) : Char.ofUInt8 c.toUInt8 = c := by
  have byte : c.toUInt8.toNat = c.toNat % 256 := UInt32.toNat_toUInt8 c.val
  have high : c.toNat ≤ 57 := (Char.isDigit_iff_toNat.mp decimal).2
  have back : (Char.ofUInt8 c.toUInt8).toNat = c.toNat := byte.trans (Nat.mod_eq_of_lt (by omega))
  exact Char.toNat_inj.mp back

theorem writtenChars (n : Nat) : (write n).map Char.ofUInt8 = Nat.toDigits 10 n := by
  have back : ∀ c ∈ Nat.toDigits 10 n, (Char.ofUInt8 ∘ Char.toUInt8) c = c := by
    intro c mem
    exact charByte (Nat.isDigit_of_mem_toDigits (by decide) (by decide) mem)
  rw [write,List.map_map,List.map_congr_left back,List.map_id']

theorem writeNonempty (n : Nat) : write n ≠ [] := by
  intro empty
  have chars := writtenChars n
  rw [empty,List.map_nil] at chars
  exact Nat.toDigits_ne_nil chars.symm

theorem writeDigits (n : Nat) : ∀ b ∈ write n, isDigit b := by
  intro b mem
  have char : Char.ofUInt8 b ∈ Nat.toDigits 10 n := by
    rw [← writtenChars]
    exact List.mem_map_of_mem mem
  exact Nat.isDigit_of_mem_toDigits (by decide) (by decide) char

theorem writeNumber (n : Nat) : number (write n) = n := by
  rw [number,continuation,writtenChars]
  exact Nat.ofDigitChars_ten_toDigits

/- A written number before a byte that is no digit is the whole run of digits. -/
theorem writeLeading (n : Nat) {rest : List UInt8} (stops : ∀ b ∈ rest.head?, ¬ isDigit b) :
    (write n ++ rest).takeWhile isDigit = write n := by
  have none : rest.takeWhile isDigit = [] := by
    cases rest with
    | nil => rfl
    | cons b rest => exact List.takeWhile_cons_of_neg (stops b rfl)
  rw [List.takeWhile_append_of_pos (writeDigits n),none,List.append_nil]

/- What stands before the last run of digits, and the number of that run. -/
def trailing (p : List UInt8) : List UInt8 × Nat := (p.rdropWhile isDigit,number (p.rtakeWhile isDigit))

theorem writeTrailing (n : Nat) {front : List UInt8} {last : UInt8} (stops : ¬ isDigit last) :
    trailing (front ++ [last] ++ write n) = (front ++ [last],n) := by
  have digits : ∀ b ∈ (write n).reverse, isDigit b := fun b mem => writeDigits n b (List.mem_reverse.mp mem)
  have turned : (front ++ [last] ++ write n).reverse = (write n).reverse ++ last::front.reverse := by
    rw [List.reverse_append,List.reverse_concat]
  have kept : (front ++ [last] ++ write n).rdropWhile isDigit = front ++ [last] := by
    rw [List.rdropWhile,turned,List.dropWhile_append_of_pos digits,List.dropWhile_cons_of_neg stops,
      ← List.reverse_concat,List.reverse_reverse]
  have run : (front ++ [last] ++ write n).rtakeWhile isDigit = write n := by
    rw [List.rtakeWhile,turned,List.takeWhile_append_of_pos digits,List.takeWhile_cons_of_neg stops,
      List.append_nil,List.reverse_reverse]
  rw [trailing,kept,run,writeNumber]

end Writing
end Support.Decimal
