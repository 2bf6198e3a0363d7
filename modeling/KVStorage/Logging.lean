import KVStorage.Slice
import KVStorage.Support.Decimal
import Mathlib.Algebra.Ring.Nat

/-! util/logging.cc: how a number is written, how one is read off the front of a
slice, and how bytes are copied out for a message. -/
namespace KVStorage

open Support

/- std::to_string. -/
def to_string (num : UInt64) : Bytes := Decimal.write num.toNat

def appendNumberTo (str : Bytes) (num : UInt64) : Bytes := str ++ to_string num

def numberToString (num : UInt64) : Bytes := appendNumberTo [] num

/- Nothing is escaped. -/
def appendEscapedStringTo (str value : Bytes) : Bytes := str ++ value

def escapeString (value : Bytes) : Bytes := appendEscapedStringTo [] value

def s_max_uint64 : UInt64 := UInt64.ofNat (2^64-1)

def s_last_digit_of_max_uint64 : UInt8 := 48 + (s_max_uint64 % 10).toUInt8

/- One digit of the loop: the test for overflow, then value * 10 + (ch - '0'). -/
def takeDigit (value : UInt64) (ch : UInt8) : Option UInt64 :=
  if value > s_max_uint64/10 ∨ (value = s_max_uint64/10 ∧ ch > s_last_digit_of_max_uint64) then none
  else some (value*10 + (ch-48).toUInt64)

/- The loop from current on, with the bytes it has passed; none where it returns
at once. -/
def consumeDigits : Bytes → UInt64 → Nat → Option (UInt64 × Nat)
  | [], value, passed => some (value,passed)
  | ch::current, value, passed =>
    if ch < 48 ∨ ch > 57 then some (value,passed)
    else do
      let value ← takeDigit value ch
      consumeDigits current value (passed+1)

/- The return value, *in and *val. -/
def consumeDecimalNumber (input : Bytes) (val : UInt64) : Option (Bool × Bytes × UInt64) :=
  match consumeDigits input 0 0 with
  | none => some (false,input,val)
  | some (value,digits_consumed) => do
    let rest ← Slice.removePrefix input digits_consumed
    some (digits_consumed != 0,rest,value)

theorem breakIff (ch : UInt8) : (ch < 48 ∨ ch > 57) ↔ ¬ Decimal.isDigit ch := by
  rw [Decimal.isDigitIff,UInt8.lt_iff_toNat_lt,gt_iff_lt,UInt8.lt_iff_toNat_lt]
  simp only [UInt8.reduceToNat]
  omega

/- The bytes of the test, in numbers. -/
theorem overflowIff {value : UInt64} {ch : UInt8} (decimal : Decimal.isDigit ch) :
    (value > s_max_uint64/10 ∨ (value = s_max_uint64/10 ∧ ch > s_last_digit_of_max_uint64)) ↔
      2^64 ≤ value.toNat*10 + Decimal.digit ch := by
  have bounds := Decimal.isDigitIff.mp decimal
  have tens : (s_max_uint64/10).toNat = (2^64-1)/10 := rfl
  have last : s_last_digit_of_max_uint64.toNat = 48 + (2^64-1)%10 := rfl
  have oversteps := Decimal.overstepsIff (2^64-1) value.toNat (Decimal.digitSmall decimal)
  rw [gt_iff_lt,UInt64.lt_iff_toNat_lt,← UInt64.toNat_inj,gt_iff_lt,UInt8.lt_iff_toNat_lt,tens,last]
  unfold Decimal.digit at *
  omega

theorem takeDigitCases (value : UInt64) {ch : UInt8} (decimal : Decimal.isDigit ch) :
    (takeDigit value ch = none ∧ 2^64 ≤ value.toNat*10 + Decimal.digit ch) ∨
    ∃ next, takeDigit value ch = some next ∧ next.toNat = value.toNat*10 + Decimal.digit ch := by
  unfold takeDigit
  by_cases exceeds : 2^64 ≤ value.toNat*10 + Decimal.digit ch
  · exact .inl ⟨if_pos ((overflowIff decimal).mpr exceeds),exceeds⟩
  · have bounds := Decimal.isDigitIff.mp decimal
    have low : (48 : UInt8) ≤ ch := UInt8.le_iff_toNat_le.mpr bounds.1
    have byte : (ch-48).toUInt64.toNat = Decimal.digit ch := by
      rw [UInt8.toNat_toUInt64,UInt8.toNat_sub_of_le _ _ low]
      rfl
    have sum : (value*10 + (ch-48).toUInt64).toNat = value.toNat*10 + Decimal.digit ch := by
      rw [UInt64.toNat_add,UInt64.toNat_mul,byte,Nat.mod_add_mod]
      exact Nat.mod_eq_of_lt (Nat.not_le.mp exceeds)
    exact .inr ⟨_,if_neg (fun test => exceeds ((overflowIff decimal).mp test)),sum⟩

/- The loop, by induction on what is left: value is always the number of the digits
passed, and once over the cap it would stay over it. -/
theorem consumeDigitsCases (p : Bytes) (value : UInt64) (passed : Nat) :
    (consumeDigits p value passed = none ∧
      2^64 ≤ Decimal.continuation value.toNat (p.takeWhile Decimal.isDigit)) ∨
    ∃ last, consumeDigits p value passed = some (last,passed + (p.takeWhile Decimal.isDigit).length) ∧
      last.toNat = Decimal.continuation value.toNat (p.takeWhile Decimal.isDigit) := by
  induction p generalizing value passed with
  | nil => exact .inr ⟨value,rfl,rfl⟩
  | cons ch p ih =>
    by_cases decimal : Decimal.isDigit ch
    · have goes : ¬ (ch < 48 ∨ ch > 57) := fun stops => (breakIff ch).mp stops decimal
      rw [List.takeWhile_cons_of_pos decimal,Decimal.continuationCons,consumeDigits,if_neg goes]
      rcases takeDigitCases value decimal with ⟨stopped,exceeds⟩ | ⟨next,taken,sum⟩
      · have grows := Decimal.continuationGrows (value.toNat*10 + Decimal.digit ch) (p.takeWhile Decimal.isDigit)
        rw [stopped]
        exact .inl ⟨rfl,Nat.le_trans exceeds grows⟩
      · have more : passed+1 + (p.takeWhile Decimal.isDigit).length =
            passed + (ch::p.takeWhile Decimal.isDigit).length := by
          rw [List.length_cons,Nat.add_assoc,Nat.add_comm 1]
        rw [taken,← sum,← more]
        exact ih next (passed+1)
    · rw [List.takeWhile_cons_of_neg decimal,consumeDigits,if_pos ((breakIff ch).mpr decimal)]
      exact .inr ⟨value,rfl,rfl⟩

/- What is promised of the return value, *in and *val. -/
structure Consumed (input : Bytes) (out : Bool × Bytes × UInt64) : Prop where
  accepts : out.1 = true ↔
    input.takeWhile Decimal.isDigit ≠ [] ∧ Decimal.number (input.takeWhile Decimal.isDigit) ≤ 2^64-1
  value : out.1 = true → out.2.2.toNat = Decimal.number (input.takeWhile Decimal.isDigit)
  rest : out.1 = true → input = input.takeWhile Decimal.isDigit ++ out.2.1
  kept : out.1 = false → out.2.1 = input

theorem consumeDecimalNumberSpec (input : Bytes) (val : UInt64) :
    ∃ out, consumeDecimalNumber input val = some out ∧ Consumed input out := by
  unfold consumeDecimalNumber
  have split : input.takeWhile Decimal.isDigit ++ input.dropWhile Decimal.isDigit = input :=
    List.takeWhile_append_dropWhile
  rcases consumeDigitsCases input 0 0 with ⟨stopped,exceeds⟩ | ⟨last,done,sum⟩
  · have refused : ¬ Decimal.number (input.takeWhile Decimal.isDigit) ≤ 2^64-1 :=
      fun small => absurd (Nat.le_trans exceeds small) (by decide)
    rw [stopped]
    exact ⟨_,rfl,⟨⟨nofun,fun both => absurd both.2 refused⟩,nofun,nofun,fun _ => rfl⟩⟩
  · have removed := Slice.removePrefixAppend (input.takeWhile Decimal.isDigit) (input.dropWhile Decimal.isDigit)
    rw [split] at removed
    have number : last.toNat = Decimal.number (input.takeWhile Decimal.isDigit) := sum
    have small : Decimal.number (input.takeWhile Decimal.isDigit) ≤ 2^64-1 :=
      number ▸ Nat.le_pred_of_lt last.toNat_lt
    have consumed : ((input.takeWhile Decimal.isDigit).length != 0) = true ↔ input.takeWhile Decimal.isDigit ≠ [] := by
      rw [bne_iff_ne,Ne,List.length_eq_zero_iff]
    have kept : ((input.takeWhile Decimal.isDigit).length != 0) = false → input.dropWhile Decimal.isDigit = input := by
      intro nothing
      have empty : input.takeWhile Decimal.isDigit = [] := List.length_eq_zero_iff.mp (bne_eq_false_iff_eq.mp nothing)
      rwa [empty] at split
    rw [done,Nat.zero_add]
    simp only [removed]
    exact ⟨_,rfl,⟨consumed.trans ⟨fun nonempty => ⟨nonempty,small⟩,And.left⟩,fun _ => number,fun _ => split.symm,kept⟩⟩

theorem numberReadBack (n : UInt64) {s : Bytes} (stops : ∀ b ∈ s.head?, ¬ Decimal.isDigit b) (val : UInt64) :
    consumeDecimalNumber (numberToString n ++ s) val = some (true,s,n) := by
  obtain ⟨⟨ret,rest,value⟩,done,consumed⟩ := consumeDecimalNumberSpec (numberToString n ++ s) val
  have digits : (numberToString n ++ s).takeWhile Decimal.isDigit = numberToString n :=
    Decimal.writeLeading n.toNat stops
  have number : Decimal.number (numberToString n) = n.toNat := Decimal.writeNumber n.toNat
  have accepts := consumed.accepts
  rw [digits,number] at accepts
  have accepted : ret = true := accepts.mpr ⟨Decimal.writeNonempty n.toNat,Nat.le_pred_of_lt n.toNat_lt⟩
  have left : numberToString n ++ s = numberToString n ++ rest := by
    have split := consumed.rest accepted
    rwa [digits] at split
  have same : value.toNat = n.toNat := by
    have read := consumed.value accepted
    rwa [digits,number] at read
  rw [done,accepted,List.append_cancel_left left,UInt64.toNat_inj.mp same]

/- The reader takes exactly the decimal numbers below 2^64, no sum on the way
wraps, and it reads back what is written. -/
theorem decimalNumbers :
    (∀ input val, ∃ out, consumeDecimalNumber input val = some out ∧ Consumed input out) ∧
    (∀ value next : UInt64, ∀ ch, Decimal.isDigit ch → takeDigit value ch = some next →
      next.toNat = value.toNat*10 + Decimal.digit ch) ∧
    (∀ (n : UInt64) (s : Bytes), (∀ b ∈ s.head?, ¬ Decimal.isDigit b) →
      ∀ val, consumeDecimalNumber (numberToString n ++ s) val = some (true,s,n)) := by
  have sums : ∀ value next : UInt64, ∀ ch, Decimal.isDigit ch → takeDigit value ch = some next →
      next.toNat = value.toNat*10 + Decimal.digit ch := by
    intro value next ch decimal taken
    rcases takeDigitCases value decimal with ⟨stopped,exceeds⟩ | ⟨next',taken',sum⟩
    · cases stopped.symm.trans taken
    · cases taken'.symm.trans taken
      exact sum
  exact ⟨consumeDecimalNumberSpec,sums,fun n _ stops val => numberReadBack n stops val⟩

theorem decimalNumbersTwelve : consumeDecimalNumber (numberToString 12 ++ [120]) 0 = some (true,[120],12) := by
  have stops : ∀ b ∈ List.head? [120], ¬ Decimal.isDigit b := by
    intro b mem
    cases mem
    decide
  exact decimalNumbers.2.2 12 [120] stops 0

end KVStorage
