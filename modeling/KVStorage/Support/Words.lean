import Mathlib.Data.Nat.Bitwise
import Mathlib.Data.Nat.Digits.Lemmas

/-! Machine words put together from smaller pieces by shift and or, and the
little-endian reading of a string of bytes. -/
namespace Support.Words

theorem orShift {acc s : Nat} (b w : Nat) (low : acc < 2^s) (le : s ≤ w) :
    acc ||| ((b <<< s) % 2^w) = (acc + b * 2^s) % 2^w := by
  have split : 2^w = 2^s * 2^(w-s) := by
    rw [← Nat.pow_add,Nat.add_sub_cancel' le]
  have high : (b <<< s) % 2^w = 2^s * (b % 2^(w-s)) := by
    rw [Nat.shiftLeft_eq,Nat.mul_comm,split,Nat.mul_mod_mul_left]
  have div : (acc + b * 2^s) / 2^s = b := by
    rw [Nat.add_mul_div_right _ _ (Nat.two_pow_pos s),Nat.div_eq_of_lt low,Nat.zero_add]
  have mod : (acc + b * 2^s) % 2^s = acc := by
    rw [Nat.add_mul_mod_self_right,Nat.mod_eq_of_lt low]
  rw [high,Nat.or_comm,← Nat.two_pow_add_eq_or_of_lt low,split,Nat.mod_mul,div,mod,Nat.add_comm]

theorem orShiftVec {w : Nat} {acc b : BitVec w} {s : Nat} (low : acc.toNat < 2^s) (le : s ≤ w) :
    (acc ||| (b <<< s)).toNat = (acc.toNat + b.toNat * 2^s) % 2^w := by
  rw [BitVec.toNat_or,BitVec.toNat_shiftLeft]
  exact orShift _ w low le

theorem byteAbove {acc s : Nat} (low : acc < 2^s) (b : UInt8) : acc + b.toNat * 2^s < 2^(s+8) := by
  have byte : b.toNat + 1 ≤ 2^8 := b.toNat_lt
  have scaled := Nat.mul_le_mul_right (2^s) byte
  rw [Nat.pow_add,Nat.mul_comm (2^s)]
  rw [Nat.add_mul] at scaled
  omega

/- A word filled so far up to bit s takes one more byte. -/
def Filled (s : Nat) (acc n : Nat) : Prop := acc = n ∧ n < 2^s

theorem fill32 (shift : UInt32) {acc : UInt32} {n : Nat} (filled : Filled shift.toNat acc.toNat n)
    (b : UInt8) (room : shift.toNat + 8 ≤ 32) :
    Filled (shift.toNat+8) (acc ||| (b.toUInt32 <<< shift)).toNat (n + b.toNat * 2^shift.toNat) := by
  obtain ⟨rfl,low⟩ := filled
  have grown := byteAbove low b
  have fits := Nat.lt_of_lt_of_le grown (Nat.pow_le_pow_right (by decide) room)
  have amount : shift.toNat % 32 = shift.toNat := Nat.mod_eq_of_lt (by omega)
  refine ⟨?_,grown⟩
  rw [UInt32.toNat_or,UInt32.toNat_shiftLeft,UInt8.toNat_toUInt32,amount,orShift _ 32 low (by omega),
    Nat.mod_eq_of_lt fits]

theorem fill64 (shift : UInt64) {acc : UInt64} {n : Nat} (filled : Filled shift.toNat acc.toNat n)
    (b : UInt8) (room : shift.toNat + 8 ≤ 64) :
    Filled (shift.toNat+8) (acc ||| (b.toUInt64 <<< shift)).toNat (n + b.toNat * 2^shift.toNat) := by
  obtain ⟨rfl,low⟩ := filled
  have grown := byteAbove low b
  have fits := Nat.lt_of_lt_of_le grown (Nat.pow_le_pow_right (by decide) room)
  have amount : shift.toNat % 64 = shift.toNat := Nat.mod_eq_of_lt (by omega)
  refine ⟨?_,grown⟩
  rw [UInt64.toNat_or,UInt64.toNat_shiftLeft,UInt8.toNat_toUInt64,amount,orShift _ 64 low (by omega),
    Nat.mod_eq_of_lt fits]

/- A byte in a word of w bits. -/
section Byte

variable {w : Nat} (wide : 8 ≤ w) (b : UInt8)

theorem highBit {n : Nat} (byte : n < 256) : n &&& 128 = 0 ↔ n < 128 := by
  have bit : n &&& 128 = (n.testBit 7).toNat * 2^7 := Nat.and_two_pow n 7
  have digit : n.testBit 7 = decide (n / 2^7 % 2 = 1) := Nat.testBit_eq_decide_div_mod_eq
  rw [bit,digit]
  by_cases high : n / 2^7 % 2 = 1
  · rw [decide_eq_true high]
    simp
    omega
  · rw [decide_eq_false high]
    simp
    omega

include wide in
theorem literal {n : Nat} (byte : n < 256) : (BitVec.ofNat w n).toNat = n := by
  have le : 2^8 ≤ 2^w := Nat.pow_le_pow_right (by decide) wide
  rw [BitVec.toNat_ofNat]
  exact Nat.mod_eq_of_lt (by omega)

include wide in
theorem byteWord : (b.toBitVec.setWidth w).toNat = b.toNat := by
  have le : 2^8 ≤ 2^w := Nat.pow_le_pow_right (by decide) wide
  rw [BitVec.toNat_setWidth]
  exact Nat.mod_eq_of_lt (Nat.lt_of_lt_of_le b.toNat_lt le)

include wide in
theorem byteHigh : (b.toBitVec.setWidth w &&& 128 : BitVec w) ≠ 0 ↔ ¬ b.toNat < 128 := by
  have flag : (128 : BitVec w).toNat = 128 := literal wide (by decide)
  have value : (b.toBitVec.setWidth w &&& 128 : BitVec w).toNat = b.toNat &&& 128 := by
    rw [BitVec.toNat_and,byteWord wide,flag]
  rw [← highBit b.toNat_lt,← value,not_iff_not,← BitVec.toNat_inj]
  simp

include wide in
theorem byteLow : (b.toBitVec.setWidth w &&& 127 : BitVec w).toNat = b.toNat % 128 := by
  have mask : (127 : BitVec w).toNat = 127 := literal wide (by decide)
  rw [BitVec.toNat_and,byteWord wide,mask]
  exact Nat.and_two_pow_sub_one_eq_mod b.toNat 7

end Byte

def littleEndian (bs : List UInt8) : Nat := Nat.ofDigits 256 (bs.map UInt8.toNat)

theorem littleEndianNil : littleEndian [] = 0 := rfl

theorem littleEndianCons (b : UInt8) (bs : List UInt8) :
    littleEndian (b::bs) = b.toNat + 256 * littleEndian bs := by
  simp [littleEndian,Nat.ofDigits_cons]

/- Byte i of a number is what is left of it above 8*i bits. -/
theorem littleEndianBytes (n k : Nat) :
    littleEndian ((List.range k).map fun i => UInt8.ofNat (n >>> (8*i))) = n % 256^k := by
  induction k generalizing n with
  | zero =>
    rw [Nat.pow_zero,Nat.mod_one]
    rfl
  | succ k ih =>
    have low : (UInt8.ofNat (n >>> (8*0))).toNat = n % 256 := UInt8.toNat_ofNat'
    have shifted : ∀ i, n >>> (8*(i+1)) = (n / 256) >>> (8*i) := by
      intro i
      rw [Nat.mul_add,Nat.add_comm,Nat.shiftRight_add,Nat.shiftRight_eq_div_pow n]
    have tail := ih (n / 256)
    simp only [← shifted] at tail
    rw [List.range_succ_eq_map,List.map_cons,List.map_map,littleEndianCons,low,Nat.pow_succ',Nat.mod_mul]
    rw [← tail]
    rfl

theorem littleEndianInjective {a b : List UInt8} (size : a.length = b.length)
    (same : littleEndian a = littleEndian b) : a = b := by
  have low : ∀ bs : List UInt8, ∀ d ∈ bs.map UInt8.toNat, d < 256 := by
    intro bs d mem
    obtain ⟨byte,_,rfl⟩ := List.mem_map.mp mem
    exact byte.toNat_lt
  have digits := Nat.ofDigits_inj_of_len_eq (by decide) (by simpa using size) (low a) (low b) same
  exact List.map_injective_iff.mpr (fun _ _ eq => UInt8.toNat_inj.mp eq) digits

end Support.Words
