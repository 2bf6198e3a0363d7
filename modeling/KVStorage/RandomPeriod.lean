import KVStorage.Random
import KVStorage.Support.Lehmer
import Mathlib.Tactic.NormNum.Prime
import Mathlib.Tactic.ReduceModChar

/-! The generator of util/random.h is the multiplicative one with 16807 modulo
2^31-1: nothing in a call wraps, and its period is as long as can be. -/
namespace KVStorage.Random

open Support

/- The intermediate values of a call of next. -/
def product (r : Random) : UInt64 := r.seed_.toUInt64 * 16807

def folded (r : Random) : UInt64 := (r.product >>> 31) + (r.product &&& 2147483647)

/- The state after k calls, and what the k-th of them returns. -/
def calls (r : Random) : Nat → Random
  | 0 => r
  | k+1 => (calls r k).next.2

def output (r : Random) (k : Nat) : UInt32 := (calls r (k-1)).next.1

/- States a client can bring about. -/
inductive Reached : Random → Prop where
  | new (s : UInt32) : Reached (Random.new s)
  | next {r : Random} (before : Reached r) : Reached r.next.2
  | uniform {r : Random} (before : Reached r) (n : Int32) : Reached (r.uniform n).2
  | oneIn {r : Random} (before : Reached r) (n : UInt32) : Reached (r.oneIn n).2
  | skewed {r : Random} (before : Reached r) (max_log : Int32) : Reached (r.skewed max_log).2

def Valid (r : Random) : Prop := 1 ≤ r.seed_.toNat ∧ r.seed_.toNat ≤ 2^31-2

/- Every value of a call is the one that the integers give. -/
structure Exact (r : Random) : Prop where
  product : r.product.toNat = r.seed_.toNat*16807
  folded : r.folded.toNat = r.product.toNat/2^31 + r.product.toNat%2^31
  cast : r.folded.toUInt32.toNat = r.folded.toNat

theorem modulusPrime : Nat.Prime 2147483647 ∧ IsPrimitiveRoot ((16807 : Nat) : ZMod 2147483647) (2147483647-1) := by
  have factors : [2,3,3,7,11,31,151,331].prod = 2147483647-1 := by decide
  have all : ∀ q ∈ [2,3,3,7,11,31,151,331], Nat.Prime q := by
    simp only [List.forall_mem_cons,List.not_mem_nil,false_implies,implies_true,and_true]
    norm_num
  have whole : ((16807 : Nat) : ZMod 2147483647)^(2147483647-1) = 1 := by
    norm_num
    reduce_mod_char
  have parts : ∀ q ∈ [2,3,3,7,11,31,151,331], ((16807 : Nat) : ZMod 2147483647)^((2147483647-1)/q) ≠ 1 := by
    simp only [List.forall_mem_cons,List.not_mem_nil,false_implies,implies_true,and_true]
    norm_num
    reduce_mod_char
    decide
  exact Lehmer.lucas (by decide) factors all whole parts

instance modulusFact : Fact (Nat.Prime 2147483647) := ⟨modulusPrime.1⟩

section Calls

variable {r : Random}

theorem newValid (s : UInt32) : Valid (Random.new s) := by
  have mask : (s &&& 0x7fffffff).toNat = s.toNat % 2^31 := by
    rw [UInt32.toNat_and]
    exact Nat.and_two_pow_sub_one_eq_mod _ 31
  have below := Nat.mod_lt s.toNat (Nat.two_pow_pos 31)
  unfold Random.new
  simp only
  split
  · exact ⟨Nat.le_refl 1,by decide⟩
  · rename_i kept
    have notZero : (s &&& 0x7fffffff).toNat ≠ 0 := fun eq => kept (.inl (UInt32.toNat_inj.mp eq))
    have notModulus : (s &&& 0x7fffffff).toNat ≠ 2147483647 := fun eq => kept (.inr (UInt32.toNat_inj.mp eq))
    simp only [Valid]
    omega

theorem seedApart (valid : Valid r) : ¬ 2147483647 ∣ r.seed_.toNat := by
  obtain ⟨positive,small⟩ := valid
  exact Nat.not_dvd_of_pos_of_lt positive (by omega)

theorem nextExact (valid : Valid r) : Exact r := by
  obtain ⟨positive,small⟩ := valid
  have product : r.product.toNat = r.seed_.toNat*16807 := by
    rw [Random.product,UInt64.toNat_mul,UInt32.toNat_toUInt64]
    exact Nat.mod_eq_of_lt (by simp only [UInt64.reduceToNat]; omega)
  have high : (r.product >>> 31).toNat = r.product.toNat/2^31 := by
    rw [UInt64.toNat_shiftRight]
    exact Nat.shiftRight_eq_div_pow ..
  have low : (r.product &&& 2147483647).toNat = r.product.toNat%2^31 := by
    rw [UInt64.toNat_and]
    exact Nat.and_two_pow_sub_one_eq_mod _ 31
  have folded : r.folded.toNat = r.product.toNat/2^31 + r.product.toNat%2^31 := by
    rw [Random.folded,UInt64.toNat_add,high,low]
    exact Nat.mod_eq_of_lt (by omega)
  have cast : r.folded.toUInt32.toNat = r.folded.toNat := by
    rw [UInt64.toNat_toUInt32]
    exact Nat.mod_eq_of_lt (by omega)
  exact ⟨product,folded,cast⟩

theorem nextIs (r : Random) : r.next.1 =
    if r.folded.toUInt32 > 2147483647 then r.folded.toUInt32 - 2147483647 else r.folded.toUInt32 := rfl

theorem nextValue (valid : Valid r) : r.next.1.toNat = r.seed_.toNat*16807 % 2147483647 := by
  obtain ⟨product,folded,cast⟩ := nextExact valid
  have apart := Lehmer.termApart modulusPrime.2 (seedApart valid) 1
  rw [Nat.pow_one] at apart
  have room : r.seed_.toNat*16807 < 2^31*2^31 := by
    have small := valid.2
    omega
  have mersenne : 2^31-1 = 2147483647 := rfl
  have reduced := Lehmer.foldReduces room apart
  rw [mersenne] at reduced
  have seed : r.folded.toUInt32.toNat = r.seed_.toNat*16807/2^31 + r.seed_.toNat*16807%2^31 := by
    rw [cast,folded,product]
  have modulus : (2147483647 : UInt32).toNat = 2147483647 := rfl
  have test : r.folded.toUInt32 > 2147483647 ↔ r.folded.toUInt32.toNat > 2147483647 := by
    rw [gt_iff_lt,UInt32.lt_iff_toNat_lt,modulus]
  rw [← seed] at reduced
  rw [nextIs,← reduced]
  by_cases more : r.folded.toUInt32 > 2147483647
  · rw [if_pos more,if_pos (test.mp more),UInt32.toNat_sub_of_le _ _ (UInt32.le_of_lt more),modulus]
  · rw [if_neg more,if_neg (fun lt => more (test.mpr lt))]

theorem nextValid (valid : Valid r) : Valid r.next.2 := by
  have bounds := Lehmer.termBounds modulusPrime.2 (seedApart valid) 1
  rw [Nat.pow_one,← nextValue valid] at bounds
  exact bounds

theorem reachedValid (reached : Reached r) : Valid r := by
  induction reached with
  | new s => exact newValid s
  | next before ih => exact nextValid ih
  | uniform before n ih => exact nextValid ih
  | oneIn before n ih => exact nextValid ih
  | skewed before max_log ih => exact nextValid (nextValid ih)

theorem callsValid (valid : Valid r) (k : Nat) : Valid (calls r k) := by
  induction k with
  | zero => exact valid
  | succ k ih => exact nextValid ih

/- The seed after k calls, by induction on the calls. -/
theorem callsValue (valid : Valid r) (k : Nat) :
    (calls r k).seed_.toNat = r.seed_.toNat*16807^k % 2147483647 := by
  induction k with
  | zero =>
    have small := valid.2
    rw [calls,Nat.pow_zero,Nat.mul_one]
    exact (Nat.mod_eq_of_lt (by omega)).symm
  | succ k ih =>
    have step : (calls r (k+1)).seed_.toNat = (calls r k).seed_.toNat*16807 % 2147483647 :=
      nextValue (callsValid valid k)
    rw [step,ih,Nat.mod_mul_mod,Nat.mul_assoc,← Nat.pow_succ]

theorem outputValue (valid : Valid r) (k : Nat) :
    (output r (k+1)).toNat = r.seed_.toNat*16807^(k+1) % 2147483647 := callsValue valid (k+1)

theorem uniformBelow (r : Random) {n : Int32} (positive : 0 < n) : ((r.uniform n).1.toNat : Int) < n.toInt := by
  have above : 0 < n.toInt := Int32.lt_iff_toInt_lt.mp positive
  have value : n.toInt = n.toUInt32.toNat := by
    have signed := BitVec.toInt_eq_toNat_cond n.toBitVec
    have same : n.toBitVec.toInt = n.toInt := rfl
    have bits : n.toBitVec.toNat = n.toUInt32.toNat := rfl
    split at signed
    · rw [← same,signed,bits]
    · have small := n.toBitVec.isLt
      omega
  have below : (r.uniform n).1.toNat < n.toUInt32.toNat := by
    have rest : (r.uniform n).1.toNat = r.next.1.toNat % n.toUInt32.toNat := UInt32.toNat_mod ..
    rw [rest]
    exact Nat.mod_lt _ (by omega)
  omega

/- The shift of the int 1 has room for thirty places. -/
theorem oneShifted (base : UInt32) (small : base.toNat ≤ 30) : (1 <<< base.toInt32 : Int32).toInt = 2^base.toNat := by
  have places : ∀ b < 31, ((1 : Int32) <<< (UInt32.ofNat b).toInt32).toInt = 2^b := by decide
  have shifted := places base.toNat (by omega)
  rwa [UInt32.ofNat_toNat] at shifted

theorem skewedBelow (r : Random) {m : Int32} (low : 0 ≤ m) (high : m ≤ 30) :
    (r.skewed m).1.toNat < 2^m.toInt.toNat := by
  have bottom : 0 ≤ m.toInt := Int32.le_iff_toInt_le.mp low
  have top : m.toInt ≤ 30 := Int32.le_iff_toInt_le.mp high
  have more : (m+1).toInt = m.toInt+1 := by
    have one : (1 : Int32).toInt = 1 := rfl
    rw [Int32.toInt_add,one]
    exact Int.bmod_eq_of_le (by omega) (by omega)
  have positive : 0 < m+1 := Int32.lt_iff_toInt_lt.mpr (by rw [more]; exact Int.lt_add_one_of_le bottom)
  have base := uniformBelow r positive
  have shifted := oneShifted (r.uniform (m+1)).1 (by omega)
  have room : (0 : Int32) < (1 : Int32) <<< (r.uniform (m+1)).1.toInt32 := by
    apply Int32.lt_iff_toInt_lt.mpr
    rw [shifted]
    exact Int.pow_pos (by decide)
  have drawn := uniformBelow (r.uniform (m+1)).2 room
  rw [shifted] at drawn
  have within : (r.skewed m).1.toNat < 2^(r.uniform (m+1)).1.toNat := by exact_mod_cast drawn
  exact Nat.lt_of_lt_of_le within (Nat.pow_le_pow_right (by decide) (by omega))

end Calls
/- Every start gives the whole cycle of remainders, and no call wraps anywhere. -/
theorem randomFullPeriod :
    (∀ s : UInt32, Valid (Random.new s)) ∧
    (∀ (s : UInt32) (k : Nat), 1 ≤ k →
      (output (Random.new s) k).toNat = (Random.new s).seed_.toNat*16807^k % (2^31-1) ∧
      1 ≤ (output (Random.new s) k).toNat ∧ (output (Random.new s) k).toNat ≤ 2^31-2) ∧
    (∀ (s : UInt32) (v : Nat), 1 ≤ v → v ≤ 2^31-2 →
      ∃! k, (1 ≤ k ∧ k ≤ 2^31-2) ∧ (output (Random.new s) k).toNat = v) ∧
    (∀ (s : UInt32) (k : Nat), 1 ≤ k → output (Random.new s) (k+(2^31-2)) = output (Random.new s) k) ∧
    (∀ (s : UInt32) (k d : Nat), 1 ≤ k → output (Random.new s) (k+d) = output (Random.new s) k → 2^31-2 ∣ d) ∧
    ∀ r, Reached r → Exact r ∧ (∀ n : Int32, 0 < n → ((r.uniform n).1.toNat : Int) < n.toInt) ∧
      ∀ m : Int32, 0 ≤ m → m ≤ 30 → (r.skewed m).1.toNat < 2^m.toInt.toNat := by
  have root := modulusPrime.2
  have apart := fun s => seedApart (newValid s)
  refine ⟨newValid,?_,?_,?_,?_,?_⟩
  · intro s k positive
    obtain ⟨k,rfl⟩ := Nat.exists_eq_add_of_le' positive
    have bounds := Lehmer.termBounds root (apart s) (k+1)
    rw [← outputValue (newValid s)] at bounds
    exact ⟨outputValue (newValid s) k,bounds⟩
  · intro s v positive small
    have first := Lehmer.termApart root (apart s) 1
    obtain ⟨k,⟨low,hits⟩,only⟩ := Lehmer.orbitCovers root first positive small
    have term : ∀ j, (output (Random.new s) (j+1)).toNat =
        (Random.new s).seed_.toNat*16807^1*16807^j % 2147483647 := by
      intro j
      rw [outputValue (newValid s),Nat.mul_assoc,← Nat.pow_add,Nat.add_comm 1]
    refine ⟨k+1,⟨⟨Nat.succ_le_succ (Nat.zero_le k),low⟩,(term k).trans hits⟩,?_⟩
    intro j ⟨⟨least,few⟩,also⟩
    obtain ⟨j,rfl⟩ := Nat.exists_eq_add_of_le' least
    rw [only j ⟨few,(term j).symm.trans also⟩]
  · intro s k positive
    obtain ⟨k,rfl⟩ := Nat.exists_eq_add_of_le' positive
    have again := Lehmer.orbitRepeats root (apart s) (k+1)
    apply UInt32.toNat_inj.mp
    rw [Nat.add_right_comm,outputValue (newValid s),outputValue (newValid s),Nat.add_right_comm]
    exact again
  · intro s k d positive same
    obtain ⟨k,rfl⟩ := Nat.exists_eq_add_of_le' positive
    have values := congrArg UInt32.toNat same
    rw [Nat.add_right_comm,outputValue (newValid s),outputValue (newValid s),Nat.add_right_comm] at values
    exact Lehmer.orbitLeast root (apart s) values
  · intro r reached
    exact ⟨nextExact (reachedValid reached),fun n positive => uniformBelow r positive,
      fun m low high => skewedBelow r low high⟩

end KVStorage.Random
