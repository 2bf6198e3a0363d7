import KVStorage.Support.ThreeWay

/-! include/slice.h. A slice, like a std::string, is the bytes it shows; where
they lie in memory plays no part. -/
namespace KVStorage

open Support

abbrev Bytes := List UInt8

def byteDifference (x y : UInt8) : Int := (x.toNat : Int) - y.toNat

/- Only the sign of memcmp is laid down; this is the difference of the first two
bytes that differ. -/
def memcmp : Bytes → Bytes → Nat → Int
  | x::a, y::b, n+1 => if x = y then memcmp a b n else byteDifference x y
  | _, _, _ => 0

namespace Slice

def compare (a b : Bytes) : Int :=
  let min_len := if a.length < b.length then a.length else b.length
  let res := memcmp a b min_len
  if res = 0 then
    if a.length < b.length then -1 else if a.length > b.length then 1 else res
  else res

def startsWith (a x : Bytes) : Bool := decide (a.length ≥ x.length) && memcmp a x x.length == 0

/- operator==. -/
def equal (lhs rhs : Bytes) : Bool := decide (lhs.length = rhs.length) && memcmp lhs rhs lhs.length == 0

/- None where the assertion n <= size_ fails. -/
def removePrefix (a : Bytes) (n : Nat) : Option Bytes := if n ≤ a.length then some (a.drop n) else none

theorem removePrefixAppend (d rest : Bytes) : removePrefix (d ++ rest) d.length = some rest := by
  have inside : d.length ≤ (d ++ rest).length := List.IsPrefix.length_le (List.prefix_append d rest)
  rw [removePrefix,if_pos inside,List.drop_left]

theorem differenceZero (x y : UInt8) : byteDifference x y = 0 ↔ x = y := by
  unfold byteDifference
  constructor
  · intro same
    exact UInt8.toNat_inj.mp (by omega)
  · intro eq
    subst eq
    omega

theorem differenceNeg (x y : UInt8) : byteDifference x y < 0 ↔ x < y := by
  unfold byteDifference
  rw [UInt8.lt_iff_toNat_lt]
  omega

theorem memcmpZero (a b : Bytes) : ∀ n, n ≤ a.length → n ≤ b.length → (memcmp a b n = 0 ↔ a.take n = b.take n) := by
  induction a generalizing b with
  | nil =>
    intro n left _
    simp [Nat.le_zero.mp left,memcmp]
  | cons x a ih =>
    intro n left right
    cases b with
    | nil => simp [Nat.le_zero.mp right,memcmp]
    | cons y b =>
      cases n with
      | zero => simp [memcmp]
      | succ n =>
        have rest := ih b n (Nat.le_of_succ_le_succ left) (Nat.le_of_succ_le_succ right)
        simp only [memcmp,List.take_succ_cons,List.cons.injEq]
        by_cases same : x = y
        · subst same
          simp only [if_true,true_and,rest]
        · rw [if_neg same,differenceZero]
          simp only [same,false_and]

theorem startsWithIff (a x : Bytes) : startsWith a x = true ↔ x <+: a := by
  unfold startsWith
  rw [Bool.and_eq_true,decide_eq_true_iff,beq_iff_eq]
  constructor
  · intro ⟨long,same⟩
    have parts := (memcmpZero a x x.length long (Nat.le_refl _)).mp same
    rw [List.take_length] at parts
    rw [← parts]
    exact List.take_prefix _ _
  · intro starts
    obtain ⟨rest,split⟩ := starts
    subst split
    have long : x.length ≤ (x ++ rest).length := by simp
    exact ⟨long,(memcmpZero _ _ _ long (Nat.le_refl _)).mpr (by simp)⟩

theorem compareCons (x y : UInt8) (a b : Bytes) :
    compare (x::a) (y::b) = ThreeWay.tie (byteDifference x y) (compare a b) := by
  have shorter : (if a.length+1 < b.length+1 then a.length+1 else b.length+1) =
      (if a.length < b.length then a.length else b.length) + 1 := by
    split <;> split <;> omega
  unfold compare
  simp only [List.length_cons,shorter,memcmp]
  simp only [Nat.add_lt_add_iff_right,gt_iff_lt]
  by_cases same : x = y
  · have zero := (differenceZero x y).mpr same
    simp only [if_pos same,ThreeWay.tieZero zero]
  · have apart : byteDifference x y ≠ 0 := fun zero => same ((differenceZero x y).mp zero)
    simp only [if_neg same,ThreeWay.tieApart apart,if_neg apart]

theorem compareLexicographic (a b : Bytes) : compare a b = ThreeWay.lexicographic byteDifference a b := by
  induction a generalizing b with
  | nil => cases b <;> simp [compare,memcmp,ThreeWay.lexicographic]
  | cons x a ih =>
    cases b with
    | nil => simp [compare,memcmp,ThreeWay.lexicographic]
    | cons y b =>
      rw [compareCons,ih]
      rfl

theorem compareLawful : ThreeWay.Lawful compare := by
  have bytes : ThreeWay.Lawful byteDifference :=
    ThreeWay.comap (fun b : UInt8 => (b.toNat : Int)) ThreeWay.differenceLawful
  have whole := ThreeWay.lexicographicLawful bytes
  have same : compare = ThreeWay.lexicographic byteDifference :=
    funext fun a => funext fun b => compareLexicographic a b
  exact same ▸ whole

theorem compareZero (a b : Bytes) : compare a b = 0 ↔ a = b := by
  rw [compareLexicographic]
  exact ThreeWay.lexicographicZero differenceZero a b

/- operator== and compare agree. -/
theorem equalIff (a b : Bytes) : equal a b = true ↔ compare a b = 0 := by
  unfold equal
  rw [Bool.and_eq_true,decide_eq_true_iff,beq_iff_eq,compareZero]
  constructor
  · intro ⟨long,same⟩
    have parts := (memcmpZero a b a.length (Nat.le_refl _) (Nat.le_of_eq long)).mp same
    rwa [List.take_length,long,List.take_length] at parts
  · intro eq
    subst eq
    exact ⟨rfl,(memcmpZero a a a.length (Nat.le_refl _) (Nat.le_refl _)).mpr rfl⟩

theorem compareNeg (a b : Bytes) : compare a b < 0 ↔ a < b := by
  rw [compareLexicographic]
  exact ThreeWay.lexicographicNeg differenceNeg differenceZero a b

end Slice
end KVStorage
