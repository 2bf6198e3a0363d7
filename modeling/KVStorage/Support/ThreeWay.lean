import Mathlib.Order.Lattice
import Mathlib.Data.Int.Order.Basic

/-! Three-way comparisons by the sign of an integer. A lawful one is a total
preorder; nothing is asked of the size of the result, nor that equal keys are
the same key. -/
namespace Support.ThreeWay

structure Lawful {α : Type} (cmp : α → α → Int) : Prop where
  swap : ∀ a b, (cmp a b).sign = -(cmp b a).sign
  trans : ∀ {a b c}, cmp a b ≤ 0 → cmp b c ≤ 0 → cmp a c ≤ 0

namespace Lawful
variable {α : Type} {cmp : α → α → Int} (h : Lawful cmp)
include h

theorem negIff {a b} : cmp a b < 0 ↔ 0 < cmp b a := by
  have s := h.swap a b
  rw [← Int.sign_eq_neg_one_iff_neg,← Int.sign_eq_one_iff_pos]
  omega

theorem zeroIff {a b} : cmp a b = 0 ↔ cmp b a = 0 := by
  have left := h.negIff (a := a) (b := b)
  have right := h.negIff (a := b) (b := a)
  omega

theorem self (a) : cmp a a = 0 := by
  have s := h.negIff (a := a) (b := a)
  omega

theorem nonposIff {a b} : cmp a b ≤ 0 ↔ 0 ≤ cmp b a := by
  have s := h.negIff (a := b) (b := a)
  omega

theorem total (a b) : cmp a b ≤ 0 ∨ cmp b a ≤ 0 := by
  have s := h.nonposIff (a := a) (b := b)
  omega

theorem ltOfLtOfLe {a b c} (ab : cmp a b < 0) (bc : cmp b c ≤ 0) : cmp a c < 0 := by
  by_contra no
  have ca : cmp c a ≤ 0 := h.nonposIff.mpr (by omega)
  have ba := h.nonposIff.mp (h.trans bc ca)
  omega

theorem ltOfLeOfLt {a b c} (ab : cmp a b ≤ 0) (bc : cmp b c < 0) : cmp a c < 0 := by
  by_contra no
  have ca : cmp c a ≤ 0 := h.nonposIff.mpr (by omega)
  have cb := h.nonposIff.mp (h.trans ca ab)
  omega

theorem ltTrans {a b c} (ab : cmp a b < 0) (bc : cmp b c < 0) : cmp a c < 0 :=
  h.ltOfLtOfLe ab (Int.le_of_lt bc)

theorem irrefl {a} : ¬ cmp a a < 0 := by
  have s := h.self a
  omega

theorem asymm {a b} (ab : cmp a b < 0) : ¬ cmp b a < 0 :=
  fun ba => h.irrefl (h.ltTrans ab ba)

end Lawful

section Combine

variable {α β : Type} {cmp : α → α → Int}

theorem comap (f : β → α) (h : Lawful cmp) : Lawful (fun a b => cmp (f a) (f b)) :=
  ⟨fun a b => h.swap (f a) (f b),fun ab bc => h.trans ab bc⟩

/- A second result decides where the first finds no difference. -/
def tie (first second : Int) : Int := if first = 0 then second else first

theorem tieZero {first : Int} (same : first = 0) (second : Int) : tie first second = second := if_pos same

theorem tieApart {first : Int} (apart : first ≠ 0) (second : Int) : tie first second = first := if_neg apart

theorem tieSwap (h : Lawful cmp) {x y : α} {xy yx : Int} (rest : xy.sign = -yx.sign) :
    (tie (cmp x y) xy).sign = -(tie (cmp y x) yx).sign := by
  by_cases same : cmp x y = 0
  · simp only [tie,same,h.zeroIff.mp same,if_true]
    exact rest
  · have back : cmp y x ≠ 0 := fun zero => same (h.zeroIff.mp zero)
    simp only [tie,if_neg same,if_neg back]
    exact h.swap x y

theorem tieTrans (h : Lawful cmp) {x y z : α} {xy yz xz : Int} (rest : xy ≤ 0 → yz ≤ 0 → xz ≤ 0)
    (left : tie (cmp x y) xy ≤ 0) (right : tie (cmp y z) yz ≤ 0) : tie (cmp x z) xz ≤ 0 := by
  have first : ∀ {r s : Int}, tie r s ≤ 0 → r ≤ 0 := by
    intro r s le
    unfold tie at le
    split at le
    · omega
    · exact le
  by_cases same : cmp x z = 0
  · have back := Int.le_of_eq (h.zeroIff.mp same)
    have xyZero : cmp x y = 0 :=
      Int.le_antisymm (first left) (h.nonposIff.mp (h.trans (first right) back))
    have yzZero : cmp y z = 0 :=
      Int.le_antisymm (first right) (h.nonposIff.mp (h.trans back (first left)))
    simp only [tie,xyZero,yzZero,same,if_true] at left right ⊢
    exact rest left right
  · simp only [tie,if_neg same]
    exact h.trans (first left) (first right)

def orElse (first second : α → α → Int) (a b : α) : Int := tie (first a b) (second a b)

theorem orElseLawful {first second : α → α → Int} (hf : Lawful first) (hs : Lawful second) :
    Lawful (orElse first second) :=
  ⟨fun a b => tieSwap hf (hs.swap a b),fun ab bc => tieTrans hf hs.trans ab bc⟩

/- Greater first. -/
def descending [LT α] [DecidableLT α] (a b : α) : Int := if a > b then -1 else if a < b then 1 else 0

theorem descendingLawful [LinearOrder α] : Lawful (descending (α := α)) := by
  have sign : ∀ a b : α, descending a b ≤ 0 ↔ b ≤ a := by
    intro a b
    unfold descending
    split
    · rename_i gt
      simp [le_of_lt gt]
    · rename_i notGt
      split
      · rename_i lt
        simp [lt]
      · rename_i notLt
        simp [not_lt.mp notLt]
  refine ⟨?_,fun ab bc => (sign _ _).mpr (le_trans ((sign _ _).mp bc) ((sign _ _).mp ab))⟩
  intro a b
  unfold descending
  rcases lt_trichotomy a b with lt | rfl | gt
  · simp [lt,not_lt_of_gt lt]
  · simp
  · simp [gt,not_lt_of_gt gt]

end Combine

section Lists

variable {α : Type}

/- Lexicographic, a proper prefix first. -/
def lexicographic (cmp : α → α → Int) : List α → List α → Int
  | [], [] => 0
  | [], _::_ => -1
  | _::_, [] => 1
  | x::a, y::b => tie (cmp x y) (lexicographic cmp a b)

theorem lexicographicLawful {cmp : α → α → Int} (h : Lawful cmp) : Lawful (lexicographic cmp) := by
  refine ⟨?_,?_⟩
  · intro a b
    induction a generalizing b with
    | nil => cases b <;> rfl
    | cons x a ih =>
      cases b with
      | nil => rfl
      | cons y b => exact tieSwap h (ih b)
  · intro a b c ab bc
    induction a generalizing b c with
    | nil => cases c <;> simp [lexicographic]
    | cons x a ih =>
      cases b with
      | nil => simp [lexicographic] at ab
      | cons y b =>
        cases c with
        | nil => simp [lexicographic] at bc
        | cons z c => exact tieTrans h ih ab bc

variable {cmp : α → α → Int}

theorem lexicographicZero (zero : ∀ x y, cmp x y = 0 ↔ x = y) (a b : List α) :
    lexicographic cmp a b = 0 ↔ a = b := by
  induction a generalizing b with
  | nil => cases b <;> simp [lexicographic]
  | cons x a ih =>
    cases b with
    | nil => simp [lexicographic]
    | cons y b =>
      unfold lexicographic
      by_cases same : cmp x y = 0
      · rw [tieZero same,ih b,(zero x y).mp same]
        simp
      · have apart : x ≠ y := fun eq => same ((zero x y).mpr eq)
        rw [tieApart same]
        simp [same,apart]

theorem lexicographicNeg [LT α] (neg : ∀ x y, cmp x y < 0 ↔ x < y) (zero : ∀ x y, cmp x y = 0 ↔ x = y)
    (a b : List α) : lexicographic cmp a b < 0 ↔ a < b := by
  induction a generalizing b with
  | nil => cases b <;> simp [lexicographic]
  | cons x a ih =>
    cases b with
    | nil => simp [lexicographic]
    | cons y b =>
      rw [List.cons_lt_cons_iff]
      unfold lexicographic
      by_cases same : cmp x y = 0
      · have notLess : ¬ x < y := fun less => by
          have sign := (neg x y).mpr less
          omega
        rw [tieZero same,ih b]
        have eq := (zero x y).mp same
        exact ⟨fun less => .inr ⟨eq,less⟩,fun either => (either.resolve_left notLess).2⟩
      · have apart : x ≠ y := fun eq => same ((zero x y).mpr eq)
        rw [tieApart same,neg]
        simp [apart]

end Lists

theorem differenceLawful : Lawful (fun a b : Int => a - b) := by
  refine ⟨?_,?_⟩
  · intro a b
    rw [← Int.sign_neg,Int.neg_sub]
  · intro a b c ab bc
    omega

end Support.ThreeWay
