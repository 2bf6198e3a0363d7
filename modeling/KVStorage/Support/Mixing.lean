import Mathlib.Data.Nat.Bitwise
import Mathlib.Data.Nat.ModEq
import Mathlib.Data.Nat.Prime.Basic
import Mathlib.Logic.Function.Basic

/-! Mixing without collisions: the operations of a hash that can be undone, and a
fold whose steps can be undone. It carries a difference in one of its inputs on to
the end. -/
namespace Support.Mixing

/- What the shifted copy adds comes from above, so the top bits are kept. -/
theorem xorShiftInjective {s : Nat} (positive : 0 < s) : Function.Injective fun x : Nat => x ^^^ (x >>> s) := by
  intro x y same
  have mixed : (x ^^^ (x >>> s)) ^^^ (y ^^^ (y >>> s)) = 0 := Nat.xor_eq_zero_iff.mpr same
  have difference : x ^^^ y = (x ^^^ y) >>> s := by
    rw [Nat.shiftRight_xor_distrib]
    apply Nat.xor_eq_zero_iff.mp
    rw [← mixed,Nat.xor_assoc,Nat.xor_assoc,← Nat.xor_assoc y,Nat.xor_comm y,Nat.xor_assoc]
  have zero : x ^^^ y = 0 := by
    by_contra nonzero
    have smaller : (x ^^^ y) / 2^s < x ^^^ y :=
      Nat.div_lt_self (Nat.pos_of_ne_zero nonzero) (Nat.one_lt_two_pow (Nat.ne_of_gt positive))
    rw [← Nat.shiftRight_eq_div_pow,← difference] at smaller
    exact Nat.lt_irrefl _ smaller
  exact Nat.xor_eq_zero_iff.mp zero

theorem oddMultiplier {m w x y : Nat} (odd : Odd m) (left : x < 2^w) (right : y < 2^w)
    (same : x*m % 2^w = y*m % 2^w) : x = y := by
  have coprime : Nat.Coprime (2^w) m := Nat.Coprime.pow_left w odd.coprime_two_left
  have congruent : x ≡ y [MOD 2^w] := Nat.ModEq.cancel_right_of_coprime coprime same
  rwa [Nat.ModEq,Nat.mod_eq_of_lt left,Nat.mod_eq_of_lt right] at congruent

section Fold

variable {σ α : Type} {step : σ → α → σ} (keyed : ∀ a, Function.Injective fun s => step s a)

include keyed

theorem foldInjective (xs : List α) : Function.Injective fun s => xs.foldl step s := by
  induction xs with
  | nil => exact Function.injective_id
  | cons a xs ih => exact ih.comp (keyed a)

/- Up to place i the states agree, and after it the rests of the lists do. -/
theorem foldApart (word : ∀ s, Function.Injective (step s)) {xs ys : List α} {i : Nat} (s : σ)
    (size : xs.length = ys.length) (different : xs[i]? ≠ ys[i]?) (elsewhere : ∀ j, j ≠ i → xs[j]? = ys[j]?) :
    xs.foldl step s ≠ ys.foldl step s := by
  induction xs generalizing ys i s with
  | nil =>
    rw [List.eq_nil_of_length_eq_zero size.symm] at different
    exact absurd rfl different
  | cons a xs ih =>
    cases ys with
    | nil => cases size
    | cons b ys =>
      cases i with
      | zero =>
        have rest : xs = ys := List.ext_getElem? fun j => elsewhere (j+1) (Nat.succ_ne_zero j)
        subst rest
        intro same
        have heads : a = b := word s (foldInjective keyed xs same)
        exact different (congrArg some heads)
      | succ i =>
        have heads : a = b := Option.some.inj (elsewhere 0 (Nat.succ_ne_zero i).symm)
        subst heads
        exact ih (step s a) (Nat.succ.inj size) different
          (fun j apart => elsewhere (j+1) (fun eq => apart (Nat.succ.inj eq)))

end Fold

end Support.Mixing
