import Mathlib.Data.Int.CardIntervalMod
import Mathlib.NumberTheory.LucasPrimality
import Mathlib.RingTheory.RootsOfUnity.PrimitiveRoots

/-! Multiplicative generators. A product is reduced modulo 2^k-1 by adding its high
part to its low part; the powers of a primitive root pass through all remainders
but zero before they repeat. -/
namespace Support.Lehmer

section Reduction

variable {k x : Nat}

theorem foldCongruent (k x : Nat) : x/2^k + x%2^k ≡ x [MOD 2^k-1] := by
  have one := Nat.two_pow_pos k
  have split := Nat.div_add_mod x (2^k)
  have parts : x = (2^k-1)*(x/2^k) + (x/2^k + x%2^k) := by
    rw [Nat.sub_mul,Nat.one_mul]
    have below : x/2^k ≤ 2^k*(x/2^k) := Nat.le_mul_of_pos_left _ one
    omega
  have dropped : (2^k-1)*(x/2^k) + (x/2^k + x%2^k) ≡ x/2^k + x%2^k [MOD 2^k-1] :=
    Nat.add_modEq_right_iff.mpr (Nat.dvd_mul_right _ _)
  rw [← parts] at dropped
  exact dropped.symm

/- One subtraction is enough, as the sum is no multiple of the modulus. -/
theorem foldReduces (small : x < 2^k*2^k) (apart : ¬ (2^k-1) ∣ x) :
    (if x/2^k + x%2^k > 2^k-1 then x/2^k + x%2^k - (2^k-1) else x/2^k + x%2^k) = x % (2^k-1) := by
  have one := Nat.two_pow_pos k
  have high : x/2^k < 2^k := Nat.div_lt_of_lt_mul small
  have low : x%2^k < 2^k := Nat.mod_lt x one
  have congruent := foldCongruent k x
  have rest : ¬ (2^k-1) ∣ x/2^k + x%2^k := fun divides => apart ((congruent.dvd_iff (dvd_refl _)).mp divides)
  have notOnce : x/2^k + x%2^k ≠ 2^k-1 := fun eq => rest (Dvd.intro 1 (by omega))
  have notTwice : x/2^k + x%2^k ≠ (2^k-1)*2 := fun eq => rest (Dvd.intro 2 eq.symm)
  rw [← congruent]
  split
  · rename_i more
    rw [Nat.mod_eq_sub_mod (Nat.le_of_lt more)]
    exact (Nat.mod_eq_of_lt (by omega)).symm
  · exact (Nat.mod_eq_of_lt (by omega)).symm

end Reduction

section Orbit

variable {p a s : Nat} [prime : Fact p.Prime] (root : IsPrimitiveRoot (a : ZMod p) (p-1))

theorem termIs (s a k : Nat) : ((s*a^k % p : Nat) : ZMod p) = (s : ZMod p)*(a : ZMod p)^k := by
  rw [ZMod.natCast_mod,Nat.cast_mul,Nat.cast_pow]

include root

theorem rootApart : ¬ p ∣ a := by
  intro divides
  have zero : (a : ZMod p) = 0 := (ZMod.natCast_eq_zero_iff a p).mpr divides
  have least := prime.out.two_le
  have unit := root.isUnit (by omega)
  rw [zero] at unit
  exact not_isUnit_zero unit

theorem termApart (start : ¬ p ∣ s) (k : Nat) : ¬ p ∣ s*a^k := by
  intro divides
  rcases prime.out.dvd_mul.mp divides with left | right
  · exact start left
  · exact rootApart root (prime.out.dvd_of_dvd_pow right)

theorem termBounds (start : ¬ p ∣ s) (k : Nat) : 1 ≤ s*a^k % p ∧ s*a^k % p ≤ p-1 := by
  have apart := termApart root start k
  have below := Nat.mod_lt (s*a^k) prime.out.pos
  rw [Nat.dvd_iff_mod_eq_zero] at apart
  omega

theorem orbitAgain (start : ¬ p ∣ s) (i j : Nat) : s*a^i % p = s*a^j % p ↔ i ≡ j [MOD p-1] := by
  have nonzero : (s : ZMod p) ≠ 0 := fun zero => start ((ZMod.natCast_eq_zero_iff s p).mp zero)
  have unit : (a : ZMod p) ≠ 0 := fun zero => rootApart root ((ZMod.natCast_eq_zero_iff a p).mp zero)
  have order : orderOf (Units.mk0 (a : ZMod p) unit) = p-1 := by
    rw [← orderOf_units]
    exact root.eq_orderOf.symm
  have powers : (a : ZMod p)^i = (a : ZMod p)^j ↔ i ≡ j [MOD p-1] := by
    rw [← order,← pow_eq_pow_iff_modEq,← Units.val_inj]
    exact Iff.rfl
  have casts : s*a^i % p = s*a^j % p ↔ ((s*a^i % p : Nat) : ZMod p) = ((s*a^j % p : Nat) : ZMod p) := by
    rw [ZMod.natCast_eq_natCast_iff',Nat.mod_mod,Nat.mod_mod]
  rw [casts,termIs,termIs,mul_right_inj' nonzero,powers]

theorem orbitRepeats (start : ¬ p ∣ s) (i : Nat) : s*a^(i+(p-1)) % p = s*a^i % p :=
  (orbitAgain root start _ _).mpr Nat.add_modEq_right

theorem orbitLeast (start : ¬ p ∣ s) {i d : Nat} (again : s*a^(i+d) % p = s*a^i % p) : p-1 ∣ d :=
  Nat.modEq_zero_iff_dvd.mp (Nat.ModEq.add_left_cancel' i ((orbitAgain root start _ _).mp again))

/- As many terms as there are remainders, and no two alike. -/
theorem orbitCovers (start : ¬ p ∣ s) {v : Nat} (positive : 1 ≤ v) (small : v ≤ p-1) :
    ∃! k, k < p-1 ∧ s*a^k % p = v := by
  have unique : ∀ i < p-1, ∀ j < p-1, s*a^i % p = s*a^j % p → i = j := by
    intro i low j low' same
    exact Nat.ModEq.eq_of_lt_of_lt ((orbitAgain root start i j).mp same) low low'
  have inside : ∀ k ∈ Finset.range (p-1), s*a^k % p ∈ Finset.Icc 1 (p-1) := by
    intro k _
    exact Finset.mem_Icc.mpr (termBounds root start k)
  have onto := Finset.surj_on_of_inj_on_of_card_le (fun k _ => s*a^k % p) inside
    (fun i j low low' same => unique i (Finset.mem_range.mp low) j (Finset.mem_range.mp low') same)
    (by rw [Nat.card_Icc,Finset.card_range]; omega) v (Finset.mem_Icc.mpr ⟨positive,small⟩)
  obtain ⟨k,low,hits⟩ := onto
  refine ⟨k,⟨Finset.mem_range.mp low,hits.symm⟩,?_⟩
  intro j also
  exact unique j also.1 k (Finset.mem_range.mp low) (also.2.trans hits)

/- A period meets a remainder once, so it meets as many with a property as there are. -/
theorem orbitCounts (start : ¬ p ∣ s) (q : Nat → Prop) [DecidablePred q] :
    ((Finset.range (p-1)).filter fun k => q (s*a^k % p)).card = ((Finset.Icc 1 (p-1)).filter q).card := by
  refine Finset.card_bij (fun k _ => s*a^k % p) ?_ ?_ ?_
  · intro k mem
    obtain ⟨_,holds⟩ := Finset.mem_filter.mp mem
    exact Finset.mem_filter.mpr ⟨Finset.mem_Icc.mpr (termBounds root start k),holds⟩
  · intro i low j low' same
    have first := Finset.mem_range.mp (Finset.mem_filter.mp low).1
    have second := Finset.mem_range.mp (Finset.mem_filter.mp low').1
    exact Nat.ModEq.eq_of_lt_of_lt ((orbitAgain root start i j).mp same) first second
  · intro v mem
    obtain ⟨bounds,holds⟩ := Finset.mem_filter.mp mem
    obtain ⟨positive,small⟩ := Finset.mem_Icc.mp bounds
    obtain ⟨k,⟨low,hits⟩,_⟩ := orbitCovers root start positive small
    refine ⟨k,Finset.mem_filter.mpr ⟨Finset.mem_range.mpr low,?_⟩,hits⟩
    rw [hits]
    exact holds

end Orbit

/- Remainders below p by their class modulo n; zero is not one of an orbit's. -/
theorem classSize {p n v : Nat} (large : 0 < p) (positive : 0 < n) (small : v < n) :
    ((Finset.Icc 1 (p-1)).filter fun x => x % n = v).card + (if v = 0 then 1 else 0) =
      p/n + if v < p % n then 1 else 0 := by
  have counted := Nat.count_modEq_card (b := p) positive v
  rw [Nat.mod_eq_of_lt small,Nat.count_eq_card_filter_range] at counted
  have class_ : ∀ x, (x ≡ v [MOD n]) ↔ x % n = v := by
    intro x
    rw [Nat.ModEq,Nat.mod_eq_of_lt small]
  simp only [class_] at counted
  have split : Finset.range p = insert 0 (Finset.Icc 1 (p-1)) := by
    ext x
    simp only [Finset.mem_range,Finset.mem_insert,Finset.mem_Icc]
    omega
  rw [← counted,split,Finset.filter_insert]
  have outside : 0 ∉ (Finset.Icc 1 (p-1)).filter (fun x => x % n = v) := by simp
  by_cases zero : v = 0
  · have here : 0 % n = v := by rw [zero,Nat.zero_mod]
    rw [if_pos here,if_pos zero,Finset.card_insert_of_notMem outside]
  · have apart : ¬ 0 % n = v := by
      rw [Nat.zero_mod]
      exact Ne.symm zero
    rw [if_neg apart,if_neg zero,Nat.add_zero]

/- Lucas's test over a list of the primes of p-1: it shows the modulus prime and the
base a primitive root. -/
theorem lucas {p a : Nat} (large : 1 < p) {primes : List Nat} (factors : primes.prod = p-1)
    (all : ∀ q ∈ primes, q.Prime) (whole : (a : ZMod p)^(p-1) = 1)
    (parts : ∀ q ∈ primes, (a : ZMod p)^((p-1)/q) ≠ 1) : p.Prime ∧ IsPrimitiveRoot (a : ZMod p) (p-1) := by
  have every : ∀ q : Nat, q.Prime → q ∣ p-1 → (a : ZMod p)^((p-1)/q) ≠ 1 := by
    intro q prime divides
    rw [← factors] at divides
    obtain ⟨f,mem,divides⟩ := (Prime.dvd_prod_iff prime.prime).mp divides
    rw [(Nat.prime_dvd_prime_iff_eq prime (all f mem)).mp divides]
    exact parts f mem
  have order : orderOf (a : ZMod p) = p-1 := orderOf_eq_of_pow_and_pow_div_prime (by omega) whole every
  exact ⟨lucas_primality p a whole every,IsPrimitiveRoot.iff_orderOf.mpr order⟩

end Support.Lehmer
