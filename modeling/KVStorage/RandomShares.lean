import KVStorage.RandomPeriod
import KVStorage.SkipList

/-! How often each answer comes in a period of the generator: uniform is as even as
the missing zero allows, and oneIn and the first step of randomHeight hit their
share. -/
namespace KVStorage.Random

open Support

/- The draws of a period that starts at r. -/
def draws (r : Random) (q : Random → Bool) : Finset Nat :=
  (Finset.range (2^31-2)).filter fun k => q (calls r k)

section Draws

variable {r : Random}

theorem divisorPositive {n : Int32} (positive : 0 < n) : 0 < n.toUInt32.toNat := by
  refine Nat.pos_of_ne_zero ?_
  intro zero
  have word : n.toUInt32 = 0 := UInt32.toNat_inj.mp zero
  have none : n = 0 := congrArg Int32.ofUInt32 word
  subst none
  exact absurd positive (by decide)

theorem roundedUp (n : Nat) :
    ((2^31-1)/n + if 0 < (2^31-1) % n then 1 else 0) = (2^31-2)/n + 1 := by
  have step : (2^31-2+1)/n = (2^31-2)/n + if n ∣ 2^31-2+1 then 1 else 0 := Nat.succ_div
  have next : 2^31-2+1 = 2^31-1 := rfl
  rw [next] at step
  rw [step]
  by_cases divides : n ∣ 2^31-1
  · have zero := Nat.mod_eq_zero_of_dvd divides
    rw [if_pos divides,if_neg (by omega)]
  · have rest := Nat.pos_of_ne_zero (fun zero => divides (Nat.dvd_of_mod_eq_zero zero))
    rw [if_neg divides,if_pos rest]

/- What a call draws is a term of the orbit of the state before the period. -/
theorem drawIs (valid : Valid r) (k : Nat) :
    (calls r k).next.1.toNat = (r.seed_.toNat*16807)*16807^k % 2147483647 := by
  have value := outputValue valid k
  rw [Nat.pow_succ',← Nat.mul_assoc] at value
  exact value

theorem drawsClass (valid : Valid r) {n v : Nat} (positive : 0 < n) (small : v < n) {q : Random → Bool}
    (same : ∀ s, q s = true ↔ s.next.1.toNat % n = v) :
    (draws r q).card + (if v = 0 then 1 else 0) = (2^31-1)/n + if v < (2^31-1) % n then 1 else 0 := by
  have start : ¬ 2147483647 ∣ r.seed_.toNat*16807 := by
    have apart := Lehmer.termApart modulusPrime.2 (seedApart valid) 1
    rwa [Nat.pow_one] at apart
  have counted := Lehmer.orbitCounts modulusPrime.2 start (fun x => x % n = v)
  have drawn : draws r q = (Finset.range (2147483647-1)).filter
      fun k => (r.seed_.toNat*16807)*16807^k % 2147483647 % n = v := by
    refine Finset.filter_congr ?_
    intro k _
    rw [same,drawIs valid]
  rw [drawn,counted]
  exact Lehmer.classSize (by decide) positive small

theorem uniformIs (r : Random) (n : Int32) : (r.uniform n).1.toNat = r.next.1.toNat % n.toUInt32.toNat :=
  UInt32.toNat_mod ..

theorem oneInIff (r : Random) {n : UInt32} : (r.oneIn n).1 = true ↔ r.next.1.toNat % n.toNat = 0 := by
  have rest : (r.next.1 % n).toNat = r.next.1.toNat % n.toNat := UInt32.toNat_mod ..
  rw [← rest]
  unfold oneIn
  simp only [beq_iff_eq]
  exact UInt32.toNat_inj.symm

/- randomHeight passes one where its first draw does. -/
theorem heightMore (r : Random) : 1 < (SkipList.randomHeight r).1 ↔ (r.oneIn 4).1 = true := by
  have more := (SkipList.raiseHeightBounds 2 10 (r.oneIn 4).2).1
  have unfolded : SkipList.randomHeight r =
      if (r.oneIn 4).1 then SkipList.raiseHeight 2 10 (r.oneIn 4).2 else (1,(r.oneIn 4).2) := rfl
  rw [unfolded]
  cases hit : (r.oneIn 4).1 with
  | true =>
    simp only [if_true,iff_true]
    omega
  | false => simp

end Draws

/-- In every 2^31-2 calls in a row, from any state, uniform(n) gives two values as
often but for one, oneIn(n) holds for the exact share 1/n, rounded down, and one in
four of the states, rounded down, makes a node higher than one level. -/
theorem evenDraws {r : Random} (reached : Reached r) :
    (∀ n : Int32, 0 < n → ∀ v, v < n.toUInt32.toNat →
      (draws r fun s => decide ((s.uniform n).1.toNat = v)).card + (if v = 0 then 1 else 0) =
        (2^31-1)/n.toUInt32.toNat + if v < (2^31-1) % n.toUInt32.toNat then 1 else 0) ∧
    (∀ n : UInt32, 0 < n → (draws r fun s => (s.oneIn n).1).card = (2^31-2)/n.toNat) ∧
    (draws r fun s => decide (1 < (SkipList.randomHeight s).1)).card = (2^31-2)/4 := by
  have valid := reachedValid reached
  have shares : ∀ n : UInt32, 0 < n → (draws r fun s => (s.oneIn n).1).card = (2^31-2)/n.toNat := by
    intro n positive
    have above : 0 < n.toNat := UInt32.lt_iff_toNat_lt.mp positive
    have counted := drawsClass valid above above (q := fun s => (s.oneIn n).1) (fun s => oneInIff s)
    rw [if_pos rfl,roundedUp] at counted
    exact Nat.add_right_cancel counted
  have heights : (draws r fun s => decide (1 < (SkipList.randomHeight s).1)) = draws r fun s => (s.oneIn 4).1 := by
    refine Finset.filter_congr ?_
    intro k _
    rw [decide_eq_true_iff,heightMore]
  refine ⟨?_,shares,?_⟩
  · intro n positive v small
    refine drawsClass valid (divisorPositive positive) small ?_
    intro s
    rw [decide_eq_true_iff,uniformIs]
  · rw [heights]
    exact shares 4 (by decide)

theorem evenDrawsStart : (draws (Random.new 301) fun s => (s.oneIn 4000).1).card = (2^31-2)/(4000 : UInt32).toNat ∧
    (draws (Random.new 301) fun s => decide (1 < (SkipList.randomHeight s).1)).card = (2^31-2)/4 := by
  obtain ⟨_,shares,heights⟩ := evenDraws (.new 301)
  exact ⟨shares 4000 (by decide),heights⟩

end KVStorage.Random
