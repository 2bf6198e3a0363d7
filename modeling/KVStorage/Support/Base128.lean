import Mathlib.Data.Nat.Bitwise
import Mathlib.Data.Nat.Digits.Defs

/-! Numbers in base 128, low digit first. Every byte but the last has its high
bit set; a reader takes at most a given number of bytes. The groups that a reader
takes form a prefix code, and a writer gives the shortest group of its number. -/
namespace Support.Base128

def continued (n : Nat) : UInt8 := UInt8.ofNat (n % 128 + 128)

def write (n : Nat) : List UInt8 :=
  if n < 128 then [UInt8.ofNat n] else continued n::write (n / 128)

def read : Nat → List UInt8 → Option (Nat × List UInt8)
  | 0, _ => none
  | _, [] => none
  | k+1, b::p =>
    if b.toNat < 128 then some (b.toNat,p)
    else (read k p).map (fun r => (b.toNat % 128 + 128 * r.1,r.2))

theorem writeSmall {n : Nat} (small : n < 128) : write n = [UInt8.ofNat n] := by
  unfold write
  exact if_pos small

theorem writeLarge {n : Nat} (large : ¬ n < 128) : write n = continued n::write (n / 128) := by
  rw [write,if_neg large]

theorem readCons (k : Nat) (b : UInt8) (p : List UInt8) : read (k+1) (b::p) =
    if b.toNat < 128 then some (b.toNat,p)
    else (read k p).map (fun r => (b.toNat % 128 + 128 * r.1,r.2)) := rfl

theorem continuedToNat (n : Nat) : (continued n).toNat = n % 128 + 128 := by
  have low : n % 128 + 128 < 2^8 := by omega
  rw [continued,UInt8.toNat_ofNat',Nat.mod_eq_of_lt low]

/- How an encoder sets the high bit of a low byte. -/
theorem flagged (n : Nat) : n % 256 ||| 128 = n % 128 + 128 := by
  have bytes : ∀ x < 256, x ||| 128 = x % 128 + 128 := by decide +kernel
  rw [bytes _ (by omega)]
  omega

/- A string whose last byte, and no other, has its high bit clear. -/
inductive Group : List UInt8 → Prop where
  | last {b : UInt8} (low : b.toNat < 128) : Group [b]
  | more {b : UInt8} {p : List UInt8} (high : 128 ≤ b.toNat) (tail : Group p) : Group (b::p)

def number (p : List UInt8) : Nat := Nat.ofDigits 128 (p.map fun b => b.toNat % 128)

theorem numberCons (b : UInt8) (p : List UInt8) : number (b::p) = b.toNat % 128 + 128 * number p :=
  Nat.ofDigits_cons ..

theorem numberSingleton {b : UInt8} (low : b.toNat < 128) : number [b] = b.toNat := by
  rw [numberCons,Nat.mod_eq_of_lt low]
  rfl

theorem numberBelow (p : List UInt8) : number p < 128^p.length := by
  have digits : ∀ d ∈ p.map (fun b => b.toNat % 128), d < 128 := by
    intro d mem
    obtain ⟨b,_,eq⟩ := List.mem_map.mp mem
    omega
  have below := Nat.ofDigits_lt_base_pow_length (b := 128) (by decide) digits
  rwa [List.length_map] at below

theorem numberSnoc (p : List UInt8) (b : UInt8) :
    number (p ++ [b]) = number p + b.toNat % 128 * 128^p.length := by
  rw [number,List.map_append,Nat.ofDigits_append,List.length_map,List.map_singleton,Nat.ofDigits_singleton,
    Nat.mul_comm]
  rfl

section Groups

variable {g q p : List UInt8} {k n : Nat}

theorem groupNonempty (group : Group g) : 0 < g.length := by cases group <;> exact Nat.succ_pos _

/- Every group is a row of high bytes and one low byte. -/
theorem groupSplits (group : Group g) :
    ∃ front last, g = front ++ [last] ∧ (∀ b ∈ front, 128 ≤ b.toNat) ∧ last.toNat < 128 := by
  induction group with
  | @last b low => exact ⟨[],b,rfl,nofun,low⟩
  | @more b p high tail ih =>
    obtain ⟨front,last,split,highs,low⟩ := ih
    have all : ∀ c ∈ b::front, 128 ≤ c.toNat := List.forall_mem_cons.mpr ⟨high,highs⟩
    exact ⟨b::front,last,by rw [split,List.cons_append],all,low⟩

theorem groupJoins {front : List UInt8} {last : UInt8} (highs : ∀ b ∈ front, 128 ≤ b.toNat)
    (low : last.toNat < 128) : Group (front ++ [last]) := by
  induction front with
  | nil => exact .last low
  | cons b front ih =>
    obtain ⟨high,rest⟩ := List.forall_mem_cons.mp highs
    exact .more high (ih rest)

theorem readGroup (group : Group g) (rest : List UInt8) (fits : g.length ≤ k) :
    read k (g ++ rest) = some (number g,rest) := by
  induction group generalizing k with
  | @last b low =>
    obtain ⟨k,rfl⟩ : ∃ j, k = j+1 := ⟨k-1,by simp only [List.length_singleton] at fits; omega⟩
    rw [List.singleton_append,readCons,if_pos low,numberSingleton low]
  | @more b p high tail ih =>
    obtain ⟨k,rfl⟩ : ∃ j, k = j+1 := ⟨k-1,by simp only [List.length_cons] at fits; omega⟩
    have shorter : p.length ≤ k := Nat.le_of_succ_le_succ fits
    rw [List.cons_append,readCons,if_neg (Nat.not_lt.mpr high),ih shorter,Option.map_some,numberCons]

theorem readTakes {rest : List UInt8} (done : read k p = some (n,rest)) :
    ∃ g, Group g ∧ g.length ≤ k ∧ p = g ++ rest ∧ n = number g := by
  induction k generalizing p n with
  | zero => cases done
  | succ k ih =>
    cases p with
    | nil => cases done
    | cons b p =>
      rw [readCons] at done
      by_cases low : b.toNat < 128
      · rw [if_pos low] at done
        cases done
        exact ⟨[b],.last low,Nat.succ_le_succ (Nat.zero_le k),rfl,(numberSingleton low).symm⟩
      · rw [if_neg low] at done
        obtain ⟨⟨m,left⟩,tail,eq⟩ := Option.map_eq_some_iff.mp done
        cases eq
        obtain ⟨g,group,fits,split,value⟩ := ih tail
        have whole : Group (b::g) := .more (Nat.not_lt.mp low) group
        exact ⟨b::g,whole,Nat.succ_le_succ fits,by rw [split,List.cons_append],by rw [numberCons,value]⟩

theorem readFails : read k p = none ↔ ∀ b ∈ p.take k, 128 ≤ b.toNat := by
  induction k generalizing p with
  | zero => simp [read]
  | succ k ih =>
    cases p with
    | nil => simp [read]
    | cons b p =>
      rw [readCons,List.take_succ_cons,List.forall_mem_cons]
      by_cases low : b.toNat < 128
      · rw [if_pos low]
        exact ⟨nofun,fun all => absurd low (Nat.not_lt.mpr all.1)⟩
      · rw [if_neg low,Option.map_eq_none_iff,ih]
        exact ⟨fun rest => ⟨Nat.not_lt.mp low,rest⟩,And.right⟩

/- Before its end a group has high bytes only, so no group begins another. -/
theorem properPrefixHigh (group : Group g) (starts : q <+: g) (proper : q ≠ g) : ∀ b ∈ q, 128 ≤ b.toNat := by
  induction group generalizing q with
  | last low =>
    cases q with
    | nil => exact nofun
    | cons c q =>
      obtain ⟨same,short⟩ := List.cons_prefix_cons.mp starts
      exact absurd (by rw [same,List.prefix_nil.mp short]) proper
  | more high tail ih =>
    cases q with
    | nil => exact nofun
    | cons c q =>
      obtain ⟨same,starts'⟩ := List.cons_prefix_cons.mp starts
      subst same
      exact List.forall_mem_cons.mpr ⟨high,ih starts' fun eq => proper (by rw [eq])⟩

theorem groupPrefixFree (group : Group g) (group' : Group q) (starts : q <+: g) : q = g := by
  refine Decidable.byContradiction fun proper => ?_
  obtain ⟨front,last,split,_,low⟩ := groupSplits group'
  have high := properPrefixHigh group starts proper last (by rw [split]; exact List.mem_concat_self)
  omega

theorem groupUnique {g' q' : List UInt8} (group : Group g) (group' : Group g') (same : g ++ q = g' ++ q') :
    g = g' := by
  rcases List.prefix_or_prefix_of_prefix (List.prefix_append g q) (same ▸ List.prefix_append g' q') with left | right
  · exact groupPrefixFree group' group left
  · exact (groupPrefixFree group group' right).symm

theorem prefixFails (group : Group g) (starts : q <+: g) (proper : q ≠ g) : read k q = none :=
  readFails.mpr fun b mem => properPrefixHigh group starts proper b (List.mem_of_mem_take mem)

end Groups

theorem writeGroup (n : Nat) : Group (write n) := by
  induction n using Nat.strongRecOn with
  | ind n ih =>
    by_cases small : n < 128
    · rw [writeSmall small]
      exact .last (by rw [UInt8.toNat_ofNat',Nat.mod_eq_of_lt (by omega)]; exact small)
    · rw [writeLarge small]
      exact .more (by rw [continuedToNat]; omega) (ih (n / 128) (by omega))

theorem writeNumber (n : Nat) : number (write n) = n := by
  induction n using Nat.strongRecOn with
  | ind n ih =>
    by_cases small : n < 128
    · have byte : (UInt8.ofNat n).toNat = n := by
        rw [UInt8.toNat_ofNat',Nat.mod_eq_of_lt (by omega)]
      rw [writeSmall small,numberSingleton (by rw [byte]; exact small),byte]
    · rw [writeLarge small,numberCons,ih (n / 128) (by omega),continuedToNat]
      omega

/- A number has no fewer digits than its group has bytes. -/
theorem writeLeast {n : Nat} (positive : 0 < n) : 128^((write n).length - 1) ≤ n := by
  induction n using Nat.strongRecOn with
  | ind n ih =>
    by_cases small : n < 128
    · rw [writeSmall small]
      exact positive
    · have tail := ih (n / 128) (by omega) (by omega)
      have nonempty := groupNonempty (writeGroup (n / 128))
      have length : (write n).length - 1 = (write (n / 128)).length - 1 + 1 := by
        rw [writeLarge small,List.length_cons]
        omega
      rw [length,Nat.pow_succ]
      omega

theorem writeFits {n k : Nat} (fits : n < 128^(k+1)) : (write n).length ≤ k+1 := by
  rcases Nat.eq_zero_or_pos n with zero | positive
  · subst zero
    rw [writeSmall (by decide)]
    exact Nat.succ_le_succ (Nat.zero_le k)
  · have least := Nat.lt_of_le_of_lt (writeLeast positive) fits
    have fewer := (Nat.pow_lt_pow_iff_right (by decide)).mp least
    omega

theorem readWrite {n k : Nat} (rest : List UInt8) (fits : n < 128^(k+1)) :
    read (k+1) (write n ++ rest) = some (n,rest) := by
  have back := readGroup (writeGroup n) rest (writeFits fits)
  rwa [writeNumber] at back

/- A shorter string is read as a smaller number, if it is read at all. -/
theorem shorterReadsLess {n m k : Nat} {p rest : List UInt8} (shorter : p.length < (write n).length)
    (done : read k p = some (m,rest)) : m < n := by
  obtain ⟨g,group,_,split,value⟩ := readTakes done
  have sizes := congrArg List.length split
  rw [List.length_append] at sizes
  have nonempty := groupNonempty group
  have positive : 0 < n := by
    refine Nat.pos_of_ne_zero fun zero => ?_
    rw [zero,writeSmall (by decide),List.length_singleton] at shorter
    omega
  calc m = number g := value
    _ < 128^g.length := numberBelow g
    _ ≤ 128^((write n).length - 1) := Nat.pow_le_pow_right (by decide) (by omega)
    _ ≤ n := writeLeast positive

end Support.Base128
