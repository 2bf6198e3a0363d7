import KVStorage.VarintGrammar

/-! When a varint reader gives the number its bytes stand for. The loop counts bytes
only, so the last byte that it takes may have bits above the end of the word. -/
namespace KVStorage

open Support

/- After k bytes that go on comes one that ends the number, with top or more in it. -/
def Drops (k top : Nat) (p : Bytes) : Prop :=
  (∀ b ∈ p.take k, 128 ≤ b.toNat) ∧ ∃ b, p[k]? = some b ∧ top ≤ b.toNat ∧ b.toNat < 128

/- What is read is what the bytes stand for, and a number past the word is refused. -/
structure Exact32 (p : Bytes) : Prop where
  value : ∀ value q, (getVarint32Ptr p value).1 = some q →
    ∃ group, p = group ++ q ∧ (getVarint32Ptr p value).2.toNat = sevenBits group
  refuses : ∀ group q, Base128.Group group → p = group ++ q → 2^32 ≤ sevenBits group →
    ∀ value result, (getVarint32 p value).1 = false ∧ (getLengthPrefixedSlice p result).1 = false

structure Exact64 (p : Bytes) : Prop where
  value : ∀ value q, (getVarint64Ptr p value).1 = some q →
    ∃ group, p = group ++ q ∧ (getVarint64Ptr p value).2.toNat = sevenBits group
  refuses : ∀ group q, Base128.Group group → p = group ++ q → 2^64 ≤ sevenBits group →
    ∀ value, (getVarint64 p value).1 = false

theorem dropsGroup {k top : Nat} {p : Bytes} (drops : Drops k top p) :
    ∃ group q, Base128.Group group ∧ group.length = k+1 ∧ p = group ++ q := by
  obtain ⟨highs,b,ends,_,low⟩ := drops
  obtain ⟨inside,rfl⟩ := List.getElem?_eq_some_iff.mp ends
  have front : (p.take k).length = k := List.length_take_of_le (Nat.le_of_lt inside)
  have size : (p.take k ++ [p[k]]).length = k+1 := by rw [List.length_append,front,List.length_singleton]
  have split : p = p.take k ++ [p[k]] ++ p.drop (k+1) := by
    rw [List.append_assoc,List.singleton_append,List.getElem_cons_drop,List.take_append_drop]
  exact ⟨_,_,Base128.groupJoins highs low,size,split⟩

section Words

variable {k top w : Nat} (power : top*128^k = 2^w) {p : Bytes}

include power

/- The bytes before the last stay below 128^k. -/
theorem groupOverflows {group : Bytes} (grouped : Base128.Group group) (fits : group.length ≤ k+1) (q : Bytes) :
    2^w ≤ Base128.number group ↔ Drops k top (group ++ q) := by
  obtain ⟨front,last,rfl,highs,low⟩ := Base128.groupSplits grouped
  have below := Base128.numberBelow front
  have digit : last.toNat % 128 = last.toNat := Nat.mod_eq_of_lt low
  rw [List.length_append,List.length_singleton] at fits
  rw [Base128.numberSnoc,digit,← power]
  rcases Nat.lt_or_eq_of_le (Nat.le_of_succ_le_succ fits) with shorter | full
  · have positive : 1 ≤ top := by
      by_contra zero
      have zero' : top = 0 := by omega
      rw [zero',Nat.zero_mul] at power
      exact absurd power.symm (Nat.ne_of_gt (Nat.two_pow_pos w))
    have small := Base128.numberBelow (front ++ [last])
    rw [Base128.numberSnoc,digit,List.length_append,List.length_singleton] at small
    have wider : 128^(front.length+1) ≤ top*128^k :=
      Nat.le_trans (Nat.pow_le_pow_right (by decide) shorter) (Nat.le_mul_of_pos_left _ positive)
    have member : last ∈ (front ++ [last] ++ q).take k := by
      have starts : front ++ [last] <+: (front ++ [last] ++ q).take k :=
        List.prefix_take_iff.mpr ⟨List.prefix_append _ _,by simpa using shorter⟩
      exact starts.subset List.mem_concat_self
    constructor
    · intro large
      omega
    · intro drops
      exact absurd (drops.1 last member) (Nat.not_le.mpr low)
  · subst full
    have front' : (front ++ [last] ++ q).take front.length = front := by simp
    have last' : (front ++ [last] ++ q)[front.length]? = some last := by simp
    rw [Drops,front',last']
    constructor
    · intro large
      have less : top*128^front.length < (last.toNat+1)*128^front.length := by
        rw [Nat.add_mul,Nat.one_mul]
        omega
      exact ⟨highs,last,rfl,Nat.le_of_lt_succ (Nat.lt_of_mul_lt_mul_right less),low⟩
    · intro ⟨_,b,eq,enough,_⟩
      cases eq
      exact Nat.le_trans (Nat.mul_le_mul_right _ enough) (Nat.le_add_left _ _)

theorem readExact {n : Nat} {q : Bytes} (done : Base128.read (k+1) p = some (n,q)) : n < 2^w ↔ ¬ Drops k top p := by
  obtain ⟨group,grouped,fits,split,rfl⟩ := Base128.readTakes done
  rw [split,← groupOverflows power grouped fits q,Nat.not_le]

variable {value : Nat} {out : Option Bytes × Nat} (is : out = match Base128.read (k+1) p with
  | some (n,q) => (some q,n % 2^w)
  | none => (none,value))

include is

theorem exactValue : (∀ q, out.1 = some q → ∃ group, p = group ++ q ∧ out.2 = sevenBits group) ↔
    ¬ Drops k top p := by
  constructor
  · intro exactly drops
    obtain ⟨group,q,grouped,size,split⟩ := dropsGroup drops
    have done := Base128.readGroup grouped q (Nat.le_of_eq size)
    rw [← split] at done
    rw [done] at is
    obtain ⟨group',split',value'⟩ := exactly q (by rw [is])
    have same : group = group' := List.append_cancel_right (split.symm.trans split')
    have cut : Base128.number group % 2^w < 2^w := Nat.mod_lt _ (Nat.two_pow_pos w)
    rw [is,← same,← numberIs] at value'
    have kept : Base128.number group % 2^w = Base128.number group := value'
    rw [kept] at cut
    exact (readExact power done).mp cut drops
  · intro whole q eq
    obtain ⟨n,done,value'⟩ := decodedSome is eq
    have fits := (readExact power done).mpr whole
    obtain ⟨group,_,_,split,number⟩ := Base128.readTakes done
    refine ⟨group,split,?_⟩
    rw [value',← numberIs,← number]
    exact Nat.mod_eq_of_lt fits

theorem exactRefuses (whole : ¬ Drops k top p) {group q : Bytes} (grouped : Base128.Group group)
    (split : p = group ++ q) (large : 2^w ≤ sevenBits group) : out.1 = none := by
  cases read : out.1 with
  | none => rfl
  | some q' =>
    obtain ⟨n,done,_⟩ := decodedSome is read
    have fits := (readExact power done).mpr whole
    obtain ⟨group',grouped',_,split',number⟩ := Base128.readTakes done
    have same : group = group' := Base128.groupUnique grouped grouped' (split.symm.trans split')
    rw [same,← numberIs,← number] at large
    exact absurd fits (Nat.not_lt.mpr large)

end Words

theorem movesRefused {α : Type} {input : Bytes} {value : α} {read : Option Bytes × α} {out : Bool × Bytes × α}
    (moves : Moves input value read out) (stops : read.1 = none) : out.1 = false := by
  rcases moves with ⟨q,taken,_⟩ | ⟨_,kept⟩
  · rw [stops] at taken
    cases taken
  · rw [kept]

theorem exact32 (p : Bytes) : Exact32 p ↔ ¬ Drops 4 16 p := by
  have power : 16*128^4 = 2^32 := by decide
  constructor
  · intro exactly
    exact (exactValue power (decodes32 p 0)).mp fun q read => exactly.value 0 q read
  · intro whole
    refine ⟨fun value => (exactValue power (decodes32 p value)).mpr whole,?_⟩
    intro group q grouped split large value result
    have refused : ∀ value, (getVarint32 p value).1 = false := fun value =>
      movesRefused (moves32 p value) (exactRefuses power (decodes32 p value) whole grouped split large)
    refine ⟨refused value,?_⟩
    by_contra accepted
    obtain ⟨q',len,read,_⟩ := (slicePrefixReads p result).1.mp (Bool.eq_true_of_not_eq_false accepted)
    have also := refused 0
    rw [read] at also
    cases also

theorem exact64 (p : Bytes) : Exact64 p ↔ ¬ Drops 9 2 p := by
  have power : 2*128^9 = 2^64 := by decide
  constructor
  · intro exactly
    exact (exactValue power (decodes64 p 0)).mp fun q read => exactly.value 0 q read
  · intro whole
    refine ⟨fun value => (exactValue power (decodes64 p value)).mpr whole,?_⟩
    intro group q grouped split large value
    exact movesRefused (moves64 p value) (exactRefuses power (decodes64 p value) whole grouped split large)

theorem varintExact (p : Bytes) : (Exact32 p ↔ ¬ Drops 4 16 p) ∧ (Exact64 p ↔ ¬ Drops 9 2 p) :=
  ⟨exact32 p,exact64 p⟩

/- Both are taken as 0, and the first of them as the length of an empty slice. -/
theorem varintDropsBits : ¬ Exact32 [128,128,128,128,16] ∧
    ¬ Exact64 [128,128,128,128,128,128,128,128,128,2] := by
  have high : 128 ≤ (128 : UInt8).toNat := Nat.le_refl 128
  have four : ∀ {g : Bytes}, Base128.Group g → Base128.Group (128::128::128::128::g) :=
    fun group => .more high (.more high (.more high (.more high group)))
  constructor
  · intro exactly
    have refused := exactly.refuses _ [] (four (.last (by decide : (16 : UInt8).toNat < 128))) rfl (by decide) 0 []
    exact absurd refused (by decide)
  · intro exactly
    have group := four (four (.more high (.last (by decide : (2 : UInt8).toNat < 128))))
    have refused := exactly.refuses _ [] group rfl (by decide) 0
    exact absurd refused (by decide)

end KVStorage
