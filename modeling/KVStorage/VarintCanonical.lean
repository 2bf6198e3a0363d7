import KVStorage.CodingStream

/-! The encodings of varints: both encoders give the shortest string that the reader
takes as the value, and none begins another. -/
namespace KVStorage

open Support

theorem lengthLoopIs (v : UInt64) (len : Nat) : varintLengthLoop v (len+1) = len + (encodeVarint64 v).length := by
  fun_induction encodeVarint64 v generalizing len with
  | case1 v high ih =>
    rw [varintLengthLoop,if_pos high,ih,List.length_cons]
    omega
  | case2 v low => rw [varintLengthLoop,if_neg low,List.length_singleton]

theorem encodeVarint64Length (v : UInt64) : (encodeVarint64 v).length = varintLength v := by
  rw [varintLength,lengthLoopIs v 0,Nat.zero_add]

theorem encodersAgree (v : UInt32) : encodeVarint32 v = encodeVarint64 v.toUInt64 := by
  rw [encodeVarint32Is,encodeVarint64Is,UInt32.toNat_toUInt64]

theorem encodeVarint32Short (v : UInt32) : (encodeVarint32 v).length ≤ 5 := by
  rw [encodeVarint32Is]
  exact Base128.writeFits (Nat.lt_of_lt_of_le v.toNat_lt (by decide))

theorem encodeVarint64Short (v : UInt64) : (encodeVarint64 v).length ≤ 10 := by
  rw [encodeVarint64Is]
  exact Base128.writeFits (Nat.lt_of_lt_of_le v.toNat_lt (by decide))

/- A strict prefix of an encoding is rejected by either reader. -/
theorem strictPrefixRejected (v : UInt64) {q : Bytes} (starts : q <+: encodeVarint64 v)
    (proper : q ≠ encodeVarint64 v) : (∀ value, getVarint32Ptr q value = (none,value)) ∧
      ∀ value, getVarint64Ptr q value = (none,value) := by
  rw [encodeVarint64Is] at starts proper
  have fails := fun k => Base128.prefixFails (k := k) (Base128.writeGroup v.toNat) starts proper
  exact ⟨fun value => by rw [getVarint32PtrIs,fails],fun value => by rw [getVarint64PtrIs,fails]⟩

theorem encodingsPrefixFree (v v' : UInt64) (starts : encodeVarint64 v <+: encodeVarint64 v') : v = v' := by
  have same := starts
  rw [encodeVarint64Is,encodeVarint64Is] at same
  have equal := Base128.groupPrefixFree (Base128.writeGroup v'.toNat) (Base128.writeGroup v.toNat) same
  rw [← encodeVarint64Is,← encodeVarint64Is] at equal
  have first := varint64RoundTrip v 0 []
  rw [equal,varint64RoundTrip v' 0 []] at first
  exact (Prod.mk.inj (Prod.mk.inj first).2).2.symm

theorem shorterDecodesLess {k w v value : Nat} {t q : Bytes} {out : Option Bytes × Nat}
    (is : out = match Base128.read k t with
      | some (n,q) => (some q,n % 2^w)
      | none => (none,value))
    (shorter : t.length < (Base128.write v).length) (read : out.1 = some q) : out.2 < v := by
  obtain ⟨n,done,value'⟩ := decodedSome is read
  rw [value']
  exact Nat.lt_of_le_of_lt (Nat.mod_le n (2^w)) (Base128.shorterReadsLess shorter done)

theorem shorterDecodesLess32 (v value : UInt32) {t q : Bytes} (shorter : t.length < (encodeVarint32 v).length)
    (read : (getVarint32Ptr t value).1 = some q) : (getVarint32Ptr t value).2 < v := by
  rw [encodeVarint32Is] at shorter
  exact UInt32.lt_iff_toNat_lt.mpr (shorterDecodesLess (decodes32 t value) shorter read)

theorem shorterDecodesLess64 (v value : UInt64) {t q : Bytes} (shorter : t.length < (encodeVarint64 v).length)
    (read : (getVarint64Ptr t value).1 = some q) : (getVarint64Ptr t value).2 < v := by
  rw [encodeVarint64Is] at shorter
  exact UInt64.lt_iff_toNat_lt.mpr (shorterDecodesLess (decodes64 t value) shorter read)

/- Every byte but the last has its high bit set. -/
def Flagged (code : Bytes) : Prop :=
  ∃ front last, code = front ++ [last] ∧ (∀ b ∈ front, 128 ≤ b.toNat) ∧ last.toNat < 128

theorem varintsCanonical :
    (∀ v : UInt32, encodeVarint32 v = encodeVarint64 v.toUInt64 ∧ (encodeVarint32 v).length ≤ 5) ∧
    (∀ v : UInt64, (encodeVarint64 v).length = varintLength v ∧ varintLength v ≤ 10) ∧
    (∀ v : UInt32, Flagged (encodeVarint32 v)) ∧ (∀ v : UInt64, Flagged (encodeVarint64 v)) ∧
    (∀ (v : UInt64) (q : Bytes), q <+: encodeVarint64 v → q ≠ encodeVarint64 v →
      (∀ value, getVarint32Ptr q value = (none,value)) ∧ ∀ value, getVarint64Ptr q value = (none,value)) ∧
    (∀ v v' : UInt64, encodeVarint64 v <+: encodeVarint64 v' → v = v') ∧
    (∀ (v value : UInt32) (t q : Bytes), t.length < (encodeVarint32 v).length →
      (getVarint32Ptr t value).1 = some q → (getVarint32Ptr t value).2 ≠ v) ∧
    ∀ (v value : UInt64) (t q : Bytes), t.length < (encodeVarint64 v).length →
      (getVarint64Ptr t value).1 = some q → (getVarint64Ptr t value).2 ≠ v := by
  have flagged64 : ∀ v : UInt64, Flagged (encodeVarint64 v) := by
    intro v
    rw [encodeVarint64Is]
    exact Base128.groupSplits (Base128.writeGroup v.toNat)
  have flagged32 : ∀ v : UInt32, Flagged (encodeVarint32 v) := by
    intro v
    rw [encodersAgree]
    exact flagged64 v.toUInt64
  have lengths : ∀ v : UInt64, (encodeVarint64 v).length = varintLength v ∧ varintLength v ≤ 10 := by
    intro v
    exact ⟨encodeVarint64Length v,encodeVarint64Length v ▸ encodeVarint64Short v⟩
  exact ⟨fun v => ⟨encodersAgree v,encodeVarint32Short v⟩,lengths,flagged32,flagged64,
    fun v _ starts proper => strictPrefixRejected v starts proper,encodingsPrefixFree,
    fun v value _ _ shorter read => UInt32.ne_of_lt (shorterDecodesLess32 v value shorter read),
    fun v value _ _ shorter read => UInt64.ne_of_lt (shorterDecodesLess64 v value shorter read)⟩

end KVStorage
