import KVStorage.LookupKeyBuffer
import KVStorage.VarintGrammar

/-! Length prefixes: what a failed GetLengthPrefixedSlice leaves behind, and for which
lengths the prefix says how many bytes follow. -/
namespace KVStorage

open Support

/- A length that can be read, with fewer bytes behind it. -/
def Short (p : Bytes) : Prop :=
  ∃ group q, Base128.Group group ∧ group.length ≤ 5 ∧ p = group ++ q ∧ q.length < sevenBits group % 2^32

/- A call that fails leaves both slices as they were. -/
def Atomic (p : Bytes) : Prop :=
  ∀ result, (getLengthPrefixedSlice p result).1 = false → (getLengthPrefixedSlice p result).2 = (p,result)

theorem sliceIs (p result : Bytes) : getLengthPrefixedSlice p result =
    match Base128.read 5 p with
    | some (n,q) => if n % 2^32 ≤ q.length then (true,q.drop (n % 2^32),q.take (n % 2^32)) else (false,q,result)
    | none => (false,p,result) := by
  unfold getLengthPrefixedSlice getVarint32
  rw [getVarint32PtrIs]
  cases Base128.read 5 p with
  | none => rfl
  | some r => simp only [UInt32.toNat_ofNat',ge_iff_le]

theorem shortIff (p : Bytes) : Short p ↔ ∃ n q, Base128.read 5 p = some (n,q) ∧ q.length < n % 2^32 := by
  constructor
  · intro ⟨group,q,grouped,fits,split,few⟩
    have done := Base128.readGroup grouped q fits
    rw [← split,numberIs] at done
    exact ⟨_,q,done,few⟩
  · intro ⟨n,q,done,few⟩
    obtain ⟨group,grouped,fits,split,number⟩ := Base128.readTakes done
    exact ⟨group,q,grouped,fits,split,by rwa [← numberIs,← number]⟩

theorem sliceAtomic (p : Bytes) :
    (∀ result, (getLengthPrefixedSlice p result).1 = false → (getLengthPrefixedSlice p result).2.2 = result) ∧
    (Atomic p ↔ ¬ Short p) := by
  rw [Atomic,shortIff]
  simp only [sliceIs]
  cases done : Base128.read 5 p with
  | none =>
    refine ⟨fun _ _ => rfl,fun _ => ?_,fun _ _ _ => rfl⟩
    intro ⟨_,_,eq,_⟩
    cases eq
  | some r =>
    obtain ⟨n,q⟩ := r
    obtain ⟨group,grouped,_,split,_⟩ := Base128.readTakes done
    have moved : q ≠ p := by
      intro same
      have sizes := congrArg List.length split
      have positive := Base128.groupNonempty grouped
      rw [List.length_append,← same] at sizes
      omega
    by_cases enough : n % 2^32 ≤ q.length
    · simp only [if_pos enough]
      refine ⟨nofun,fun _ => ?_,nofun⟩
      intro ⟨_,_,eq,few⟩
      cases eq
      omega
    · simp only [if_neg enough]
      refine ⟨fun _ _ => trivial,fun atomic => ?_,fun long => ?_⟩
      · exact absurd (Prod.mk.inj (atomic [] trivial)).1 moved
      · exact absurd ⟨n,q,rfl,Nat.not_le.mp enough⟩ long

/- The length 5 is read, and the byte before the one that is left is gone. -/
theorem sliceMovesInput : ¬ Atomic [5,97] := fun atomic => absurd (atomic [] (by decide)) (by decide)

/- The prefix that is appended is the length of what follows it, for any reader. -/
def Prefixed (v : Bytes) : Prop :=
  ∀ dst rest, ∃ encoded, putLengthPrefixedSlice dst v = dst ++ encoded ∧
    (∀ value, ∃ len, getVarint32 (encoded ++ rest) value = (true,v ++ rest,len) ∧ len.toNat = v.length) ∧
    ∀ result, getLengthPrefixedSlice (encoded ++ rest) result = (true,rest,v)

def KeyPrefixed (u : Bytes) (s : SequenceNumber) : Prop :=
  ∃ l, LookupKey.new u s = some l ∧
    (∀ value, ∃ len, getVarint32 l.memtableKey value = (true,l.internalKey,len) ∧
      len.toNat = l.internalKey.length) ∧
    ∀ result, getLengthPrefixedSlice l.memtableKey result = (true,[],l.internalKey)

theorem prefixRead (n : Nat) (rest : Bytes) (value : UInt32) :
    (∃ len, getVarint32 (encodeVarint32 (UInt32.ofNat n) ++ rest) value = (true,rest,len) ∧ len.toNat = n) ↔
      n < 2^32 := by
  rw [varint32RoundTrip]
  constructor
  · intro ⟨len,_,exactly⟩
    rw [← exactly]
    exact len.toNat_lt
  · intro fits
    exact ⟨_,rfl,UInt32.toNat_ofNat_of_lt' fits⟩

theorem putPrefixed (v : Bytes) : Prefixed v ↔ v.length < 2^32 := by
  constructor
  · intro prefixed
    obtain ⟨encoded,appended,reads,_⟩ := prefixed [] []
    have same : encoded = encodeVarint32 (UInt32.ofNat v.length) ++ v := appended.symm
    have read := reads 0
    rw [List.append_nil,List.append_nil,same] at read
    exact (prefixRead v.length v 0).mp read
  · intro fits dst rest
    refine ⟨putLengthPrefixedSlice [] v,List.append_assoc ..,?_,fun result => slicePrefixRoundTrip v result rest fits⟩
    intro value
    have read := (prefixRead v.length (v ++ rest) value).mpr fits
    rwa [← List.append_assoc] at read

theorem lookupPrefixed (u : Bytes) {s : SequenceNumber} (low : s ≤ s_max_sequence_number) :
    KeyPrefixed u s ↔ u.length + 8 < 2^32 := by
  obtain ⟨l,made,internal,memtable⟩ := lookupKeyBytes (u := u) low
  have size : l.internalKey.length = u.length + 8 := by
    rw [internal]
    exact encodeLength _
  rw [← internal,← size] at memtable
  constructor
  · intro ⟨l',made',reads,_⟩
    cases Option.some.inj (made.symm.trans made')
    have read := reads 0
    rw [memtable] at read
    rw [← size]
    exact (prefixRead _ _ 0).mp read
  · intro fits
    rw [← size] at fits
    refine ⟨l,made,?_,?_⟩
    · intro value
      rw [memtable]
      exact (prefixRead _ _ value).mpr fits
    · intro result
      have back := slicePrefixRoundTrip l.internalKey result [] fits
      rw [List.append_nil] at back
      rw [memtable]
      exact back

theorem lengthPrefixes (v u : Bytes) : (Prefixed v ↔ v.length < 2^32) ∧
    ∀ s, s ≤ s_max_sequence_number → (KeyPrefixed u s ↔ u.length + 8 < 2^32) :=
  ⟨putPrefixed v,fun _ low => lookupPrefixed u low⟩

/- A value of 2^32 bytes is announced as an empty one, and so is a key with its tail. -/
theorem lengthPrefixWraps : ¬ Prefixed (List.replicate (2^32) 97) ∧
    ¬ KeyPrefixed (List.replicate (2^32-8) 97) 5 := by
  constructor
  · intro prefixed
    have fits := (putPrefixed _).mp prefixed
    rw [List.length_replicate] at fits
    exact Nat.lt_irrefl _ fits
  · intro prefixed
    have fits := (lookupPrefixed _ (by decide)).mp prefixed
    rw [List.length_replicate] at fits
    exact absurd fits (by decide)

end KVStorage
