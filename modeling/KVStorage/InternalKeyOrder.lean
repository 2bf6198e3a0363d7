import KVStorage.InternalKeyCodec

/-! The order of internal keys. On strings that are long enough its comparison
never fails, and is one three-way comparison of user keys followed by another
of the eight bytes behind them. -/
namespace KVStorage

open Support

/- A string that ExtractUserKey takes. -/
abbrev Extractable := {k : Bytes // 8 ≤ k.length}

namespace Extractable

def user (k : Extractable) : Bytes := k.1.take (k.1.length-8)

def number (k : Extractable) : UInt64 := (decodeFixed64 (k.1.drop (k.1.length-8))).getD 0

theorem numberDecodes (k : Extractable) : decodeFixed64 (k.1.drop (k.1.length-8)) = some k.number := by
  obtain ⟨_,_,_,_,_,_,_,_,num,_,decoded,_⟩ := tailDecodes k.2
  simp only [number,decoded,Option.getD_some]

theorem parts (k : Extractable) : k.1 = k.user ++ encodeFixed64 k.number := by
  rw [tailEncodes k.2 k.numberDecodes]
  exact (List.take_append_drop ..).symm

theorem extracts (k : Extractable) : extractUserKey k.1 = some k.user := if_pos k.2

end Extractable

def ParsedInternalKey.extractable (key : ParsedInternalKey) : Extractable :=
  ⟨key.encode,by rw [encodeLength]; exact Nat.le_add_left ..⟩

theorem partsUnique {u u' : Bytes} {n n' : UInt64} (same : u ++ encodeFixed64 n = u' ++ encodeFixed64 n') :
    u = u' ∧ n = n' := by
  obtain ⟨left,right⟩ := List.append_inj' same rfl
  have value := congrArg Words.littleEndian right
  rw [encodeFixed64Value,encodeFixed64Value] at value
  exact ⟨left,UInt64.toNat_inj.mp value⟩

theorem encodedParts (key : ParsedInternalKey) :
    key.extractable.user = key.user_key ∧ key.extractable.number = key.packed :=
  partsUnique key.extractable.parts.symm

namespace InternalKeyComparator

variable (user_comparator_ : Comparator)

def order : Extractable → Extractable → Int :=
  ThreeWay.orElse (fun a b => user_comparator_.compare a.user b.user)
    (fun a b => ThreeWay.descending a.number.toNat b.number.toNat)

theorem orderIs (a b : Extractable) : order user_comparator_ a b =
    ThreeWay.tie (user_comparator_.compare a.user b.user)
      (ThreeWay.descending a.number.toNat b.number.toNat) := rfl

theorem compareIs (a b : Extractable) : compare user_comparator_ a.1 b.1 = some (order user_comparator_ a b) := by
  simp only [compare,a.extracts,b.extracts,a.numberDecodes,b.numberDecodes,bind,Option.bind,order,
    ThreeWay.orElse,ThreeWay.tie,ThreeWay.descending,gt_iff_lt,UInt64.lt_iff_toNat_lt]
  split
  · rename_i same
    rw [same]
    split
    · rfl
    · split
      · rfl
      · rfl
  · rfl

/- User keys ascending, then sequence numbers descending, then types descending. -/
def fieldOrder (p q : ParsedInternalKey) : Int :=
  if user_comparator_.compare p.user_key q.user_key ≠ 0 then user_comparator_.compare p.user_key q.user_key
  else if p.sequence ≠ q.sequence then (if p.sequence > q.sequence then -1 else 1)
  else if p.type ≠ q.type then (if p.type.toByte > q.type.toByte then -1 else 1)
  else 0

theorem descendingPacked {p q : ParsedInternalKey} (validP : p.Valid) (validQ : q.Valid) :
    ThreeWay.descending p.packed.toNat q.packed.toNat =
      if p.sequence ≠ q.sequence then (if p.sequence > q.sequence then -1 else 1)
      else if p.type ≠ q.type then (if p.type.toByte > q.type.toByte then -1 else 1)
      else 0 := by
  have lowP := typeByteSmall p.type
  have lowQ := typeByteSmall q.type
  rw [packedValue validP,packedValue validQ]
  by_cases sequence : p.sequence = q.sequence
  · rw [if_neg (not_not.mpr sequence),sequence]
    cases p.type with
    | TypeDeletion => cases q.type <;> simp [ThreeWay.descending,ValueType.toByte]
    | TypeValue => cases q.type <;> simp [ThreeWay.descending,ValueType.toByte]
  · have apart : p.sequence.toNat ≠ q.sequence.toNat := fun eq => sequence (UInt64.toNat_inj.mp eq)
    rw [if_pos sequence]
    by_cases more : p.sequence > q.sequence
    · have above : q.sequence.toNat < p.sequence.toNat := UInt64.lt_iff_toNat_lt.mp more
      rw [if_pos more,ThreeWay.descending,if_pos (by omega)]
    · have under : ¬ q.sequence.toNat < p.sequence.toNat := fun lt => more (UInt64.lt_iff_toNat_lt.mpr lt)
      rw [if_neg more,ThreeWay.descending,if_neg (by omega),if_pos (by omega)]

theorem orderFields {p q : ParsedInternalKey} (validP : p.Valid) (validQ : q.Valid) :
    order user_comparator_ p.extractable q.extractable = fieldOrder user_comparator_ p q := by
  obtain ⟨userP,numberP⟩ := encodedParts p
  obtain ⟨userQ,numberQ⟩ := encodedParts q
  unfold fieldOrder
  rw [orderIs,userP,userQ,numberP,numberQ,descendingPacked validP validQ]
  by_cases same : user_comparator_.compare p.user_key q.user_key = 0
  · rw [ThreeWay.tieZero same,if_neg (not_not.mpr same)]
  · rw [ThreeWay.tieApart same,if_pos same]

theorem orderLawful (lawful : ThreeWay.Lawful user_comparator_.compare) :
    ThreeWay.Lawful (order user_comparator_) := by
  have users := ThreeWay.comap Extractable.user lawful
  have numbers := ThreeWay.comap (fun k : Extractable => k.number.toNat) ThreeWay.descendingLawful
  exact ThreeWay.orElseLawful users numbers

theorem orderZero (a b : Extractable) : order BytewiseComparator a b = 0 ↔ a = b := by
  constructor
  · intro zero
    rw [orderIs] at zero
    by_cases same : BytewiseComparator.compare a.user b.user = 0
    · rw [ThreeWay.tieZero same] at zero
      have users : a.user = b.user := (Slice.compareZero ..).mp same
      have numbers : a.number = b.number := by
        apply UInt64.toNat_inj.mp
        unfold ThreeWay.descending at zero
        split at zero
        · contradiction
        · split at zero
          · contradiction
          · omega
      apply Subtype.ext
      rw [a.parts,b.parts,users,numbers]
    · rw [ThreeWay.tieApart same] at zero
      contradiction
  · intro eq
    subst eq
    exact (orderLawful BytewiseComparator Slice.compareLawful).self a

end InternalKeyComparator

open InternalKeyComparator in
/-- compare never fails on strings of eight bytes or more; over a lawful user
comparator it is lawful, over BytewiseComparator only equal bytes compare equal
(user keys in lexicographic order), and on valid keys it is the fields' order. -/
theorem internalKeyOrder (user_comparator_ : Comparator) (lawful : ThreeWay.Lawful user_comparator_.compare) :
    (∃ cmp : Extractable → Extractable → Int,
      (∀ a b, compare user_comparator_ a.1 b.1 = some (cmp a b)) ∧ ThreeWay.Lawful cmp ∧
      ∀ a b, cmp a b ≤ 0 ∨ cmp b a ≤ 0) ∧
    (∀ a b : Extractable, compare BytewiseComparator a.1 b.1 = some 0 ↔ a = b) ∧
    (∀ u v : Bytes, (BytewiseComparator.compare u v < 0 ↔ u < v) ∧ (BytewiseComparator.compare u v = 0 ↔ u = v)) ∧
    ∀ p q : ParsedInternalKey, p.Valid → q.Valid →
      ∃ a b, appendInternalKey [] p = some a ∧ appendInternalKey [] q = some b ∧
        compare user_comparator_ a b = some (fieldOrder user_comparator_ p q) := by
  have whole := orderLawful user_comparator_ lawful
  refine ⟨⟨order user_comparator_,compareIs user_comparator_,whole,whole.total⟩,?_,?_,?_⟩
  · intro a b
    rw [compareIs,Option.some.injEq]
    exact orderZero a b
  · exact fun u v => ⟨Slice.compareNeg u v,Slice.compareZero u v⟩
  · intro p q validP validQ
    refine ⟨p.encode,q.encode,appendEncodes validP [],appendEncodes validQ [],?_⟩
    have compared := compareIs user_comparator_ p.extractable q.extractable
    rwa [orderFields user_comparator_ validP validQ] at compared

open InternalKeyComparator in
theorem internalKeyOrderBytewise :
    (∃ cmp : Extractable → Extractable → Int,
      (∀ a b, compare BytewiseComparator a.1 b.1 = some (cmp a b)) ∧ ThreeWay.Lawful cmp ∧
      ∀ a b, cmp a b ≤ 0 ∨ cmp b a ≤ 0) ∧
    ∃ a b, appendInternalKey [] ⟨[1],7,.TypeValue⟩ = some a ∧ appendInternalKey [] ⟨[1],7,.TypeDeletion⟩ = some b ∧
      compare BytewiseComparator a b = some (-1) := by
  have whole := internalKeyOrder BytewiseComparator Slice.compareLawful
  exact ⟨whole.1,whole.2.2.2 ⟨[1],7,.TypeValue⟩ ⟨[1],7,.TypeDeletion⟩ (by decide) (by decide)⟩

end KVStorage
