import KVStorage.InternalKeyClass
import KVStorage.Logging
import KVStorage.Status

/-! debugString of database/db_format.cc. The printed form of a key is read back from
the right: behind the user key everything is decimal or a fixed separator. -/
namespace KVStorage

open Support

/- operator<< of an ostringstream, in the locale it starts with. -/
def streamUnsigned (n : UInt64) : Bytes := Decimal.write n.toNat

def streamInt (n : Int) : Bytes :=
  if n < 0 then ascii "-" ++ Decimal.write n.natAbs else Decimal.write n.natAbs

def ValueType.toInt (t : ValueType) : Int := t.toByte.toNat

def ParsedInternalKey.debugString (key : ParsedInternalKey) : Bytes :=
  ascii "'" ++ escapeString key.user_key ++ ascii "' @ " ++ streamUnsigned key.sequence ++ ascii " : " ++
    streamInt key.type.toInt

def InternalKey.debugString (k : InternalKey) : Bytes :=
  match parseInternalKey k.rep_ with
  | some parsed => parsed.debugString
  | none => ascii "(bad)" ++ escapeString k.rep_

theorem typeStreamed (t : ValueType) : streamInt t.toInt = Decimal.write t.toByte.toNat :=
  if_neg (Int.not_lt.mpr (Int.natCast_nonneg t.toByte.toNat))

theorem typeByteInjective {t t' : ValueType} (same : t.toByte.toNat = t'.toByte.toNat) : t = t' := by
  rw [← typeOfByte t,← typeOfByte t',UInt8.toNat_inj.mp same]

/- A separator that ends in a blank stops the digits behind it. -/
theorem printedTail (front sep : Bytes) (n : Nat) :
    Decimal.trailing (front ++ (sep ++ [32]) ++ Decimal.write n) = (front ++ (sep ++ [32]),n) := by
  rw [← List.append_assoc]
  exact Decimal.writeTrailing n (by decide)

namespace ParsedInternalKey

theorem printed (key : ParsedInternalKey) : key.debugString =
    [39] ++ key.user_key ++ ([39,32,64] ++ [32]) ++ Decimal.write key.sequence.toNat ++ ([32,58] ++ [32]) ++
      Decimal.write key.type.toByte.toNat := by
  rw [debugString,typeStreamed]
  rfl

theorem debugStringInjective {key key' : ParsedInternalKey} (same : key.debugString = key'.debugString) :
    key = key' := by
  obtain ⟨u,s,t⟩ := key
  obtain ⟨u',s',t'⟩ := key'
  rw [printed,printed] at same
  have types := congrArg Decimal.trailing same
  rw [printedTail,printedTail] at types
  obtain ⟨fronts,type⟩ := Prod.mk.inj types
  have sequences := congrArg Decimal.trailing (List.append_cancel_right fronts)
  rw [printedTail,printedTail] at sequences
  obtain ⟨users,sequence⟩ := Prod.mk.inj sequences
  have user : u = u' := List.append_cancel_left (List.append_cancel_right users)
  have number : s = s' := UInt64.toNat_inj.mp sequence
  have kind : t = t' := typeByteInjective type
  rw [user,number,kind]

end ParsedInternalKey

namespace InternalKey

/- The first byte tells a key that is accepted from one that is not. -/
theorem printedAccepted {k : InternalKey} {key : ParsedInternalKey} (parsed : parseInternalKey k.rep_ = some key) :
    k.debugString = key.debugString ∧ k.debugString.head? = some 39 := by
  have same : k.debugString = key.debugString := by rw [debugString,parsed]
  exact ⟨same,by rw [same,ParsedInternalKey.printed]; rfl⟩

theorem printedBad {k : InternalKey} (refused : parseInternalKey k.rep_ = none) :
    k.debugString = ascii "(bad)" ++ k.rep_ ∧ k.debugString.head? = some 40 := by
  have same : k.debugString = ascii "(bad)" ++ k.rep_ := by
    rw [debugString,refused]
    rfl
  exact ⟨same,by rw [same]; rfl⟩

theorem debugStringInjective {a b : InternalKey} (same : a.debugString = b.debugString) : a = b := by
  suffices reps : a.rep_ = b.rep_ by
    obtain ⟨rep⟩ := a
    obtain ⟨rep'⟩ := b
    exact congrArg InternalKey.mk reps
  cases left : parseInternalKey a.rep_ with
  | some key =>
    obtain ⟨print,quote⟩ := printedAccepted left
    cases right : parseInternalKey b.rep_ with
    | some key' =>
      have keys : key = key' :=
        ParsedInternalKey.debugStringInjective (print.symm.trans (same.trans (printedAccepted right).1))
      rw [← (parsedEncodes left).2,← (parsedEncodes right).2,keys]
    | none =>
      rw [same,(printedBad right).2] at quote
      cases quote
  | none =>
    obtain ⟨print,bad⟩ := printedBad left
    cases right : parseInternalKey b.rep_ with
    | some key' =>
      rw [same,(printedAccepted right).2] at bad
      cases bad
    | none => exact List.append_cancel_left (print.symm.trans (same.trans (printedBad right).1))

/- The strings differ, and are those of an accepted key and of a malformed one. -/
theorem debugStringsDiffer (a b : InternalKey) : (a.debugString = b.debugString ↔ a = b) ∧
    (∀ key, parseInternalKey a.rep_ = some key → a.debugString = ascii "'" ++ key.user_key ++ ascii "' @ " ++
      Decimal.write key.sequence.toNat ++ ascii " : " ++ Decimal.write key.type.toByte.toNat) ∧
    (parseInternalKey a.rep_ = none → a.debugString = ascii "(bad)" ++ a.rep_) := by
  refine ⟨⟨debugStringInjective,congrArg debugString⟩,?_,fun refused => (printedBad refused).1⟩
  intro key parsed
  rw [(printedAccepted parsed).1,ParsedInternalKey.printed]
  rfl

end InternalKey
end KVStorage
