import KVStorage.Coding
import KVStorage.Comparator

/-! database/db_format.h and database/db_format.cc: internal keys, their order,
and the keys of lookups. A failing assert gives nothing. -/
namespace KVStorage

inductive ValueType where
  | TypeDeletion
  | TypeValue
  deriving DecidableEq, Repr

def ValueType.toByte : ValueType → UInt8
  | .TypeDeletion => 0x0
  | .TypeValue => 0x1

/- The cast of a byte that is one of the two. -/
def ValueType.ofByte (c : UInt8) : ValueType := if c = 0x0 then .TypeDeletion else .TypeValue

def s_value_type_for_seek : ValueType := .TypeValue

abbrev SequenceNumber := UInt64

def s_max_sequence_number : SequenceNumber := ((0x1 : UInt64) <<< 56) - 1

structure ParsedInternalKey where
  user_key : Bytes
  sequence : SequenceNumber
  type : ValueType
  deriving DecidableEq, Repr

def internalKeyEncodingLength (key : ParsedInternalKey) : Nat := key.user_key.length + 8

/- The second assert, on the type, holds of every ValueType. -/
def packSequenceAndType (seq : UInt64) (t : ValueType) : Option UInt64 :=
  if seq ≤ s_max_sequence_number then some ((seq <<< 8) ||| t.toByte.toUInt64) else none

def appendInternalKey (result : Bytes) (key : ParsedInternalKey) : Option Bytes := do
  let packed ← packSequenceAndType key.sequence key.type
  some (putFixed64 (result ++ key.user_key) packed)

/- What a rejected string leaves in the result is not kept: no caller looks. -/
def parseInternalKey (internal_key : Bytes) : Option ParsedInternalKey :=
  let n := internal_key.length
  if n < 8 then none
  else do
    let num ← decodeFixed64 (internal_key.drop (n-8))
    let c := (num &&& 0xff).toUInt8
    if c ≤ ValueType.TypeValue.toByte then
      some ⟨internal_key.take (n-8),num >>> 8,ValueType.ofByte c⟩
    else none

def extractUserKey (internal_key : Bytes) : Option Bytes :=
  if internal_key.length ≥ 8 then some (internal_key.take (internal_key.length-8)) else none

namespace InternalKeyComparator

variable (user_comparator_ : Comparator)

def compare (a b : Bytes) : Option Int := do
  let user_a ← extractUserKey a
  let user_b ← extractUserKey b
  let r := user_comparator_.compare user_a user_b
  if r = 0 then do
    let a_num ← decodeFixed64 (a.drop (a.length-8))
    let b_num ← decodeFixed64 (b.drop (b.length-8))
    if a_num > b_num then some (-1) else if a_num < b_num then some 1 else some r
  else some r

def assertBefore (a b : Bytes) : Option Unit := do
  let r ← compare user_comparator_ a b
  if r < 0 then some () else none

def findShortestSeparator (start limit : Bytes) : Option Bytes := do
  let user_start ← extractUserKey start
  let user_limit ← extractUserKey limit
  let tmp ← user_comparator_.findShortestSeparator user_start user_limit
  if tmp.length < user_start.length ∧ user_comparator_.compare user_start tmp < 0 then do
    let packed ← packSequenceAndType s_max_sequence_number s_value_type_for_seek
    let tmp := putFixed64 tmp packed
    assertBefore user_comparator_ start tmp
    assertBefore user_comparator_ tmp limit
    some tmp
  else some start

def findShortSuccessor (key : Bytes) : Option Bytes := do
  let user_key ← extractUserKey key
  let tmp ← user_comparator_.findShortSuccessor user_key
  if tmp.length < user_key.length ∧ user_comparator_.compare user_key tmp < 0 then do
    let packed ← packSequenceAndType s_max_sequence_number s_value_type_for_seek
    let tmp := putFixed64 tmp packed
    assertBefore user_comparator_ key tmp
    some tmp
  else some key

end InternalKeyComparator

/- The array start_ points to, space_ or one from the heap, has `capacity` bytes;
`buffer` is what the constructor wrote, up to end_. -/
structure LookupKey where
  capacity : Nat
  buffer : Bytes
  key_start_ : Nat
  deriving DecidableEq, Repr

namespace LookupKey

def spaceSize : Nat := 200

def new (user_key : Bytes) (sequence : SequenceNumber) : Option LookupKey := do
  let usize := user_key.length
  let needed := usize + 13
  let capacity := if needed ≤ spaceSize then spaceSize else needed
  let dst := encodeVarint32 (UInt32.ofNat (usize + 8))
  let key_start_ := dst.length
  let packed ← packSequenceAndType sequence s_value_type_for_seek
  some ⟨capacity,dst ++ user_key ++ encodeFixed64 packed,key_start_⟩

def memtableKey (l : LookupKey) : Bytes := l.buffer

def internalKey (l : LookupKey) : Bytes := l.buffer.drop l.key_start_

def userKey (l : LookupKey) : Bytes := l.internalKey.take (l.internalKey.length-8)

end LookupKey
end KVStorage
