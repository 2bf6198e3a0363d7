import KVStorage.Slice

/-! include/comparator.h and util/comparator.cc. A function that changes its
string gives the changed one, or nothing where an assert fails. -/
namespace KVStorage

structure Comparator where
  name : String
  compare : Bytes → Bytes → Int
  findShortestSeparator : Bytes → Bytes → Option Bytes
  findShortSuccessor : Bytes → Option Bytes

namespace BytewiseComparator

/- The loop for the first index at which start and limit differ. -/
def diffIndex : Bytes → Bytes → Nat
  | x::start, y::limit => if x = y then diffIndex start limit + 1 else 0
  | _, _ => 0

def findShortestSeparator (start limit : Bytes) : Option Bytes :=
  let min_length := min start.length limit.length
  let diff_index := diffIndex start limit
  if diff_index ≥ min_length then some start
  else do
    let diff_byte ← start[diff_index]?
    let limit_byte ← limit[diff_index]?
    if diff_byte < 0xff ∧ diff_byte.toNat + 1 < limit_byte.toNat then
      let start := (start.set diff_index (diff_byte+1)).take (diff_index+1)
      if Slice.compare start limit < 0 then some start else none
    else some start

def findShortSuccessor : Bytes → Bytes
  | [] => []
  | byte::key => if byte ≠ 0xff then [byte+1] else byte::findShortSuccessor key

end BytewiseComparator

def BytewiseComparator : Comparator where
  name := "leveldb.BytewiseComparator"
  compare := Slice.compare
  findShortestSeparator := BytewiseComparator.findShortestSeparator
  findShortSuccessor := fun key => some (BytewiseComparator.findShortSuccessor key)

end KVStorage
