import KVStorage.Slice
import KVStorage.Support.Base128
import KVStorage.Support.Words

/-! util/coding.h and util/coding.cc. An encoder gives the bytes it writes from
dst on. A reader given [p, limit) gives the rest of that range, or nothing where
the code gives a null pointer, and what is in the caller's variable afterwards. -/
namespace KVStorage

open Support

def encodeFixed32 (value : UInt32) : Bytes :=
  [value.toUInt8,(value >>> 8).toUInt8,(value >>> 16).toUInt8,(value >>> 24).toUInt8]

def encodeFixed64 (value : UInt64) : Bytes :=
  [value.toUInt8,(value >>> 8).toUInt8,(value >>> 16).toUInt8,(value >>> 24).toUInt8,
    (value >>> 32).toUInt8,(value >>> 40).toUInt8,(value >>> 48).toUInt8,(value >>> 56).toUInt8]

/- Nothing where fewer bytes than that may be read. -/
def decodeFixed32 : Bytes → Option UInt32
  | b0::b1::b2::b3::_ =>
    some (b0.toUInt32 ||| (b1.toUInt32 <<< 8) ||| (b2.toUInt32 <<< 16) ||| (b3.toUInt32 <<< 24))
  | _ => none

def decodeFixed64 : Bytes → Option UInt64
  | b0::b1::b2::b3::b4::b5::b6::b7::_ =>
    some (b0.toUInt64 ||| (b1.toUInt64 <<< 8) ||| (b2.toUInt64 <<< 16) ||| (b3.toUInt64 <<< 24) |||
      (b4.toUInt64 <<< 32) ||| (b5.toUInt64 <<< 40) ||| (b6.toUInt64 <<< 48) ||| (b7.toUInt64 <<< 56))
  | _ => none

def encodeVarint32 (value : UInt32) : Bytes :=
  if value < (1 : UInt32) <<< 7 then [value.toUInt8]
  else if value < (1 : UInt32) <<< 14 then [(value ||| 128).toUInt8,(value >>> 7).toUInt8]
  else if value < (1 : UInt32) <<< 21 then
    [(value ||| 128).toUInt8,((value >>> 7) ||| 128).toUInt8,(value >>> 14).toUInt8]
  else if value < (1 : UInt32) <<< 28 then
    [(value ||| 128).toUInt8,((value >>> 7) ||| 128).toUInt8,((value >>> 14) ||| 128).toUInt8,
      (value >>> 21).toUInt8]
  else
    [(value ||| 128).toUInt8,((value >>> 7) ||| 128).toUInt8,((value >>> 14) ||| 128).toUInt8,
      ((value >>> 21) ||| 128).toUInt8,(value >>> 28).toUInt8]

theorem shiftSeven (value : UInt64) : (value >>> 7).toNat = value.toNat / 128 := by
  rw [UInt64.toNat_shiftRight]
  exact Nat.shiftRight_eq_div_pow ..

def encodeVarint64 (value : UInt64) : Bytes :=
  if value ≥ 128 then (value ||| 128).toUInt8::encodeVarint64 (value >>> 7) else [value.toUInt8]
termination_by value.toNat
decreasing_by
  rename_i high
  have large : 128 ≤ value.toNat := UInt64.le_iff_toNat_le.mp high
  rw [shiftSeven]
  omega

/- The loop of VarintLength. -/
def varintLengthLoop (v : UInt64) (len : Nat) : Nat :=
  if v ≥ 128 then varintLengthLoop (v >>> 7) (len+1) else len
termination_by v.toNat
decreasing_by
  rename_i high
  have large : 128 ≤ v.toNat := UInt64.le_iff_toNat_le.mp high
  rw [shiftSeven]
  omega

def varintLength (v : UInt64) : Nat := varintLengthLoop v 1

def putFixed32 (dst : Bytes) (value : UInt32) : Bytes := dst ++ encodeFixed32 value

def putFixed64 (dst : Bytes) (value : UInt64) : Bytes := dst ++ encodeFixed64 value

def putVarint32 (dst : Bytes) (value : UInt32) : Bytes := dst ++ encodeVarint32 value

def putVarint64 (dst : Bytes) (value : UInt64) : Bytes := dst ++ encodeVarint64 value

/- value.size(), a size_t, is passed on as a uint32_t. -/
def putLengthPrefixedSlice (dst value : Bytes) : Bytes :=
  putVarint32 dst (UInt32.ofNat value.length) ++ value

/- The loop of GetVarint32PtrFallback and of GetVarint64Ptr, for a word of w bits
and the last shift that starts a round. -/
def readVarint (w last : Nat) : Bytes → Nat → BitVec w → Option (Bytes × BitVec w)
  | [], _, _ => none
  | b::p, shift, result =>
    if shift ≤ last then
      let byte := b.toBitVec.setWidth w
      if byte &&& 128 ≠ 0 then readVarint w last p (shift+7) (result ||| ((byte &&& 127) <<< shift))
      else some (p,result ||| (byte <<< shift))
    else none

def getVarint32PtrFallback (p : Bytes) (value : UInt32) : Option Bytes × UInt32 :=
  match readVarint 32 28 p 0 0 with
  | some (q,result) => (some q,⟨result⟩)
  | none => (none,value)

def getVarint32Ptr (p : Bytes) (value : UInt32) : Option Bytes × UInt32 :=
  match p with
  | b::rest =>
    let result := b.toUInt32
    if result &&& 128 = 0 then (some rest,result) else getVarint32PtrFallback p value
  | [] => getVarint32PtrFallback p value

def getVarint64Ptr (p : Bytes) (value : UInt64) : Option Bytes × UInt64 :=
  match readVarint 64 63 p 0 0 with
  | some (q,result) => (some q,⟨result⟩)
  | none => (none,value)

def getVarint32 (input : Bytes) (value : UInt32) : Bool × Bytes × UInt32 :=
  match getVarint32Ptr input value with
  | (none,value) => (false,input,value)
  | (some q,value) => (true,q,value)

def getVarint64 (input : Bytes) (value : UInt64) : Bool × Bytes × UInt64 :=
  match getVarint64Ptr input value with
  | (none,value) => (false,input,value)
  | (some q,value) => (true,q,value)

/- len has no value before GetVarint32 succeeds; nothing reads it until then. -/
def getLengthPrefixedSlice (input result : Bytes) : Bool × Bytes × Bytes :=
  match getVarint32 input 0 with
  | (true,input,len) =>
    if input.length ≥ len.toNat then (true,input.drop len.toNat,input.take len.toNat)
    else (false,input,result)
  | (false,input,_) => (false,input,result)

theorem encodeFixed32Value (value : UInt32) : Words.littleEndian (encodeFixed32 value) = value.toNat := by
  have spread : encodeFixed32 value = (List.range 4).map fun i => UInt8.ofNat (value.toNat >>> (8*i)) := rfl
  have fits : value.toNat < 256^4 := value.toNat_lt
  rw [spread,Words.littleEndianBytes,Nat.mod_eq_of_lt fits]

theorem encodeFixed64Value (value : UInt64) : Words.littleEndian (encodeFixed64 value) = value.toNat := by
  have spread : encodeFixed64 value = (List.range 8).map fun i => UInt8.ofNat (value.toNat >>> (8*i)) := rfl
  have fits : value.toNat < 256^8 := value.toNat_lt
  rw [spread,Words.littleEndianBytes,Nat.mod_eq_of_lt fits]

end KVStorage
