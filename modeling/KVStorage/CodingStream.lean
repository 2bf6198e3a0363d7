import KVStorage.Coding
import Mathlib.Tactic.Ring

/-! Reading back what the Put functions append. -/
namespace KVStorage

open Support

theorem decodeFixed32Value (b0 b1 b2 b3 : UInt8) (rest : Bytes) :
    ∃ w, decodeFixed32 (b0::b1::b2::b3::rest) = some w ∧ w.toNat = Words.littleEndian [b0,b1,b2,b3] := by
  have w0 : Words.Filled 8 b0.toUInt32.toNat b0.toNat := ⟨rfl,b0.toNat_lt⟩
  have w1 := Words.fill32 8 w0 b1 (by decide)
  have w2 := Words.fill32 16 w1 b2 (by decide)
  have w3 := Words.fill32 24 w2 b3 (by decide)
  refine ⟨_,rfl,w3.1.trans ?_⟩
  simp only [Words.littleEndianCons,Words.littleEndianNil,UInt32.reduceToNat]
  omega

theorem decodeFixed64Value (b0 b1 b2 b3 b4 b5 b6 b7 : UInt8) (rest : Bytes) :
    ∃ w, decodeFixed64 (b0::b1::b2::b3::b4::b5::b6::b7::rest) = some w ∧
      w.toNat = Words.littleEndian [b0,b1,b2,b3,b4,b5,b6,b7] := by
  have w0 : Words.Filled 8 b0.toUInt64.toNat b0.toNat := ⟨rfl,b0.toNat_lt⟩
  have w1 := Words.fill64 8 w0 b1 (by decide)
  have w2 := Words.fill64 16 w1 b2 (by decide)
  have w3 := Words.fill64 24 w2 b3 (by decide)
  have w4 := Words.fill64 32 w3 b4 (by decide)
  have w5 := Words.fill64 40 w4 b5 (by decide)
  have w6 := Words.fill64 48 w5 b6 (by decide)
  have w7 := Words.fill64 56 w6 b7 (by decide)
  refine ⟨_,rfl,w7.1.trans ?_⟩
  simp only [Words.littleEndianCons,Words.littleEndianNil,UInt64.reduceToNat]
  omega

theorem fixed32RoundTrip (value : UInt32) (rest : Bytes) :
    decodeFixed32 (encodeFixed32 value ++ rest) = some value := by
  obtain ⟨w,decoded,same⟩ := decodeFixed32Value value.toUInt8 (value >>> 8).toUInt8 (value >>> 16).toUInt8
    (value >>> 24).toUInt8 rest
  have eq : w = value := UInt32.toNat_inj.mp (same.trans (encodeFixed32Value value))
  subst eq
  exact decoded

theorem fixed64RoundTrip (value : UInt64) (rest : Bytes) :
    decodeFixed64 (encodeFixed64 value ++ rest) = some value := by
  obtain ⟨w,decoded,same⟩ := decodeFixed64Value value.toUInt8 (value >>> 8).toUInt8 (value >>> 16).toUInt8
    (value >>> 24).toUInt8 (value >>> 32).toUInt8 (value >>> 40).toUInt8 (value >>> 48).toUInt8
    (value >>> 56).toUInt8 rest
  have eq : w = value := UInt64.toNat_inj.mp (same.trans (encodeFixed64Value value))
  subst eq
  exact decoded

section Rounds

variable {w i : Nat} (wide : 8 ≤ w) (inside : 7*i ≤ w) {result : BitVec w} (small : result.toNat < 2^(7*i))

include wide inside small

/- The byte that ends a number goes above the digits so far, as it is. -/
theorem lastRound (b : UInt8) : result ||| (b.toBitVec.setWidth w <<< (7*i)) =
    BitVec.ofNat w (result.toNat + b.toNat * 2^(7*i)) := by
  apply BitVec.eq_of_toNat_eq
  rw [Words.orShiftVec small inside,Words.byteWord wide,BitVec.toNat_ofNat]

theorem nextRound (b : UInt8) : (result ||| ((b.toBitVec.setWidth w &&& 127) <<< (7*i))).toNat =
    (result.toNat + b.toNat % 128 * 2^(7*i)) % 2^w := by
  rw [Words.orShiftVec small inside,Words.byteLow wide]

theorem nextSmall (b : UInt8) : (result ||| ((b.toBitVec.setWidth w &&& 127) <<< (7*i))).toNat < 2^(7*(i+1)) := by
  have power : 2^(7*(i+1)) = 128 * 2^(7*i) := by
    rw [Nat.mul_add,Nat.pow_add,Nat.mul_comm]
  have digit : b.toNat % 128 ≤ 127 := by omega
  have scaled := Nat.mul_le_mul_right (2^(7*i)) digit
  have cut := Nat.mod_le (result.toNat + b.toNat % 128 * 2^(7*i)) (2^w)
  rw [nextRound wide inside small,power]
  omega

/- The rounds to come add a number above the next digit. -/
theorem nextSum (b : UInt8) (n : Nat) :
    BitVec.ofNat w ((result ||| ((b.toBitVec.setWidth w &&& 127) <<< (7*i))).toNat + n * 2^(7*(i+1))) =
      BitVec.ofNat w (result.toNat + (b.toNat % 128 + 128 * n) * 2^(7*i)) := by
  have power : 2^(7*(i+1)) = 128 * 2^(7*i) := by
    rw [Nat.mul_add,Nat.pow_add,Nat.mul_comm]
  have sum : result.toNat + b.toNat % 128 * 2^(7*i) + n * (128 * 2^(7*i)) =
      result.toNat + (b.toNat % 128 + 128 * n) * 2^(7*i) := by ring
  apply BitVec.eq_of_toNat_eq
  rw [BitVec.toNat_ofNat,BitVec.toNat_ofNat,nextRound wide inside small,power,Nat.mod_add_mod,sum]

end Rounds

/- The loop reads a number in base 128; what the word has no bits for is lost. -/
theorem readVarintIs {w k : Nat} (wide : 8 ≤ w) (room : 7*k < w) (p : Bytes) {i : Nat} (result : BitVec w)
    (le : i ≤ k+1) (low : i ≤ k → result.toNat < 2^(7*i)) :
    readVarint w (7*k) p (7*i) result = (Base128.read (k+1-i) p).map
      (fun r => (r.2,BitVec.ofNat w (result.toNat + r.1 * 2^(7*i)))) := by
  induction p generalizing i result with
  | nil =>
    unfold readVarint
    cases k+1-i with
    | zero => rfl
    | succ n => rfl
  | cons b p ih =>
    unfold readVarint
    by_cases inside : 7*i ≤ 7*k
    · have round : k+1-i = (k-i)+1 := by omega
      have small := low (by omega)
      have fits : 7*i ≤ w := by omega
      rw [if_pos inside,round,Base128.readCons]
      by_cases last : b.toNat < 128
      · have stop : ¬ (b.toBitVec.setWidth w &&& 128 : BitVec w) ≠ 0 := by
          rw [Words.byteHigh wide]
          exact not_not.mpr last
        simp only [if_neg stop,if_pos last,Option.map_some,lastRound wide fits small b]
      · have go := (Words.byteHigh wide b).mpr last
        have next := ih (i := i+1) _ (by omega) (fun _ => nextSmall wide fits small b)
        have left : k+1-(i+1) = k-i := by omega
        have shift : 7*i+7 = 7*(i+1) := rfl
        rw [left] at next
        simp only [if_pos go,if_neg last,Option.map_map]
        rw [shift,next]
        simp only [nextSum wide fits small b]
        rfl
    · have past : k+1-i = 0 := by omega
      rw [if_neg inside,past]
      rfl

theorem readVarintStart {w k : Nat} (wide : 8 ≤ w) (room : 7*k < w) (p : Bytes) :
    readVarint w (7*k) p 0 0 = (Base128.read (k+1) p).map fun r => (r.2,BitVec.ofNat w r.1) := by
  have loop := readVarintIs wide room p (i := 0) 0 (Nat.zero_le _) (fun _ => Nat.two_pow_pos _)
  simpa only [Nat.mul_zero,Nat.sub_zero,Nat.pow_zero,Nat.mul_one,BitVec.ofNat_eq_ofNat,BitVec.toNat_zero,
    Nat.zero_add] using loop

theorem fallbackIs (p : Bytes) (value : UInt32) : getVarint32PtrFallback p value =
    match Base128.read 5 p with
    | some (n,q) => (some q,UInt32.ofNat n)
    | none => (none,value) := by
  unfold getVarint32PtrFallback
  rw [readVarintStart (w := 32) (k := 4) (by decide) (by decide)]
  cases Base128.read 5 p with
  | none => rfl
  | some r => rfl

theorem getVarint32PtrIs (p : Bytes) (value : UInt32) : getVarint32Ptr p value =
    match Base128.read 5 p with
    | some (n,q) => (some q,UInt32.ofNat n)
    | none => (none,value) := by
  unfold getVarint32Ptr
  cases p with
  | nil => exact fallbackIs [] value
  | cons b rest =>
    by_cases fast : b.toUInt32 &&& 128 = 0
    · have zero : b.toNat &&& 128 = 0 := by simpa using congrArg UInt32.toNat fast
      have small := (Words.highBit b.toNat_lt).mp zero
      have same : UInt32.ofNat b.toNat = b.toUInt32 := UInt32.toNat_inj.mp (by simp)
      simp only [if_pos fast,Base128.readCons,if_pos small,same]
    · simp only [if_neg fast]
      exact fallbackIs (b::rest) value

theorem getVarint64PtrIs (p : Bytes) (value : UInt64) : getVarint64Ptr p value =
    match Base128.read 10 p with
    | some (n,q) => (some q,UInt64.ofNat n)
    | none => (none,value) := by
  unfold getVarint64Ptr
  rw [readVarintStart (w := 64) (k := 9) (by decide) (by decide)]
  cases Base128.read 10 p with
  | none => rfl
  | some r => rfl

/- Both readers in numbers: what the word has no room for is cut off. -/
theorem decodes32 (p : Bytes) (value : UInt32) :
    ((getVarint32Ptr p value).1,(getVarint32Ptr p value).2.toNat) = match Base128.read 5 p with
      | some (n,q) => (some q,n % 2^32)
      | none => (none,value.toNat) := by
  rw [getVarint32PtrIs]
  cases Base128.read 5 p with
  | none => rfl
  | some r => simp only [UInt32.toNat_ofNat']

theorem decodes64 (p : Bytes) (value : UInt64) :
    ((getVarint64Ptr p value).1,(getVarint64Ptr p value).2.toNat) = match Base128.read 10 p with
      | some (n,q) => (some q,n % 2^64)
      | none => (none,value.toNat) := by
  rw [getVarint64PtrIs]
  cases Base128.read 10 p with
  | none => rfl
  | some r => simp only [UInt64.toNat_ofNat']

theorem decodedSome {k w value : Nat} {p q : Bytes} {out : Option Bytes × Nat}
    (is : out = match Base128.read k p with
      | some (n,q) => (some q,n % 2^w)
      | none => (none,value)) (read : out.1 = some q) :
    ∃ n, Base128.read k p = some (n,q) ∧ out.2 = n % 2^w := by
  cases done : Base128.read k p with
  | none =>
    rw [is,done] at read
    cases read
  | some r =>
    rw [is,done] at read
    cases read
    exact ⟨r.1,rfl,by rw [is,done]⟩

theorem encodeVarint32Is (value : UInt32) : encodeVarint32 value = Base128.write value.toNat := by
  have bound := value.toNat_lt
  have last : ∀ v : UInt32, v.toNat < 128 → Base128.write v.toNat = [v.toUInt8] :=
    fun v small => Base128.writeSmall small
  have more : ∀ v : UInt32, (v ||| 128).toUInt8 = Base128.continued v.toNat := by
    intro v
    apply UInt8.toNat_inj.mp
    rw [Base128.continuedToNat,← Base128.flagged]
    simp
  have shifted : ∀ s : UInt32, s.toNat + 7 < 32 → (value >>> (s+7)).toNat = (value >>> s).toNat / 128 := by
    intro s room
    have amount : (s+7).toNat % 32 = s.toNat % 32 + 7 := by
      rw [UInt32.toNat_add]
      simp only [UInt32.reduceToNat]
      omega
    rw [UInt32.toNat_shiftRight,UInt32.toNat_shiftRight,amount,Nat.shiftRight_add]
    exact Nat.shiftRight_eq_div_pow ..
  have s7 : (value >>> 7).toNat = value.toNat / 128 := shifted 0 (by decide)
  have s14 : (value >>> 14).toNat = (value >>> 7).toNat / 128 := shifted 7 (by decide)
  have s21 : (value >>> 21).toNat = (value >>> 14).toNat / 128 := shifted 14 (by decide)
  have s28 : (value >>> 28).toNat = (value >>> 21).toNat / 128 := shifted 21 (by decide)
  have below : ∀ limit : UInt32, value < limit ↔ value.toNat < limit.toNat := fun _ => UInt32.lt_iff_toNat_lt
  have t7 : ((1 : UInt32) <<< 7).toNat = 128 := rfl
  have t14 : ((1 : UInt32) <<< 14).toNat = 16384 := rfl
  have t21 : ((1 : UInt32) <<< 21).toNat = 2097152 := rfl
  have t28 : ((1 : UInt32) <<< 28).toNat = 268435456 := rfl
  unfold encodeVarint32
  simp only [below,more,t7,t14,t21,t28]
  by_cases b7 : value.toNat < 128
  · rw [if_pos b7,last value b7]
  rw [if_neg b7,Base128.writeLarge b7,← s7]
  by_cases b14 : value.toNat < 16384
  · rw [if_pos b14,last _ (by omega)]
  rw [if_neg b14,Base128.writeLarge (by omega),← s14]
  by_cases b21 : value.toNat < 2097152
  · rw [if_pos b21,last _ (by omega)]
  rw [if_neg b21,Base128.writeLarge (by omega),← s21]
  by_cases b28 : value.toNat < 268435456
  · rw [if_pos b28,last _ (by omega)]
  · rw [if_neg b28,Base128.writeLarge (by omega),← s28,last _ (by omega)]

theorem encodeVarint64Is (value : UInt64) : encodeVarint64 value = Base128.write value.toNat := by
  have more : ∀ v : UInt64, (v ||| 128).toUInt8 = Base128.continued v.toNat := by
    intro v
    apply UInt8.toNat_inj.mp
    rw [Base128.continuedToNat,← Base128.flagged]
    simp
  fun_induction encodeVarint64 value with
  | case1 value high ih =>
    have large : 128 ≤ value.toNat := UInt64.le_iff_toNat_le.mp high
    rw [Base128.writeLarge (Nat.not_lt.mpr large),more,ih,shiftSeven]
  | case2 value low =>
    have small : value.toNat < 128 := Nat.not_le.mp (fun le => low (UInt64.le_iff_toNat_le.mpr le))
    exact (Base128.writeSmall small).symm

theorem varint32RoundTrip (v value : UInt32) (rest : Bytes) :
    getVarint32 (encodeVarint32 v ++ rest) value = (true,rest,v) := by
  have fits : v.toNat < 128^(4+1) := Nat.lt_of_lt_of_le v.toNat_lt (by decide)
  have read := Base128.readWrite rest fits
  unfold getVarint32
  rw [encodeVarint32Is,getVarint32PtrIs,read]
  simp

theorem varint64RoundTrip (v value : UInt64) (rest : Bytes) :
    getVarint64 (encodeVarint64 v ++ rest) value = (true,rest,v) := by
  have fits : v.toNat < 128^(9+1) := Nat.lt_of_lt_of_le v.toNat_lt (by decide)
  have read := Base128.readWrite rest fits
  unfold getVarint64
  rw [encodeVarint64Is,getVarint64PtrIs,read]
  simp

theorem slicePrefixRoundTrip (v result rest : Bytes) (short : v.length < 2^32) :
    getLengthPrefixedSlice (putLengthPrefixedSlice [] v ++ rest) result = (true,rest,v) := by
  have size : (UInt32.ofNat v.length).toNat = v.length := UInt32.toNat_ofNat_of_lt' short
  have read := varint32RoundTrip (UInt32.ofNat v.length) 0 (v ++ rest)
  unfold getLengthPrefixedSlice
  simp only [putLengthPrefixedSlice,putVarint32,List.nil_append,List.append_assoc,read,size]
  simp

/- A value of one of the five kinds, with what Put writes for it. -/
inductive Item where
  | fixed32 (value : UInt32)
  | fixed64 (value : UInt64)
  | varint32 (value : UInt32)
  | varint64 (value : UInt64)
  | slice (value : Bytes)
  deriving DecidableEq, Repr

inductive Item.Kind where
  | fixed32
  | fixed64
  | varint32
  | varint64
  | slice
  deriving DecidableEq, Repr

namespace Item

def kind : Item → Kind
  | fixed32 _ => .fixed32
  | fixed64 _ => .fixed64
  | varint32 _ => .varint32
  | varint64 _ => .varint64
  | slice _ => .slice

def put (dst : Bytes) : Item → Bytes
  | fixed32 value => putFixed32 dst value
  | fixed64 value => putFixed64 dst value
  | varint32 value => putVarint32 dst value
  | varint64 value => putVarint64 dst value
  | slice value => putLengthPrefixedSlice dst value

def Fits : Item → Prop
  | slice value => value.length < 2^32
  | _ => True

/- One item read by the function for its kind: the item and what is left. -/
def get (input : Bytes) : Kind → Option (Item × Bytes)
  | .fixed32 => (decodeFixed32 input).map (fun value => (fixed32 value,input.drop 4))
  | .fixed64 => (decodeFixed64 input).map (fun value => (fixed64 value,input.drop 8))
  | .varint32 =>
    match getVarint32 input 0 with
    | (true,input,value) => some (varint32 value,input)
    | (false,_,_) => none
  | .varint64 =>
    match getVarint64 input 0 with
    | (true,input,value) => some (varint64 value,input)
    | (false,_,_) => none
  | .slice =>
    match getLengthPrefixedSlice input [] with
    | (true,input,result) => some (slice result,input)
    | (false,_,_) => none

def getAll : Bytes → List Kind → Option (List Item × Bytes)
  | input, [] => some ([],input)
  | input, kind::kinds => do
    let (item,input) ← get input kind
    let (items,input) ← getAll input kinds
    some (item::items,input)

theorem putAppends (dst : Bytes) (item : Item) : put dst item = dst ++ put [] item := by
  cases item with
  | slice value => simp only [put,putLengthPrefixedSlice,putVarint32,List.nil_append,List.append_assoc]
  | fixed32 value => rfl
  | fixed64 value => rfl
  | varint32 value => rfl
  | varint64 value => rfl

theorem putsAppend (dst : Bytes) (items : List Item) : items.foldl put dst = dst ++ items.foldl put [] := by
  induction items generalizing dst with
  | nil => simp
  | cons item items ih =>
    simp only [List.foldl_cons]
    rw [ih (put dst item),ih (put [] item),putAppends dst item,List.append_assoc]

theorem getPut (item : Item) (rest : Bytes) (fits : item.Fits) :
    get (put [] item ++ rest) item.kind = some (item,rest) := by
  cases item with
  | fixed32 value =>
    have size : (encodeFixed32 value).length = 4 := rfl
    simp only [put,putFixed32,List.nil_append,kind,get,fixed32RoundTrip,Option.map_some,← size,List.drop_left]
  | fixed64 value =>
    have size : (encodeFixed64 value).length = 8 := rfl
    simp only [put,putFixed64,List.nil_append,kind,get,fixed64RoundTrip,Option.map_some,← size,List.drop_left]
  | varint32 value => simp only [put,putVarint32,List.nil_append,kind,get,varint32RoundTrip]
  | varint64 value => simp only [put,putVarint64,List.nil_append,kind,get,varint64RoundTrip]
  | slice value => simp only [put,kind,get,slicePrefixRoundTrip value [] rest fits]

end Item

/-- A stream of items of any kinds, appended to any string by the Put functions
and followed by any bytes, is read back item by item; the rest is left. -/
theorem streamReadBack (dst : Bytes) (items : List Item) (fits : ∀ item ∈ items, item.Fits) (rest : Bytes) :
    ∃ stream, items.foldl Item.put dst = dst ++ stream ∧
      Item.getAll (stream ++ rest) (items.map Item.kind) = some (items,rest) := by
  refine ⟨_,Item.putsAppend dst items,?_⟩
  induction items with
  | nil => rfl
  | cons item items ih =>
    have first := Item.getPut item (items.foldl Item.put [] ++ rest) (fits item List.mem_cons_self)
    have others := ih (fun other mem => fits other (List.mem_cons_of_mem _ mem))
    have stream : (item::items).foldl Item.put [] = Item.put [] item ++ items.foldl Item.put [] := by
      rw [List.foldl_cons,Item.putsAppend]
    rw [stream,List.append_assoc]
    simp only [List.map_cons,Item.getAll,first,others,bind,Option.bind]

theorem streamReadBackThree : ∃ stream,
    [Item.varint32 300,.slice [1,2,3],.fixed64 5].foldl Item.put [9] = [9] ++ stream ∧
      Item.getAll (stream ++ [7]) [.varint32,.slice,.fixed64] =
        some ([.varint32 300,.slice [1,2,3],.fixed64 5],[7]) :=
  streamReadBack [9] [.varint32 300,.slice [1,2,3],.fixed64 5] (by simp [Item.Fits]) [7]

end KVStorage
