import KVStorage.CodingStream
import KVStorage.Support.Mixing

/-! util/hash.h and util/hash.cc. Every step that takes in a word can be undone, so
two strings of one length that differ in one word never meet. -/
namespace KVStorage

open Support

namespace Hash

def m : UInt32 := 0xc6a4a793

def r : UInt32 := 24

/- What a round does with h after it has added its bytes. The factors of h *= m are
swapped, since a product with a literal on the right is unfolded that many times. -/
def mix (shift h : UInt32) : UInt32 :=
  let h := m * h
  h ^^^ (h >>> shift)

def round (h w : UInt32) : UInt32 := mix 16 (h+w)

/- The loop, for as long as data + 4 does not pass limit. -/
def loop (data : Bytes) (h : UInt32) : Bytes × UInt32 :=
  match data,decodeFixed32 data with
  | _::_::_::_::data,some w => loop data (round h w)
  | data,_ => (data,h)

/- The switch: each case falls through to those after it. -/
def case1 (h : UInt32) (b0 : UInt8) : UInt32 := mix r (h + b0.toUInt32)

def case2 (h : UInt32) (b0 b1 : UInt8) : UInt32 := case1 (h + (b1.toUInt32 <<< 8)) b0

def case3 (h : UInt32) (b0 b1 b2 : UInt8) : UInt32 := case2 (h + (b2.toUInt32 <<< 16)) b0 b1

def rest (h : UInt32) : Bytes → UInt32
  | [b0,b1,b2] => case3 h b0 b1 b2
  | [b0,b1] => case2 h b0 b1
  | [b0] => case1 h b0
  | _ => h

end Hash

/- n is a size_t, so the product with m is one of 64 bits. -/
def hash (data : Bytes) (seed : UInt32) : UInt32 :=
  let n := UInt64.ofNat data.length
  let h := (seed.toUInt64 ^^^ (n * Hash.m.toUInt64)).toUInt32
  let (data,h) := Hash.loop data h
  Hash.rest h data

namespace Hash

/- The aligned words, and the bytes that are left after the last of them. -/
def words : Bytes → List UInt32
  | b0::b1::b2::b3::data => (decodeFixed32 [b0,b1,b2,b3]).toList ++ words data
  | _ => []

def trailing : Bytes → Bytes
  | _::_::_::_::data => trailing data
  | data => data

theorem wordInduction {P : Bytes → Prop} (short : ∀ data, data.length < 4 → P data)
    (word : ∀ b0 b1 b2 b3 data, P data → P (b0::b1::b2::b3::data)) (data : Bytes) : P data := by
  induction data using words.induct with
  | case1 b0 b1 b2 b3 data ih => exact word b0 b1 b2 b3 data ih
  | case2 data apart =>
    apply short
    match data,apart with
    | b0::b1::b2::b3::data,apart => exact absurd rfl (apart b0 b1 b2 b3 data)
    | [],_ => decide
    | [_],_ => simp
    | [_,_],_ => simp
    | [_,_,_],_ => simp

theorem noWord {data : Bytes} (short : data.length < 4) :
    decodeFixed32 data = none ∧ words data = [] ∧ trailing data = data ∧ ∀ h, loop data h = (data,h) := by
  match data,short with
  | [],_ => exact ⟨rfl,rfl,rfl,fun _ => rfl⟩
  | [_],_ => exact ⟨rfl,rfl,rfl,fun _ => rfl⟩
  | [_,_],_ => exact ⟨rfl,rfl,rfl,fun _ => rfl⟩
  | [_,_,_],_ => exact ⟨rfl,rfl,rfl,fun _ => rfl⟩

theorem loopIs (data : Bytes) (h : UInt32) : loop data h = (trailing data,(words data).foldl round h) := by
  induction data using wordInduction generalizing h with
  | short data few =>
    obtain ⟨_,none,all,stops⟩ := noWord few
    rw [stops,none,all]
    rfl
  | word b0 b1 b2 b3 data ih =>
    simp only [decodeFixed32,words,trailing,Option.toList_some,List.singleton_append,List.foldl_cons]
    exact ih _

/- What the loop and the switch make of the state that the seed gives. -/
def finish (data : Bytes) (h : UInt32) : UInt32 := rest ((words data).foldl round h) (trailing data)

def start (n : Nat) (seed : UInt32) : UInt32 := (seed.toUInt64 ^^^ (UInt64.ofNat n * m.toUInt64)).toUInt32

theorem hashIs (data : Bytes) (seed : UInt32) : hash data seed = finish data (start data.length seed) := by
  rw [hash,loopIs]
  rfl

theorem mixInjective {shift : UInt32} (positive : 0 < shift.toNat % 32) : Function.Injective (mix shift) := by
  intro h g same
  have values := congrArg UInt32.toNat same
  simp only [mix,UInt32.toNat_xor,UInt32.toNat_shiftRight] at values
  have products := Mixing.xorShiftInjective positive values
  rw [UInt32.toNat_mul,UInt32.toNat_mul,Nat.mul_comm,Nat.mul_comm m.toNat] at products
  have odd : Odd m.toNat := by decide
  exact UInt32.toNat_inj.mp (Mixing.oddMultiplier odd h.toNat_lt g.toNat_lt products)

theorem roundKeyed (w : UInt32) : Function.Injective fun h => round h w := by
  intro h g same
  exact (UInt32.add_left_inj w).mp (mixInjective (by decide) same)

theorem roundInjective (h : UInt32) : Function.Injective (round h) := by
  intro w v same
  exact (UInt32.add_right_inj h).mp (mixInjective (by decide) same)

theorem startInjective (n : Nat) : Function.Injective (start n) := by
  intro s t same
  simp only [start,UInt64.toUInt32_xor,UInt32.toUInt32_toUInt64] at same
  exact (UInt32.xor_left_inj _).mp same

theorem placed (b : UInt8) {s : UInt32} (room : s.toNat ≤ 24) : (b.toUInt32 <<< s).toNat = b.toNat*2^s.toNat := by
  have places : s.toNat % 32 = s.toNat := Nat.mod_eq_of_lt (by omega)
  have power : 2^s.toNat ≤ 2^24 := Nat.pow_le_pow_right (by decide) room
  have byte := b.toNat_lt
  rw [UInt32.toNat_shiftLeft,UInt8.toNat_toUInt32,places,Nat.shiftLeft_eq]
  apply Nat.mod_eq_of_lt
  calc b.toNat*2^s.toNat ≤ 255*2^24 := Nat.mul_le_mul (by omega) power
    _ < 2^32 := by decide

/- The bytes after the last word are added as their number in little-endian order. -/
theorem restIs {bs : Bytes} (nonempty : bs ≠ []) (short : bs.length < 4) :
    ∃ w : UInt32, w.toNat = Words.littleEndian bs ∧ ∀ h, rest h bs = mix r (h+w) := by
  match bs,nonempty,short with
  | [b0],_,_ =>
    refine ⟨b0.toUInt32,?_,fun h => rfl⟩
    simp [Words.littleEndianCons,Words.littleEndianNil]
  | [b0,b1],_,_ =>
    have low := b0.toNat_lt
    have high := b1.toNat_lt
    refine ⟨(b1.toUInt32 <<< 8) + b0.toUInt32,?_,fun h => ?_⟩
    · rw [UInt32.toNat_add,placed b1 (by decide),UInt8.toNat_toUInt32]
      simp only [Words.littleEndianCons,Words.littleEndianNil,UInt32.reduceToNat]
      omega
    · rw [rest,case2,case1,UInt32.add_assoc]
  | [b0,b1,b2],_,_ =>
    have low := b0.toNat_lt
    have middle := b1.toNat_lt
    have high := b2.toNat_lt
    refine ⟨(b2.toUInt32 <<< 16) + ((b1.toUInt32 <<< 8) + b0.toUInt32),?_,fun h => ?_⟩
    · rw [UInt32.toNat_add,UInt32.toNat_add,placed b1 (by decide),placed b2 (by decide),UInt8.toNat_toUInt32]
      simp only [Words.littleEndianCons,Words.littleEndianNil,UInt32.reduceToNat]
      omega
    · rw [rest,case3,case2,case1,UInt32.add_assoc,UInt32.add_assoc]

theorem restKeyed {bs : Bytes} (short : bs.length < 4) : Function.Injective fun h => rest h bs := by
  intro h g same
  by_cases empty : bs = []
  · subst empty
    exact same
  · obtain ⟨w,_,rests⟩ := restIs empty short
    simp only [rests] at same
    exact (UInt32.add_left_inj w).mp (mixInjective (by decide) same)

theorem restInjective (h : UInt32) {bs cs : Bytes} (short : bs.length < 4) (size : bs.length = cs.length)
    (same : rest h bs = rest h cs) : bs = cs := by
  by_cases empty : bs = []
  · subst empty
    exact (List.eq_nil_of_length_eq_zero size.symm).symm
  · have alsoNonempty : cs ≠ [] := fun nil => empty (List.eq_nil_of_length_eq_zero (by rw [size,nil]; rfl))
    obtain ⟨w,bytesOf,rests⟩ := restIs empty short
    obtain ⟨v,bytesOf',rests'⟩ := restIs alsoNonempty (size ▸ short)
    rw [rests,rests'] at same
    have words : w = v := (UInt32.add_right_inj h).mp (mixInjective (by decide) same)
    subst words
    exact Words.littleEndianInjective size (bytesOf.symm.trans bytesOf')

theorem wordAt (data : Bytes) (k : Nat) : (words data)[k]? = decodeFixed32 ((data.drop (4*k)).take 4) := by
  induction data using wordInduction generalizing k with
  | short data few =>
    have part : ((data.drop (4*k)).take 4).length < 4 := by
      rw [List.length_take,List.length_drop]
      omega
    rw [(noWord few).2.1,(noWord part).1]
    rfl
  | word b0 b1 b2 b3 data ih =>
    obtain ⟨w,decoded,_⟩ := decodeFixed32Value b0 b1 b2 b3 []
    rw [words,decoded]
    cases k with
    | zero => exact decoded.symm
    | succ k => exact ih k

theorem wordsLength (data : Bytes) : (words data).length = data.length/4 := by
  induction data using wordInduction with
  | short data few =>
    rw [(noWord few).2.1]
    exact (Nat.div_eq_of_lt few).symm
  | word b0 b1 b2 b3 data ih =>
    obtain ⟨w,decoded,_⟩ := decodeFixed32Value b0 b1 b2 b3 []
    rw [words,decoded,List.length_append,ih]
    simp only [Option.toList_some,List.length_cons,List.length_nil]
    omega

theorem trailingIs (data : Bytes) : trailing data = data.drop (data.length - data.length % 4) := by
  induction data using wordInduction with
  | short data few =>
    rw [(noWord few).2.2.1,Nat.mod_eq_of_lt few,Nat.sub_self]
    rfl
  | word b0 b1 b2 b3 data ih =>
    have size : (b0::b1::b2::b3::data).length - (b0::b1::b2::b3::data).length % 4 =
        data.length - data.length % 4 + 4 := by
      simp only [List.length_cons]
      omega
    rw [trailing,ih,size]
    rfl

theorem trailingLength (data : Bytes) : (trailing data).length = data.length % 4 := by
  rw [trailingIs,List.length_drop]
  omega

theorem trailingShort (data : Bytes) : (trailing data).length < 4 := by
  rw [trailingLength]
  exact Nat.mod_lt _ (by decide)

theorem wordSame {a b : Bytes} {k : Nat} (bytes : ∀ j < 4, a[4*k+j]? = b[4*k+j]?) :
    (words a)[k]? = (words b)[k]? := by
  have four : (a.drop (4*k)).take 4 = (b.drop (4*k)).take 4 := by
    apply List.ext_getElem?
    intro j
    simp only [List.getElem?_take,List.getElem?_drop]
    split
    · rename_i small
      exact bytes j small
    · rfl
  rw [wordAt,wordAt,four]

theorem decodeInjective {bs cs : Bytes} (four : bs.length = 4) (four' : cs.length = 4)
    (same : decodeFixed32 bs = decodeFixed32 cs) : bs = cs := by
  match bs,cs,four,four' with
  | [b0,b1,b2,b3],[c0,c1,c2,c3],_,_ =>
    obtain ⟨w,decoded,value⟩ := decodeFixed32Value b0 b1 b2 b3 []
    obtain ⟨v,decoded',value'⟩ := decodeFixed32Value c0 c1 c2 c3 []
    have words : w = v := Option.some.inj (decoded.symm.trans (same.trans decoded'))
    subst words
    exact Words.littleEndianInjective rfl (value.symm.trans value')

theorem finishInjective (data : Bytes) : Function.Injective (finish data) := by
  exact (restKeyed (trailingShort data)).comp (Mixing.foldInjective roundKeyed (words data))

section Strings

variable {a b : Bytes} (size : a.length = b.length) (different : a ≠ b)

include size different

theorem wordApart {i : Nat} (inside : 4*i+4 ≤ a.length)
    (elsewhere : ∀ j, j < 4*i ∨ 4*i+4 ≤ j → a[j]? = b[j]?) (h : UInt32) : finish a h ≠ finish b h := by
  have tails : trailing a = trailing b := by
    rw [trailingIs,trailingIs,size]
    apply List.ext_getElem?
    intro j
    rw [List.getElem?_drop,List.getElem?_drop]
    exact elsewhere _ (.inr (by omega))
  have others : ∀ k, k ≠ i → (words a)[k]? = (words b)[k]? := by
    intro k apart
    exact wordSame fun j small => elsewhere _ (by omega)
  have here : (words a)[i]? ≠ (words b)[i]? := by
    rw [wordAt,wordAt]
    intro same
    have four := decodeInjective (by simp; omega) (by simp; omega) same
    apply different
    apply List.ext_getElem?
    intro j
    by_cases within : 4*i ≤ j ∧ j < 4*i+4
    · have byte := congrArg (fun bs => bs[j-4*i]?) four
      have small : j-4*i < 4 := by omega
      simp only [List.getElem?_take,List.getElem?_drop,if_pos small,Nat.add_sub_cancel' within.1] at byte
      exact byte
    · exact elsewhere j (by omega)
  have folds := Mixing.foldApart roundKeyed roundInjective h (by rw [wordsLength,wordsLength,size]) here others
  intro same
  rw [finish,finish,tails] at same
  exact folds (restKeyed (trailingShort b) same)

theorem tailApart (elsewhere : ∀ j < a.length - a.length % 4, a[j]? = b[j]?) (h : UInt32) :
    finish a h ≠ finish b h := by
  have same : words a = words b := by
    apply List.ext_getElem?
    intro k
    by_cases whole : 4*k+4 ≤ a.length
    · exact wordSame fun j small => elsewhere _ (by omega)
    · have beyond : (words a).length ≤ k := by
        rw [wordsLength]
        omega
      have beyond' : (words b).length ≤ k := by
        rw [wordsLength]
        omega
      rw [List.getElem?_eq_none beyond,List.getElem?_eq_none beyond']
  intro equal
  rw [finish,finish,same] at equal
  have tails := restInjective _ (trailingShort a) (by rw [trailingLength,trailingLength,size]) equal
  rw [trailingIs,trailingIs,← size] at tails
  apply different
  have heads : a.take (a.length - a.length % 4) = b.take (a.length - a.length % 4) := by
    apply List.ext_getElem?
    intro j
    simp only [List.getElem?_take]
    split
    · rename_i before
      exact elsewhere j before
    · rfl
  rw [← List.take_append_drop (a.length - a.length % 4) a,heads,tails,List.take_append_drop]

end Strings

theorem hashApart :
    (∀ data : Bytes, Function.Injective (hash data)) ∧
    ∀ (a b : Bytes) (seed : UInt32), a.length = b.length → a ≠ b →
      ((∃ i, 4*i+4 ≤ a.length ∧ ∀ j, j < 4*i ∨ 4*i+4 ≤ j → a[j]? = b[j]?) ∨
        (∀ j, j < a.length - a.length % 4 → a[j]? = b[j]?)) →
      hash a seed ≠ hash b seed := by
  refine ⟨?_,?_⟩
  · intro data s t same
    rw [hashIs,hashIs] at same
    exact startInjective _ (finishInjective data same)
  · intro a b seed size different place
    rw [hashIs,hashIs,← size]
    rcases place with ⟨i,inside,elsewhere⟩ | elsewhere
    · exact wordApart size different inside elsewhere _
    · exact tailApart size different elsewhere _

end Hash
end KVStorage
