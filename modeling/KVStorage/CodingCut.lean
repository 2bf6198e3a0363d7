import KVStorage.LengthPrefix
import KVStorage.Support.Records

/-! Streams of varints and length-prefixed slices that end too early. The Get
functions check where their input ends; the fixed widths are read unchecked and
are left out. -/
namespace KVStorage

open Support

namespace Item

/- One item read by the function for its kind, and where that function leaves its
input, which it is given by reference, also where it refuses. -/
def take (input : Bytes) : Kind → Option Item × Bytes
  | .fixed32 => ((decodeFixed32 input).map fixed32,input.drop 4)
  | .fixed64 => ((decodeFixed64 input).map fixed64,input.drop 8)
  | .varint32 =>
    let (ok,input,value) := getVarint32 input 0
    (if ok then some (varint32 value) else none,input)
  | .varint64 =>
    let (ok,input,value) := getVarint64 input 0
    (if ok then some (varint64 value) else none,input)
  | .slice =>
    let (ok,input,result) := getLengthPrefixedSlice input []
    (if ok then some (slice result) else none,input)

theorem getTakes (input : Bytes) (k : Kind) :
    get input k = (take input k).1.map fun item => (item,(take input k).2) := by
  cases k with
  | fixed32 | fixed64 => simp [get,take,Option.map_map,Function.comp_def]
  | varint32 =>
    simp only [get,take]
    rcases getVarint32 input 0 with ⟨_ | _,_,_⟩ <;> rfl
  | varint64 =>
    simp only [get,take]
    rcases getVarint64 input 0 with ⟨_ | _,_,_⟩ <;> rfl
  | slice =>
    simp only [get,take]
    rcases getLengthPrefixedSlice input [] with ⟨_ | _,_,_⟩ <;> rfl

theorem takePut (item : Item) (rest : Bytes) (fits : item.Fits) :
    take (put [] item ++ rest) item.kind = (some item,rest) := by
  have got := getPut item rest fits
  rw [getTakes,Option.map_eq_some_iff] at got
  obtain ⟨item',taken,same⟩ := got
  obtain ⟨same,left⟩ := Prod.mk.inj same
  exact Prod.ext (same ▸ taken) left

def codec : Records.Codec Item UInt8 Kind := ⟨kind,put [],fun k input => take input k⟩

/- What is left of a piece of an item once its Get function has refused it: all of it,
but for the length of a slice that was read before its data was found missing. -/
def leaves : Item → Bytes → Bytes
  | slice value, piece =>
    let length := putVarint32 [] (UInt32.ofNat value.length)
    if length.length ≤ piece.length then piece.drop length.length else piece
  | _, piece => piece

/- The kinds whose Get functions are told where the input ends. -/
def Checked : Item → Prop
  | varint32 _ | varint64 _ => True
  | slice value => value.length < 2^32
  | fixed32 _ | fixed64 _ => False

instance (item : Item) : Decidable item.Checked := by
  unfold Checked
  split <;> infer_instance

theorem checkedFits {item : Item} (checked : item.Checked) : item.Fits := by
  cases item with
  | slice value => exact checked
  | varint32 value => trivial
  | varint64 value => trivial
  | fixed32 value => trivial
  | fixed64 value => trivial

theorem putsStream (dst : Bytes) (items : List Item) : items.foldl put dst = dst ++ codec.stream items := by
  induction items generalizing dst with
  | nil => simp
  | cons item items ih =>
    rw [List.foldl_cons,ih,putAppends,List.append_assoc]
    rfl

theorem varint32Short (v : UInt32) {q : Bytes} (starts : q <+: encodeVarint32 v) (proper : q ≠ encodeVarint32 v) :
    take q .varint32 = (none,q) := by
  rw [encodeVarint32Is] at starts proper
  have fails := Base128.prefixFails (k := 5) (Base128.writeGroup v.toNat) starts proper
  simp [take,getVarint32,getVarint32PtrIs,fails]

theorem varint64Short (v : UInt64) {q : Bytes} (starts : q <+: encodeVarint64 v) (proper : q ≠ encodeVarint64 v) :
    take q .varint64 = (none,q) := by
  rw [encodeVarint64Is] at starts proper
  have fails := Base128.prefixFails (k := 10) (Base128.writeGroup v.toNat) starts proper
  simp [take,getVarint64,getVarint64PtrIs,fails]

/- The cut is in the length, or behind it with too few bytes left. -/
theorem sliceShort {v q : Bytes} (fits : v.length < 2^32) (starts : q <+: putLengthPrefixedSlice [] v)
    (proper : q ≠ putLengthPrefixedSlice [] v) : take q .slice = (none,leaves (slice v) q) := by
  have length : putVarint32 [] (UInt32.ofNat v.length) = Base128.write v.length := by
    rw [putVarint32,List.nil_append,encodeVarint32Is,UInt32.toNat_ofNat_of_lt' fits]
  rw [putLengthPrefixedSlice,length] at starts proper
  simp only [leaves,length]
  rcases Records.prefixCases starts with ⟨inside,short⟩ | ⟨rest,split,behind⟩
  · have fails := Base128.prefixFails (k := 5) (Base128.writeGroup v.length) inside short
    have few : q.length < (Base128.write v.length).length := by
      refine Nat.lt_of_le_of_ne inside.length_le ?_
      intro whole
      exact short (inside.eq_of_length whole)
    simp [take,sliceIs,fails,if_neg (Nat.not_le.mpr few)]
  · subst split
    have few : rest.length < v.length := by
      refine Nat.lt_of_le_of_ne behind.length_le ?_
      intro whole
      exact proper (by rw [behind.eq_of_length whole])
    have small : v.length < 128^(4+1) := Nat.lt_of_lt_of_le fits (by decide)
    have exactly : v.length % 2^32 = v.length := Nat.mod_eq_of_lt fits
    have stopped : getLengthPrefixedSlice (Base128.write v.length ++ rest) [] = (false,rest,[]) := by
      simp only [sliceIs,Base128.readWrite rest small,exactly,if_neg (Nat.not_le.mpr few)]
    simp [take,stopped]

theorem codecSound : codec.Sound Checked leaves := by
  constructor
  · intro item rest checked
    exact takePut item rest (checkedFits checked)
  · intro item q checked starts proper
    cases item with
    | varint32 value => exact varint32Short value starts proper
    | varint64 value => exact varint64Short value starts proper
    | slice value => exact sliceShort checked starts proper
    | fixed32 value => exact checked.elim
    | fixed64 value => exact checked.elim

end Item

end KVStorage
