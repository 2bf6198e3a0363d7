import KVStorage.InternalKeyCodec
import KVStorage.Support.Buffer
import KVStorage.VarintCanonical

/-! The constructor of LookupKey writes through a pointer into space_ or into an
array from the heap. Its views are the three encodings of the key in either. -/
namespace KVStorage.LookupKey

open Support

/- Where start_ points. -/
inductive Storage where
  | space_
  | heap
  deriving DecidableEq, Repr

/- The pointers are offsets from start_ in the array. -/
structure Stored where
  storage : Storage
  array : Bytes
  key_start_ : Nat
  end_ : Nat
  deriving DecidableEq, Repr

/- The writes through dst. Nothing where one leaves the array or an assert fails. -/
def fill (storage : Storage) (array user_key : Bytes) (sequence : SequenceNumber) : Option Stored := do
  let usize := user_key.length
  let size := encodeVarint32 (UInt32.ofNat (usize + 8))
  let array ← Buffer.write array 0 size
  let key_start_ := size.length
  let array ← Buffer.write array key_start_ user_key
  let dst := key_start_ + usize
  let packed ← packSequenceAndType sequence s_value_type_for_seek
  let array ← Buffer.write array dst (encodeFixed64 packed)
  some ⟨storage,array,key_start_,dst + 8⟩

/- operator new[] gives an array of that many bytes with any content. -/
def construct (space_ : Bytes) (newArray : Nat → Bytes) (user_key : Bytes) (sequence : SequenceNumber) :
    Option Stored :=
  let needed := user_key.length + 13
  if needed ≤ spaceSize then fill .space_ space_ user_key sequence
  else fill .heap (newArray needed) user_key sequence

namespace Stored

def memtableKey (l : Stored) : Bytes := l.array.take l.end_

def internalKey (l : Stored) : Bytes := (l.array.drop l.key_start_).take (l.end_ - l.key_start_)

def userKey (l : Stored) : Bytes := (l.array.drop l.key_start_).take (l.end_ - l.key_start_ - 8)

/- The writes stay in the first end_ bytes, at most `needed` of them. -/
structure Written (original : Bytes) (needed : Nat) (l : Stored) : Prop where
  length : l.array.length = original.length
  inside : l.end_ ≤ needed ∧ needed ≤ l.array.length
  others : l.array.drop l.end_ = original.drop l.end_

/- The views of a key that is stored as it should be. -/
structure Views (u : Bytes) (s : SequenceNumber) (l : Stored) : Prop where
  user : l.userKey = u
  appended : appendInternalKey [] ⟨u,s,.TypeValue⟩ = some l.internalKey
  parsed : parseInternalKey l.internalKey = some ⟨u,s,.TypeValue⟩
  prefixed : l.memtableKey = putLengthPrefixedSlice [] l.internalKey
  read : ∀ result, getLengthPrefixedSlice l.memtableKey result = (true,[],l.internalKey)

end Stored

variable {u : Bytes} {s : SequenceNumber}

/- The length in front of the key, and all that the constructor writes. -/
def sizeBytes (u : Bytes) : Bytes := encodeVarint32 (UInt32.ofNat (u.length + 8))

def target (u : Bytes) (s : SequenceNumber) : ParsedInternalKey := ⟨u,s,.TypeValue⟩

def written (u : Bytes) (s : SequenceNumber) : Bytes := sizeBytes u ++ (target u s).encode

/- A key as the constructor leaves it, in any array that is long enough. -/
structure Filled (u : Bytes) (s : SequenceNumber) (array : Bytes) (l : Stored) : Prop where
  starts : l.key_start_ = (sizeBytes u).length
  ends : l.end_ = (written u s).length
  bytes : Buffer.Filled array (written u s) l.array

theorem targetLength (u : Bytes) (s : SequenceNumber) : (target u s).encode.length = u.length + 8 :=
  encodeLength (target u s)

theorem writtenLength (u : Bytes) (s : SequenceNumber) :
    (written u s).length = (sizeBytes u).length + (u.length + 8) := by
  rw [written,List.length_append,targetLength]

theorem fillSpec (low : s ≤ s_max_sequence_number) (storage : Storage) {array : Bytes}
    (room : u.length + 13 ≤ array.length) :
    ∃ l, fill storage array u s = some l ∧ l.storage = storage ∧ Filled u s array l := by
  have short : (sizeBytes u).length ≤ 5 := encodeVarint32Short _
  have packs : packSequenceAndType s s_value_type_for_seek = some (target u s).packed := if_pos low
  have eight : (encodeFixed64 (target u s).packed).length = 8 := rfl
  have userEnd : (sizeBytes u).length + u.length = (sizeBytes u ++ u).length := List.length_append.symm
  obtain ⟨array1,size,filled1⟩ := Buffer.writeNext 0 (sizeBytes u) (Buffer.filledNothing array) rfl (by omega)
  obtain ⟨array2,user,filled2⟩ := Buffer.writeNext (sizeBytes u).length u filled1 rfl (by omega)
  obtain ⟨array3,tail,filled3⟩ := Buffer.writeNext ((sizeBytes u).length + u.length)
    (encodeFixed64 (target u s).packed) filled2 userEnd (by rw [eight]; omega)
  have all : [] ++ sizeBytes u ++ u ++ encodeFixed64 (target u s).packed = written u s := by
    rw [List.nil_append,List.append_assoc]
    rfl
  rw [all] at filled3
  have done : fill storage array u s =
      some ⟨storage,array3,(sizeBytes u).length,(sizeBytes u).length + u.length + 8⟩ := by
    rw [sizeBytes] at size user tail
    simp only [fill,size,user,packs,tail,bind,Option.bind]
    rfl
  exact ⟨_,done,rfl,rfl,by rw [writtenLength]; rfl,filled3⟩

variable {array : Bytes} {l : Stored}

theorem memtableKeyIs (filled : Filled u s array l) : l.memtableKey = written u s := by
  rw [Stored.memtableKey,filled.bytes.split,filled.ends,List.take_left]

theorem internalKeyIs (filled : Filled u s array l) : l.internalKey = (target u s).encode := by
  have length : l.end_ - l.key_start_ = (target u s).encode.length := by
    rw [filled.ends,filled.starts,writtenLength,targetLength]
    omega
  rw [Stored.internalKey,length,filled.bytes.split,filled.starts,written,List.append_assoc,List.drop_left,
    List.take_left]

theorem userKeyIs (filled : Filled u s array l) : l.userKey = u := by
  have length : l.end_ - l.key_start_ - 8 = u.length := by
    rw [filled.ends,filled.starts,writtenLength]
    omega
  rw [Stored.userKey,length,filled.bytes.split,filled.starts,written,List.append_assoc,List.drop_left,
    ParsedInternalKey.encode,List.append_assoc]
  exact List.take_left

theorem filledViews (short : u.length + 8 < 2^32) (low : s ≤ s_max_sequence_number) (filled : Filled u s array l) :
    Stored.Views u s l := by
  have internal := internalKeyIs filled
  have prefixed : l.memtableKey = putLengthPrefixedSlice [] l.internalKey := by
    rw [memtableKeyIs filled,internal,putLengthPrefixedSlice,putVarint32,targetLength,List.nil_append]
    rfl
  have read : ∀ result, getLengthPrefixedSlice l.memtableKey result = (true,[],l.internalKey) := by
    intro result
    have fits : l.internalKey.length < 2^32 := by
      rw [internal,targetLength]
      exact short
    have back := slicePrefixRoundTrip l.internalKey result [] fits
    rwa [List.append_nil,← prefixed] at back
  have valid : (target u s).Valid := low
  have appended := appendEncodes valid []
  have parsed := parseEncoded valid
  rw [List.nil_append,← internal] at appended
  rw [← internal] at parsed
  exact ⟨userKeyIs filled,appended,parsed,prefixed,read⟩

theorem filledWritten (room : u.length + 13 ≤ array.length) (filled : Filled u s array l) :
    Stored.Written array (u.length + 13) l := by
  have short : (sizeBytes u).length ≤ 5 := encodeVarint32Short _
  have length := Buffer.filledLength filled.bytes
  have within : l.end_ ≤ u.length + 13 := by
    rw [filled.ends,writtenLength]
    omega
  have others : l.array.drop l.end_ = array.drop l.end_ := by
    rw [filled.ends,filled.bytes.split,List.drop_left]
  exact ⟨length,⟨within,length ▸ room⟩,others⟩

/- The key as plain bytes, which lookups are stated over, has the same views. -/
theorem newViews (low : s ≤ s_max_sequence_number) (filled : Filled u s array l) :
    ∃ k, LookupKey.new u s = some k ∧ k.memtableKey = l.memtableKey ∧ k.internalKey = l.internalKey ∧
      k.userKey = l.userKey := by
  obtain ⟨k,made,internal,memtable⟩ := lookupKeyBytes (u := u) low
  have same : k.internalKey = l.internalKey := internal.trans (internalKeyIs filled).symm
  have user : k.userKey = l.userKey := by
    rw [LookupKey.userKey,same,userKeyIs filled,internalKeyIs filled,targetLength,Nat.add_sub_cancel]
    exact List.take_left
  exact ⟨k,made,memtable.trans (memtableKeyIs filled).symm,same,user⟩

theorem lookupKeyBuffer (u : Bytes) (s : SequenceNumber) (space_ : Bytes) (newArray : Nat → Bytes)
    (short : u.length + 8 < 2^32) (low : s ≤ s_max_sequence_number) (inline : space_.length = spaceSize)
    (sized : ∀ n, (newArray n).length = n) :
    (∃ l, construct space_ newArray u s = some l ∧ Stored.Views u s l ∧
      (l.storage = .space_ ∧ Stored.Written space_ (u.length + 13) l ∧ l.end_ ≤ 200 ∨
        l.storage = .heap ∧ Stored.Written (newArray (u.length + 13)) (u.length + 13) l) ∧
      ∃ k, LookupKey.new u s = some k ∧ k.memtableKey = l.memtableKey ∧ k.internalKey = l.internalKey ∧
        k.userKey = l.userKey) ∧
    ∀ storage storage' array array', u.length + 13 ≤ array.length → u.length + 13 ≤ array'.length →
      ∃ l l', fill storage array u s = some l ∧ fill storage' array' u s = some l' ∧
        l.memtableKey = l'.memtableKey ∧ l.internalKey = l'.internalKey ∧ l.userKey = l'.userKey := by
  constructor
  · unfold construct
    by_cases small : u.length + 13 ≤ spaceSize
    · obtain ⟨l,run,storage,filled⟩ := fillSpec (u := u) low .space_ (inline ▸ small)
      have written := filledWritten (inline ▸ small) filled
      have within : l.end_ ≤ 200 := Nat.le_trans written.inside.1 small
      rw [if_pos small]
      exact ⟨l,run,filledViews short low filled,.inl ⟨storage,written,within⟩,newViews low filled⟩
    · have room : u.length + 13 ≤ (newArray (u.length + 13)).length := Nat.le_of_eq (sized _).symm
      obtain ⟨l,run,storage,filled⟩ := fillSpec (u := u) low .heap room
      rw [if_neg small]
      exact ⟨l,run,filledViews short low filled,.inr ⟨storage,filledWritten room filled⟩,newViews low filled⟩
  · intro storage storage' array array' room room'
    obtain ⟨l,run,_,filled⟩ := fillSpec (u := u) low storage room
    obtain ⟨l',run',_,filled'⟩ := fillSpec (u := u) low storage' room'
    have memtable := (memtableKeyIs filled).trans (memtableKeyIs filled').symm
    have internal := (internalKeyIs filled).trans (internalKeyIs filled').symm
    have user := (userKeyIs filled).trans (userKeyIs filled').symm
    exact ⟨l,l',run,run',memtable,internal,user⟩

/- A key of three bytes in space_, and one of 188 bytes in an array from the heap. -/
theorem lookupKeyBufferTwo :
    (∃ l, construct (List.replicate 200 7) (fun n => List.replicate n 9) [1,2,3] 5 = some l ∧
      Stored.Views [1,2,3] 5 l) ∧
    ∃ l, construct (List.replicate 200 7) (fun n => List.replicate n 9) (List.replicate 188 1) 5 = some l ∧
      Stored.Views (List.replicate 188 1) 5 l := by
  have inline : (List.replicate 200 7 : Bytes).length = spaceSize := List.length_replicate
  have long : (List.replicate 188 1 : Bytes).length = 188 := List.length_replicate
  obtain ⟨⟨l,run,views,_⟩,_⟩ := lookupKeyBuffer [1,2,3] 5 (List.replicate 200 7) (fun n => List.replicate n 9)
    (by decide) (by decide) inline (fun _ => List.length_replicate)
  obtain ⟨⟨l',run',views',_⟩,_⟩ := lookupKeyBuffer (List.replicate 188 1) 5 (List.replicate 200 7)
    (fun n => List.replicate n 9) (by rw [long]; decide) (by decide) inline (fun _ => List.length_replicate)
  exact ⟨⟨l,run,views⟩,⟨l',run',views'⟩⟩

end KVStorage.LookupKey
