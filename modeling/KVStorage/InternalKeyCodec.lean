import KVStorage.CodingStream
import KVStorage.DbFormat

/-! The encoding of internal keys: a user key followed by eight bytes that hold
the sequence number above the type. -/
namespace KVStorage

open Support

def ParsedInternalKey.Valid (key : ParsedInternalKey) : Prop := key.sequence ≤ s_max_sequence_number

instance (key : ParsedInternalKey) : Decidable key.Valid :=
  inferInstanceAs (Decidable (key.sequence ≤ s_max_sequence_number))

theorem maxSequence : s_max_sequence_number.toNat = 2^56 - 1 := rfl

theorem typeByteSmall (t : ValueType) : t.toByte.toNat ≤ 1 := by
  cases t with
  | TypeDeletion => decide
  | TypeValue => decide

theorem typeOfByte (t : ValueType) : ValueType.ofByte t.toByte = t := by
  cases t with
  | TypeDeletion => rfl
  | TypeValue => rfl

theorem byteOfType {c : UInt8} (small : c ≤ ValueType.TypeValue.toByte) :
    (ValueType.ofByte c).toByte = c := by
  have le : c.toNat ≤ 1 := UInt8.le_iff_toNat_le.mp small
  by_cases zero : c = 0
  · subst zero
    rfl
  · have one : c = 1 := by
      apply UInt8.toNat_inj.mp
      have apart : c.toNat ≠ 0 := fun eq => zero (UInt8.toNat_inj.mp eq)
      have value : (1 : UInt8).toNat = 1 := rfl
      omega
    subst one
    rfl

/- The word that packSequenceAndType returns for a valid key. -/
def ParsedInternalKey.packed (key : ParsedInternalKey) : UInt64 :=
  (key.sequence <<< 8) ||| key.type.toByte.toUInt64

def ParsedInternalKey.encode (key : ParsedInternalKey) : Bytes :=
  key.user_key ++ encodeFixed64 key.packed

theorem packedValue {key : ParsedInternalKey} (valid : key.Valid) :
    key.packed.toNat = key.sequence.toNat * 256 + key.type.toByte.toNat := by
  have low := typeByteSmall key.type
  have bound : key.sequence.toNat ≤ 2^56 - 1 := UInt64.le_iff_toNat_le.mp valid
  have type : key.type.toByte.toUInt64.toNat = key.type.toByte.toNat := UInt8.toNat_toUInt64 _
  have small : key.type.toByte.toNat < 2^8 := key.type.toByte.toNat_lt
  have join := Words.orShift key.sequence.toNat 64 small (by decide)
  unfold ParsedInternalKey.packed
  rw [UInt64.or_comm,UInt64.toNat_or,UInt64.toNat_shiftLeft,type]
  exact join.trans (by omega)

theorem appendEncodes {key : ParsedInternalKey} (valid : key.Valid) (r : Bytes) :
    appendInternalKey r key = some (r ++ key.encode) := by
  have packs : packSequenceAndType key.sequence key.type = some key.packed := if_pos valid
  simp only [appendInternalKey,packs,putFixed64,ParsedInternalKey.encode,List.append_assoc,bind,Option.bind]

theorem encodeLength (key : ParsedInternalKey) : key.encode.length = internalKeyEncodingLength key := by
  simp [ParsedInternalKey.encode,internalKeyEncodingLength,encodeFixed64]

/- A lookup key is the length of an encoding in front of that encoding. -/
def lookupTarget (u : Bytes) (s : SequenceNumber) : ParsedInternalKey := ⟨u,s,s_value_type_for_seek⟩

theorem lookupKeyBytes {u : Bytes} {s : SequenceNumber} (low : s ≤ s_max_sequence_number) :
    ∃ l, LookupKey.new u s = some l ∧ l.internalKey = (lookupTarget u s).encode ∧
      l.memtableKey = encodeVarint32 (UInt32.ofNat (u.length + 8)) ++ (lookupTarget u s).encode := by
  have packs : packSequenceAndType s s_value_type_for_seek = some (lookupTarget u s).packed := if_pos low
  have made : LookupKey.new u s = some ⟨if u.length + 13 ≤ LookupKey.spaceSize then LookupKey.spaceSize
        else u.length + 13,
      encodeVarint32 (UInt32.ofNat (u.length + 8)) ++ u ++ encodeFixed64 (lookupTarget u s).packed,
      (encodeVarint32 (UInt32.ofNat (u.length + 8))).length⟩ := by
    simp only [LookupKey.new,packs,bind,Option.bind]
  refine ⟨_,made,?_,List.append_assoc ..⟩
  simp only [LookupKey.internalKey,List.append_assoc,List.drop_left]
  rfl

/- The last eight bytes of a string. -/
theorem tailDecodes {s : Bytes} (long : 8 ≤ s.length) :
    ∃ b0 b1 b2 b3 b4 b5 b6 b7 num, s.drop (s.length-8) = [b0,b1,b2,b3,b4,b5,b6,b7] ∧
      decodeFixed64 (s.drop (s.length-8)) = some num ∧
      num.toNat = Words.littleEndian [b0,b1,b2,b3,b4,b5,b6,b7] := by
  have eight : (s.drop (s.length-8)).length = 8 := by
    rw [List.length_drop]
    omega
  match h : s.drop (s.length-8), eight with
  | [b0,b1,b2,b3,b4,b5,b6,b7], _ =>
    obtain ⟨num,decoded,value⟩ := decodeFixed64Value b0 b1 b2 b3 b4 b5 b6 b7 []
    exact ⟨b0,b1,b2,b3,b4,b5,b6,b7,num,rfl,decoded,value⟩

theorem tailEncodes {s : Bytes} (long : 8 ≤ s.length) {num : UInt64}
    (decoded : decodeFixed64 (s.drop (s.length-8)) = some num) : encodeFixed64 num = s.drop (s.length-8) := by
  obtain ⟨b0,b1,b2,b3,b4,b5,b6,b7,num',tail,decoded',value⟩ := tailDecodes long
  cases Option.some.inj (decoded.symm.trans decoded')
  rw [tail]
  exact Words.littleEndianInjective rfl ((encodeFixed64Value num).trans value)

theorem lowByte (num : UInt64) : (num &&& 0xff).toUInt8.toNat = num.toNat % 256 := by
  have mask : num.toNat &&& 2^8-1 = num.toNat % 2^8 := Nat.and_two_pow_sub_one_eq_mod ..
  rw [UInt64.toNat_toUInt8,UInt64.toNat_and]
  exact (congrArg (· % 256) mask).trans (Nat.mod_mod ..)

theorem highPart (num : UInt64) : (num >>> 8).toNat = num.toNat / 256 := by
  rw [UInt64.toNat_shiftRight]
  exact Nat.shiftRight_eq_div_pow ..

theorem parseIs {s : Bytes} (long : 8 ≤ s.length) {num : UInt64}
    (decoded : decodeFixed64 (s.drop (s.length-8)) = some num) : parseInternalKey s =
      if (num &&& 0xff).toUInt8 ≤ ValueType.TypeValue.toByte then
        some ⟨s.take (s.length-8),num >>> 8,ValueType.ofByte (num &&& 0xff).toUInt8⟩
      else none := by
  simp only [parseInternalKey,if_neg (Nat.not_lt.mpr long),decoded,bind,Option.bind]

theorem parseEncoded {key : ParsedInternalKey} (valid : key.Valid) : parseInternalKey key.encode = some key := by
  have size : key.encode.length = key.user_key.length + 8 := encodeLength key
  have cut : key.encode.length - 8 = key.user_key.length := by omega
  have tail : key.encode.drop (key.encode.length-8) = encodeFixed64 key.packed := by
    rw [cut]
    exact List.drop_left
  have head : key.encode.take (key.encode.length-8) = key.user_key := by
    rw [cut]
    exact List.take_left
  have decoded : decodeFixed64 (key.encode.drop (key.encode.length-8)) = some key.packed := by
    have trip := fixed64RoundTrip key.packed []
    rw [List.append_nil] at trip
    rw [tail,trip]
  have value := packedValue valid
  have small := typeByteSmall key.type
  have type : (key.packed &&& 0xff).toUInt8 = key.type.toByte := by
    apply UInt8.toNat_inj.mp
    rw [lowByte]
    omega
  have sequence : key.packed >>> 8 = key.sequence := by
    apply UInt64.toNat_inj.mp
    rw [highPart]
    omega
  have accepted : key.type.toByte ≤ ValueType.TypeValue.toByte := UInt8.le_iff_toNat_le.mpr small
  rw [parseIs (by omega) decoded,type,if_pos accepted,head,sequence,typeOfByte]

theorem parsedEncodes {s : Bytes} {key : ParsedInternalKey} (parsed : parseInternalKey s = some key) :
    key.Valid ∧ key.encode = s := by
  by_cases long : 8 ≤ s.length
  · obtain ⟨_,_,_,_,_,_,_,_,num,_,decoded,_⟩ := tailDecodes long
    rw [parseIs long decoded] at parsed
    split at parsed
    · rename_i accepted
      cases Option.some.inj parsed
      have bound := num.toNat_lt
      have valid : (⟨s.take (s.length-8),num >>> 8,ValueType.ofByte (num &&& 0xff).toUInt8⟩ :
          ParsedInternalKey).Valid := by
        apply UInt64.le_iff_toNat_le.mpr
        rw [maxSequence,highPart]
        omega
      have whole : (⟨s.take (s.length-8),num >>> 8,ValueType.ofByte (num &&& 0xff).toUInt8⟩ :
          ParsedInternalKey).packed = num := by
        apply UInt64.toNat_inj.mp
        rw [packedValue valid,highPart,byteOfType accepted,lowByte]
        omega
      refine ⟨valid,?_⟩
      simp only [ParsedInternalKey.encode,whole,tailEncodes long decoded,List.take_append_drop]
    · contradiction
  · simp only [parseInternalKey,if_pos (Nat.not_le.mp long)] at parsed
    contradiction

theorem parsesIff (s : Bytes) : (∃ key, parseInternalKey s = some key) ↔
    8 ≤ s.length ∧ (s[s.length-8]? = some 0 ∨ s[s.length-8]? = some 1) := by
  by_cases long : 8 ≤ s.length
  · obtain ⟨b0,b1,b2,b3,b4,b5,b6,b7,num,tail,decoded,value⟩ := tailDecodes long
    have first : s[s.length-8]? = some b0 := by
      have here := congrArg List.head? tail
      rwa [List.head?_drop] at here
    have byte : (num &&& 0xff).toUInt8 = b0 := by
      apply UInt8.toNat_inj.mp
      have bound := b0.toNat_lt
      rw [lowByte,value,Words.littleEndianCons]
      omega
    have small : b0 ≤ ValueType.TypeValue.toByte ↔ b0 = 0 ∨ b0 = 1 := by
      have zero : (0 : UInt8).toNat = 0 := rfl
      have one : (1 : UInt8).toNat = 1 := rfl
      have top : ValueType.TypeValue.toByte.toNat = 1 := rfl
      rw [UInt8.le_iff_toNat_le,← UInt8.toNat_inj,← UInt8.toNat_inj]
      omega
    rw [parseIs long decoded,byte,first]
    simp only [Option.some.injEq,← small]
    split
    · rename_i accepted
      simp [long,accepted]
    · rename_i rejected
      simp [rejected]
  · have short : parseInternalKey s = none := if_pos (Nat.not_le.mp long)
    simp [short,long]

/-- AppendInternalKey and ParseInternalKey are inverse to each other between the
valid keys and the strings accepted, which are those of eight bytes or more with
0 or 1 at size-8; the accepted strings are the image of AppendInternalKey. -/
theorem internalKeyCodec :
    (∀ (r : Bytes) (key : ParsedInternalKey), key.Valid → ∃ s, appendInternalKey r key = some (r ++ s) ∧
      s.length = internalKeyEncodingLength key ∧ parseInternalKey s = some key) ∧
    (∀ s : Bytes, (∃ key, parseInternalKey s = some key) ↔
      8 ≤ s.length ∧ (s[s.length-8]? = some 0 ∨ s[s.length-8]? = some 1)) ∧
    (∀ (s : Bytes) (key : ParsedInternalKey), parseInternalKey s = some key →
      key.Valid ∧ ∀ r, appendInternalKey r key = some (r ++ s)) ∧
    (∀ s : Bytes, (∃ key, parseInternalKey s = some key) ↔
      ∃ key : ParsedInternalKey, key.Valid ∧ appendInternalKey [] key = some s) := by
  have back : ∀ (s : Bytes) (key : ParsedInternalKey), parseInternalKey s = some key →
      key.Valid ∧ ∀ r, appendInternalKey r key = some (r ++ s) := by
    intro s key parsed
    obtain ⟨valid,same⟩ := parsedEncodes parsed
    exact ⟨valid,fun r => same ▸ appendEncodes valid r⟩
  refine ⟨?_,parsesIff,back,?_⟩
  · intro r key valid
    exact ⟨key.encode,appendEncodes valid r,encodeLength key,parseEncoded valid⟩
  · intro s
    constructor
    · intro accepted
      obtain ⟨key,parsed⟩ := accepted
      exact ⟨key,(back s key parsed).1,(back s key parsed).2 []⟩
    · intro image
      obtain ⟨key,valid,made⟩ := image
      have same : key.encode = s := by
        have whole := appendEncodes valid []
        exact Option.some.inj (whole.symm.trans made)
      exact ⟨key,same ▸ parseEncoded valid⟩

theorem internalKeyCodecTombstone : ∃ s, appendInternalKey [1] ⟨[7,255],5,.TypeDeletion⟩ = some ([1] ++ s) ∧
    s.length = 10 ∧ parseInternalKey s = some ⟨[7,255],5,.TypeDeletion⟩ :=
  internalKeyCodec.1 [1] ⟨[7,255],5,.TypeDeletion⟩ (by decide)

end KVStorage
