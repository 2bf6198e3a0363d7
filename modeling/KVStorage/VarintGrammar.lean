import KVStorage.CodingStream

/-! What the varint readers accept, how much they take and what they give, and that
they load nothing at or above limit. -/
namespace KVStorage

open Support

/- The readers over addresses. A load of an address that may not be read faults. -/
section Pointers

inductive LoadFault where
  | unreadable
  deriving DecidableEq, Repr

abbrev Loads := Nat → Except LoadFault UInt8

def readVarintAt (w last : Nat) (load : Loads) (limit p shift : Nat) (result : BitVec w) :
    Except LoadFault (Option (Nat × BitVec w)) :=
  if shift ≤ last ∧ p < limit then
    match load p with
    | .error e => .error e
    | .ok b =>
      let byte := b.toBitVec.setWidth w
      if byte &&& 128 ≠ 0 then
        readVarintAt w last load limit (p+1) (shift+7) (result ||| ((byte &&& 127) <<< shift))
      else .ok (some (p+1,result ||| (byte <<< shift)))
  else .ok none
termination_by limit - p

def getVarint32PtrFallbackAt (load : Loads) (p limit : Nat) (value : UInt32) :
    Except LoadFault (Option Nat × UInt32) := do
  match ← readVarintAt 32 28 load limit p 0 0 with
  | some (q,result) => .ok (some q,⟨result⟩)
  | none => .ok (none,value)

def getVarint32PtrAt (load : Loads) (p limit : Nat) (value : UInt32) : Except LoadFault (Option Nat × UInt32) := do
  if p < limit then
    let result := (← load p).toUInt32
    if result &&& 128 = 0 then .ok (some (p+1),result) else getVarint32PtrFallbackAt load p limit value
  else getVarint32PtrFallbackAt load p limit value

def getVarint64PtrAt (load : Loads) (p limit : Nat) (value : UInt64) : Except LoadFault (Option Nat × UInt64) := do
  match ← readVarintAt 64 63 load limit p 0 0 with
  | some (q,result) => .ok (some q,⟨result⟩)
  | none => .ok (none,value)

/- The bytes may be read from there on; nothing is said of other addresses. -/
def Readable (load : Loads) : Nat → Bytes → Prop
  | _, [] => True
  | p, b::rest => load p = .ok b ∧ Readable load (p+1) rest

variable {load : Loads}

theorem readVarintInside {w last : Nat} (bytes : Bytes) {p : Nat} (readable : Readable load p bytes) (shift : Nat)
    (result : BitVec w) : readVarintAt w last load (p+bytes.length) p shift result =
      .ok ((readVarint w last bytes shift result).map fun r => (p+bytes.length-r.1.length,r.2)) := by
  induction bytes generalizing p shift result with
  | nil =>
    unfold readVarintAt readVarint
    rw [if_neg (fun inside => Nat.lt_irrefl p inside.2)]
    rfl
  | cons b rest ih =>
    obtain ⟨here,readable'⟩ := readable
    have limit : p+(b::rest).length = p+1+rest.length := by
      rw [List.length_cons]
      omega
    have next := ih readable'
    rw [← limit] at next
    unfold readVarintAt readVarint
    by_cases inside : shift ≤ last
    · rw [if_pos ⟨inside,by rw [limit]; omega⟩,if_pos inside,here]
      by_cases more : (b.toBitVec.setWidth w &&& 128 : BitVec w) ≠ 0
      · simp only [if_pos more,next]
      · have stop : p+(b::rest).length-rest.length = p+1 := by omega
        simp only [if_neg more,Option.map_some,stop]
    · rw [if_neg (fun both => inside both.1),if_neg inside]
      rfl

/- The end of a reader's result as an address below limit. -/
def endAt {α : Type} (limit : Nat) (out : Option Bytes × α) : Option Nat × α :=
  (out.1.map fun rest => limit-rest.length,out.2)

theorem fallbackInside {bytes : Bytes} {p : Nat} (readable : Readable load p bytes) (value : UInt32) :
    getVarint32PtrFallbackAt load p (p+bytes.length) value =
      .ok (endAt (p+bytes.length) (getVarint32PtrFallback bytes value)) := by
  unfold getVarint32PtrFallbackAt getVarint32PtrFallback
  rw [readVarintInside bytes readable]
  cases readVarint 32 28 bytes 0 0 <;> rfl

theorem getVarint32Inside {bytes : Bytes} {p : Nat} (readable : Readable load p bytes) (value : UInt32) :
    getVarint32PtrAt load p (p+bytes.length) value = .ok (endAt (p+bytes.length) (getVarint32Ptr bytes value)) := by
  have fallback := fallbackInside readable value
  unfold getVarint32PtrAt getVarint32Ptr
  cases bytes with
  | nil => rw [if_neg (by simp),fallback]
  | cons b rest =>
    have below : p < p+(b::rest).length := by simp
    rw [if_pos below,readable.1]
    by_cases fast : b.toUInt32 &&& 128 = 0
    · have stop : p+(b::rest).length-rest.length = p+1 := by
        rw [List.length_cons]
        omega
      simp only [bind,Except.bind,if_pos fast,endAt,Option.map_some,stop]
    · simp only [bind,Except.bind,if_neg fast,fallback]

theorem getVarint64Inside {bytes : Bytes} {p : Nat} (readable : Readable load p bytes) (value : UInt64) :
    getVarint64PtrAt load p (p+bytes.length) value = .ok (endAt (p+bytes.length) (getVarint64Ptr bytes value)) := by
  unfold getVarint64PtrAt getVarint64Ptr
  rw [readVarintInside bytes readable]
  cases readVarint 64 63 bytes 0 0 <;> rfl

end Pointers

/- The grammar: the number that a run of bytes stands for, seven bits of each. -/
def sevenBits (group : Bytes) : Nat := (group.mapIdx fun i b => b.toNat % 128 * 2^(7*i)).sum

/- What a reader of at most k bytes into a word of w bits does: the rest it leaves
and the variable afterwards, which held that value before. -/
structure ReadsVarint (k w : Nat) (p : Bytes) (value : Nat) (out : Option Bytes × Nat) : Prop where
  accepts : out.1.isSome ↔ ∃ b ∈ p.take k, b.toNat < 128
  consumes : ∀ q, out.1 = some q → ∃ front last, p = front ++ [last] ++ q ∧ front.length < k ∧
    (∀ b ∈ front, 128 ≤ b.toNat) ∧ last.toNat < 128 ∧ out.2 = sevenBits (front ++ [last]) % 2^w
  fails : out.1 = none → out.2 = value

theorem numberIs (group : Bytes) : Base128.number group = sevenBits group := by
  have digits : ((group.map fun b => b.toNat % 128).mapIdx fun i d => d * 128^i) =
      group.mapIdx fun i b => b.toNat % 128 * 2^(7*i) := by
    refine List.ext_getElem (by simp only [List.length_mapIdx,List.length_map]) ?_
    intro i _ _
    simp only [List.getElem_mapIdx,List.getElem_map,Nat.pow_mul]
  rw [Base128.number,Nat.ofDigits_eq_sum_mapIdx,digits,sevenBits]

theorem readsVarint {k w value : Nat} {p : Bytes} {out : Option Bytes × Nat}
    (is : out = match Base128.read k p with
      | some (n,q) => (some q,n % 2^w)
      | none => (none,value)) : ReadsVarint k w p value out := by
  cases done : Base128.read k p with
  | none =>
    rw [done] at is
    subst is
    have high := Base128.readFails.mp done
    have rejects : ¬ ∃ b ∈ p.take k, b.toNat < 128 := by
      intro ⟨b,mem,low⟩
      exact absurd low (Nat.not_lt.mpr (high b mem))
    exact ⟨⟨nofun,fun low => absurd low rejects⟩,nofun,fun _ => rfl⟩
  | some r =>
    obtain ⟨n,q⟩ := r
    rw [done] at is
    subst is
    obtain ⟨group,grouped,fits,split,number⟩ := Base128.readTakes done
    obtain ⟨front,last,ends,highs,low⟩ := Base128.groupSplits grouped
    subst ends
    have within : front.length < k := by simpa using fits
    have starts : front ++ [last] <+: p.take k := List.prefix_take_iff.mpr ⟨⟨q,split.symm⟩,fits⟩
    have member : last ∈ p.take k := starts.subset List.mem_concat_self
    have value : n % 2^w = sevenBits (front ++ [last]) % 2^w := by rw [number,numberIs]
    refine ⟨⟨fun _ => ⟨last,member,low⟩,fun _ => rfl⟩,?_,nofun⟩
    intro q' eq
    cases eq
    exact ⟨front,last,split,within,highs,low,value⟩

theorem reads32 (p : Bytes) (value : UInt32) : ReadsVarint 5 32 p value.toNat
    ((getVarint32Ptr p value).1,(getVarint32Ptr p value).2.toNat) := readsVarint (decodes32 p value)

theorem reads64 (p : Bytes) (value : UInt64) : ReadsVarint 10 64 p value.toNat
    ((getVarint64Ptr p value).1,(getVarint64Ptr p value).2.toNat) := readsVarint (decodes64 p value)

theorem fastPath (p : Bytes) (value : UInt32) : getVarint32Ptr p value = getVarint32PtrFallback p value := by
  rw [getVarint32PtrIs,fallbackIs]

/- What the narrow reader accepts, the wide one reads as well. -/
theorem wideReads (p : Bytes) (value : UInt32) (value' : UInt64) (q : Bytes)
    (read : (getVarint32Ptr p value).1 = some q) : (getVarint64Ptr p value').1 = some q ∧
      (getVarint64Ptr p value').2.toNat % 2^32 = (getVarint32Ptr p value).2.toNat := by
  rw [getVarint32PtrIs] at read ⊢
  rw [getVarint64PtrIs]
  cases done : Base128.read 5 p with
  | none =>
    rw [done] at read
    cases read
  | some r =>
    obtain ⟨n,rest⟩ := r
    rw [done] at read
    cases read
    obtain ⟨group,grouped,fits,split,number⟩ := Base128.readTakes done
    have wide := Base128.readGroup (k := 10) grouped q (Nat.le_trans fits (by decide))
    rw [← split,← number] at wide
    rw [wide]
    refine ⟨rfl,?_⟩
    simp only [UInt64.toNat_ofNat',UInt32.toNat_ofNat']
    omega

/- How the functions on slices use the reader: the input moves only on success. -/
def Moves {α : Type} (input : Bytes) (value : α) (read : Option Bytes × α) (out : Bool × Bytes × α) : Prop :=
  (∃ q, read.1 = some q ∧ out = (true,q,read.2)) ∨ (read.1 = none ∧ out = (false,input,value))

theorem moves32 (input : Bytes) (value : UInt32) :
    Moves input value (getVarint32Ptr input value) (getVarint32 input value) := by
  unfold getVarint32
  rw [getVarint32PtrIs]
  cases Base128.read 5 input with
  | none => exact .inr ⟨rfl,rfl⟩
  | some r => exact .inl ⟨r.2,rfl,rfl⟩

theorem moves64 (input : Bytes) (value : UInt64) :
    Moves input value (getVarint64Ptr input value) (getVarint64 input value) := by
  unfold getVarint64
  rw [getVarint64PtrIs]
  cases Base128.read 10 input with
  | none => exact .inr ⟨rfl,rfl⟩
  | some r => exact .inl ⟨r.2,rfl,rfl⟩

theorem slicePrefixReads (input result : Bytes) :
    ((getLengthPrefixedSlice input result).1 = true ↔
      ∃ q len, getVarint32 input 0 = (true,q,len) ∧ len.toNat ≤ q.length) ∧
    ∀ input' out, getLengthPrefixedSlice input result = (true,input',out) →
      ∃ front q len, getVarint32 input 0 = (true,q,len) ∧ input = front ++ q ∧ q = out ++ input' ∧
        out.length = len.toNat := by
  unfold getLengthPrefixedSlice
  rcases moves32 input 0 with ⟨q,read,moved⟩ | ⟨read,kept⟩
  · rw [moved]
    obtain ⟨front,last,split,_⟩ := (reads32 input 0).consumes q read
    by_cases enough : q.length ≥ (getVarint32Ptr input 0).2.toNat
    · simp only [if_pos enough]
      refine ⟨⟨fun _ => ⟨q,_,rfl,enough⟩,fun _ => trivial⟩,?_⟩
      intro input' out eq
      cases eq
      exact ⟨_,q,_,rfl,split,(List.take_append_drop _ q).symm,List.length_take_of_le enough⟩
    · simp only [if_neg enough]
      refine ⟨⟨nofun,?_⟩,nofun⟩
      intro ⟨q',len,eq,enough'⟩
      cases eq
      exact absurd enough' enough
  · rw [kept]
    exact ⟨⟨nofun,fun ⟨_,_,eq,_⟩ => by cases eq⟩,nofun⟩

theorem varintGrammar (p : Bytes) :
    (∀ value, ReadsVarint 5 32 p value.toNat ((getVarint32Ptr p value).1,(getVarint32Ptr p value).2.toNat) ∧
      Moves p value (getVarint32Ptr p value) (getVarint32 p value) ∧
      getVarint32Ptr p value = getVarint32PtrFallback p value) ∧
    (∀ value, ReadsVarint 10 64 p value.toNat ((getVarint64Ptr p value).1,(getVarint64Ptr p value).2.toNat) ∧
      Moves p value (getVarint64Ptr p value) (getVarint64 p value)) ∧
    (∀ value value' q, (getVarint32Ptr p value).1 = some q → (getVarint64Ptr p value').1 = some q ∧
      (getVarint64Ptr p value').2.toNat % 2^32 = (getVarint32Ptr p value).2.toNat) ∧
    (∀ load a, Readable load a p →
      (∀ value, getVarint32PtrAt load a (a+p.length) value = .ok (endAt (a+p.length) (getVarint32Ptr p value))) ∧
      ∀ value, getVarint64PtrAt load a (a+p.length) value = .ok (endAt (a+p.length) (getVarint64Ptr p value))) ∧
    ∀ result, ((getLengthPrefixedSlice p result).1 = true ↔
        ∃ q len, getVarint32 p 0 = (true,q,len) ∧ len.toNat ≤ q.length) ∧
      ∀ input' out, getLengthPrefixedSlice p result = (true,input',out) →
        ∃ front q len, getVarint32 p 0 = (true,q,len) ∧ p = front ++ q ∧ q = out ++ input' ∧
          out.length = len.toNat :=
  ⟨fun value => ⟨reads32 p value,moves32 p value,fastPath p value⟩,
    fun value => ⟨reads64 p value,moves64 p value⟩,
    fun value value' q read => wideReads p value value' q read,
    fun _ _ readable => ⟨getVarint32Inside readable,getVarint64Inside readable⟩,
    fun result => slicePrefixReads p result⟩

end KVStorage
