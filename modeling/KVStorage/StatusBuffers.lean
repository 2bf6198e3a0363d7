import KVStorage.CodingStream
import KVStorage.StatusHeap

/-! What single operations on buffers do where new[] succeeds: a constructor and a
copy fill a new buffer completely, and the observers read it as the value it is. -/
namespace KVStorage

open Support

namespace StatusHeap

def live (heap : StatusHeap) (p : Nat) : Option Bytes := heap.lookup p

variable {heap : StatusHeap} {p start size : Nat} {bytes bytes' data original : Bytes}

theorem insertLive (heap : StatusHeap) (p : Nat) (bytes : Bytes) :
    live (heap.insert p bytes) = Function.update (live heap) p (some bytes) := by
  funext q
  by_cases here : q = p
  · subst here
    rw [Function.update_self]
    exact AList.lookup_insert heap
  · rw [Function.update_of_ne here]
    exact AList.lookup_insert_ne here

theorem eraseLive (heap : StatusHeap) (p : Nat) : live (heap.erase p) = Function.update (live heap) p none := by
  funext q
  by_cases here : q = p
  · subst here
    rw [Function.update_self]
    exact AList.lookup_erase q heap
  · rw [Function.update_of_ne here]
    exact AList.lookup_erase_ne here

theorem bufferLive (there : live heap p = some bytes) : heap.buffer p = .ok bytes := by
  unfold live at there
  rw [buffer,there]

theorem loadLive (there : live heap p = some bytes) (read : Buffer.read bytes start size = some data) :
    heap.load p start size = .ok data := by
  rw [load,bufferLive there]
  simp only [bind,Except.bind,read,inside]

theorem storeInserted (write : Buffer.write bytes start data = some bytes') :
    store (heap.insert p bytes) p start data = .ok (heap.insert p bytes') := by
  have there : live (heap.insert p bytes) p = some bytes := by rw [insertLive,Function.update_self]
  rw [store,bufferLive there]
  simp only [bind,Except.bind,write,inside,AList.insert_insert]

theorem deleteLive (there : live heap p = some bytes) : heap.deleteArray (some p) = .ok (heap.erase p) := by
  rw [deleteArray,bufferLive there]
  rfl

/- What is asked of operator new[]: it returns a block of that size, at an address
where no buffer is live. -/
def Honest (new : NewArray) : Prop :=
  ∀ heap size, ∃ p bytes, new heap size = some (p,bytes) ∧ live heap p = none ∧ bytes.length = size

theorem newArraySpec {new : NewArray} (honest : Honest new) (heap : StatusHeap) (size : Nat) :
    ∃ p bytes, newArray new heap size = some (p,heap.insert p bytes) ∧ live heap p = none ∧ bytes.length = size := by
  obtain ⟨p,bytes,made,free,length⟩ := honest heap size
  exact ⟨p,bytes,by rw [newArray,made]; rfl,free,length⟩

/- A store that continues where the earlier ones ended. -/
theorem storeNext (heap : StatusHeap) (p start : Nat) (data : Bytes) {done : Bytes}
    (filled : Buffer.Filled original done bytes) (here : start = done.length)
    (fits : start + data.length ≤ original.length) :
    ∃ bytes', store (heap.insert p bytes) p start data = .ok (heap.insert p bytes') ∧
      Buffer.Filled original (done ++ data) bytes' := by
  obtain ⟨bytes',write,filled'⟩ := Buffer.writeNext start data filled here fits
  exact ⟨bytes',storeInserted write,filled'⟩

end StatusHeap

namespace HeapStatus

open StatusHeap

/- The bytes of a buffer: the length of the message, the code, the message. -/
def layout (state : StatuCode × Bytes) : Bytes :=
  encodeFixed32 (UInt32.ofNat state.2.length) ++ [(codeValue state.1).toUInt8] ++ state.2

def Sized (state : StatuCode × Bytes) : Prop := state.1 ≠ .Ok ∧ state.2.length + 5 < 2^32

variable {heap : StatusHeap} {p : Nat} {state : StatuCode × Bytes} {new : NewArray}

theorem layoutLength (state : StatuCode × Bytes) : (layout state).length = state.2.length + 5 := by
  simp only [layout,encodeFixed32,List.length_append,List.length_cons,List.length_nil]
  omega

theorem sizePlusFive {n : Nat} (small : n + 5 < 2^32) : (UInt32.ofNat n + 5).toNat = n + 5 := by
  have five : (5 : UInt32).toNat = 5 := rfl
  simp only [UInt32.toNat_add,UInt32.toNat_ofNat',five]
  omega

theorem loadSizeSpec (there : live heap p = some (layout state)) :
    loadSize heap p = .ok (UInt32.ofNat state.2.length) := by
  have read : Buffer.read (layout state) 0 4 = some (encodeFixed32 (UInt32.ofNat state.2.length)) := by
    rw [layout,List.append_assoc]
    exact Buffer.readPart [] _ _ rfl rfl
  rw [loadSize,loadLive there read]
  have decoded := fixed32RoundTrip (UInt32.ofNat state.2.length) []
  rw [List.append_nil] at decoded
  simp only [bind,Except.bind,decoded]

theorem codeSpec (there : live heap p = some (layout state)) :
    code ⟨some p⟩ heap = .ok (codeValue state.1) := by
  have read : Buffer.read (layout state) 4 1 = some [(codeValue state.1).toUInt8] := Buffer.readPart _ _ _ rfl rfl
  simp only [code,loadLive there read,bind,Except.bind]
  rfl

theorem messageSpec (there : live heap p = some (layout state)) :
    heap.load p 5 state.2.length = .ok state.2 := by
  have read : Buffer.read (layout state) 5 state.2.length = some state.2 := by
    rw [layout,← List.append_nil (_ ++ state.2)]
    exact Buffer.readPart _ _ [] rfl rfl
  exact loadLive there read

theorem copyStateSpec (honest : Honest new) (there : live heap p = some (layout state)) (sized : Sized state) :
    ∃ q heap', copyState p new heap = .ok (some q,heap') ∧ live heap q = none ∧
      live heap' = Function.update (live heap) q (some (layout state)) := by
  have size := sizePlusFive sized.2
  obtain ⟨q,bytes,made,free,room⟩ := newArraySpec honest heap (state.2.length + 5)
  have apart : p ≠ q := by
    intro eq
    rw [eq,free] at there
    cases there
  have kept : live (heap.insert q bytes) p = some (layout state) := by
    rw [insertLive,Function.update_of_ne apart,there]
  have whole : StatusHeap.load (heap.insert q bytes) p 0 (state.2.length + 5) = .ok (layout state) := by
    rw [← layoutLength]
    exact loadLive kept (Buffer.readAll _)
  have full : (layout state).length = bytes.length := (layoutLength state).trans room.symm
  obtain ⟨bytes',stored,filled⟩ := storeNext heap q 0 (layout state) (Buffer.filledNothing bytes) rfl
    (by rw [full,Nat.zero_add])
  rw [List.nil_append] at filled
  have copied : bytes' = layout state := Buffer.filledWhole filled full
  subst copied
  refine ⟨q,heap.insert q (layout state),?_,free,insertLive ..⟩
  simp only [copyState,loadSizeSpec there,size,made,whole,stored,bind,Except.bind]

theorem wordLength {n : Nat} (small : n < 2^32) : (UInt32.ofNat n).toNat = n := UInt32.toNat_ofNat_of_lt' small

theorem wordZero {n : Nat} (small : n < 2^32) : UInt32.ofNat n ≠ 0 ↔ n ≠ 0 := by
  rw [ne_eq,← UInt32.toNat_inj,wordLength small]
  rfl

/- The header and the first message, which every error has. -/
theorem headStored (heap : StatusHeap) (p : Nat) (code : StatuCode) (word : UInt32) (msg bytes : Bytes)
    (fits : 5 + msg.length ≤ bytes.length) :
    ∃ bytes1 bytes2 bytes3, store (heap.insert p bytes) p 0 (encodeFixed32 word) = .ok (heap.insert p bytes1) ∧
      store (heap.insert p bytes1) p 4 [(codeValue code).toUInt8] = .ok (heap.insert p bytes2) ∧
      store (heap.insert p bytes2) p 5 msg = .ok (heap.insert p bytes3) ∧
      Buffer.Filled bytes (encodeFixed32 word ++ [(codeValue code).toUInt8] ++ msg) bytes3 := by
  obtain ⟨bytes1,first,filled1⟩ := storeNext heap p 0 (encodeFixed32 word) (Buffer.filledNothing bytes) rfl
    (by simp only [encodeFixed32,List.length_cons,List.length_nil]; omega)
  obtain ⟨bytes2,second,filled2⟩ := storeNext heap p 4 [(codeValue code).toUInt8]
    filled1 rfl (by simp only [List.length_cons,List.length_nil]; omega)
  obtain ⟨bytes3,third,filled3⟩ := storeNext heap p 5 msg filled2 rfl fits
  exact ⟨bytes1,bytes2,bytes3,first,second,third,filled3⟩

/- What a constructor leaves: a new buffer with the layout of that state. -/
def Made (heap : StatusHeap) (state : StatuCode × Bytes) (out : Outcome) : Prop :=
  ∃ p heap', out = .ok (some ⟨some p⟩,heap') ∧ live heap p = none ∧
    live heap' = Function.update (live heap) p (some (layout state))

theorem constructOne (honest : Honest new) (heap : StatusHeap) {code : StatuCode} (error : code ≠ .Ok) {msg : Bytes}
    (small : msg.length + 5 < 2^32) : Made heap (code,msg) (construct code msg [] new heap) := by
  have len1 := wordLength (n := msg.length) (by omega)
  have size := sizePlusFive small
  obtain ⟨p,bytes,made,free,room⟩ := newArraySpec honest heap (msg.length + 5)
  obtain ⟨bytes1,bytes2,bytes3,first,second,third,filled⟩ :=
    headStored heap p code (UInt32.ofNat msg.length) msg bytes (by omega)
  have whole : bytes3 = layout (code,msg) :=
    Buffer.filledWhole filled ((layoutLength (code,msg)).trans room.symm)
  subst whole
  refine ⟨p,_,?_,free,insertLive ..⟩
  have zero : UInt32.ofNat ([] : Bytes).length = 0 := rfl
  simp only [construct,if_neg error,zero,ne_eq,not_true_eq_false,if_false,UInt32.add_zero,size,made,len1,
    List.take_length,first,second,third,bind,Except.bind]

/- The separator and the second message, behind a front of five bytes and the first. -/
theorem tailStored (heap : StatusHeap) (p : Nat) {original front bytes msg : Bytes} (msg2 : Bytes)
    (filled : Buffer.Filled original (front ++ msg) bytes) (five : front.length = 5)
    (fits : 7 + msg.length + msg2.length ≤ original.length) :
    ∃ bytes1 bytes2 bytes3, store (heap.insert p bytes) p (5 + msg.length) [58] = .ok (heap.insert p bytes1) ∧
      store (heap.insert p bytes1) p (6 + msg.length) [32] = .ok (heap.insert p bytes2) ∧
      store (heap.insert p bytes2) p (7 + msg.length) msg2 = .ok (heap.insert p bytes3) ∧
      Buffer.Filled original (front ++ msg ++ [58] ++ [32] ++ msg2) bytes3 := by
  have front0 : 5 + msg.length = (front ++ msg).length := by rw [List.length_append,five]
  have front1 : 6 + msg.length = (front ++ msg ++ [58]).length := by
    rw [List.length_append,← front0,List.length_singleton]
    omega
  have front2 : 7 + msg.length = (front ++ msg ++ [58] ++ [32]).length := by
    rw [List.length_append,← front1,List.length_singleton]
    omega
  obtain ⟨bytes1,colon,filled1⟩ := storeNext heap p _ [58] filled front0
    (by rw [List.length_singleton]; omega)
  obtain ⟨bytes2,space,filled2⟩ := storeNext heap p _ [32] filled1 front1
    (by rw [List.length_singleton]; omega)
  obtain ⟨bytes3,last,filled3⟩ := storeNext heap p _ msg2 filled2 front2 fits
  exact ⟨bytes1,bytes2,bytes3,colon,space,last,filled3⟩

theorem constructTwo (honest : Honest new) (heap : StatusHeap) {code : StatuCode} (error : code ≠ .Ok)
    {msg msg2 joined : Bytes} (second : msg2 ≠ []) (small : msg.length + msg2.length + 7 < 2^32)
    (join : joined = msg ++ [58] ++ [32] ++ msg2) : Made heap (code,joined) (construct code msg msg2 new heap) := by
  have positive := List.length_pos_iff.mpr second
  have len1 := wordLength (n := msg.length) (by omega)
  have len2 := wordLength (n := msg2.length) (by omega)
  have other := (wordZero (n := msg2.length) (by omega)).mpr (by omega)
  have length : joined.length = msg.length + (2 + msg2.length) := by
    rw [join]
    simp only [List.length_append,List.length_singleton]
    omega
  have word : UInt32.ofNat msg.length + (2 + UInt32.ofNat msg2.length) = UInt32.ofNat joined.length := by
    rw [length,UInt32.ofNat_add,UInt32.ofNat_add]
    rfl
  have size := sizePlusFive (n := joined.length) (by omega)
  have colonAt : (5 + UInt32.ofNat msg.length).toNat = 5 + msg.length := by
    rw [UInt32.add_comm,sizePlusFive (by omega),Nat.add_comm]
  have spaceAt : (6 + UInt32.ofNat msg.length).toNat = 6 + msg.length := by
    have six : (6 : UInt32).toNat = 6 := rfl
    rw [UInt32.toNat_add,len1,six]
    omega
  obtain ⟨p,bytes,made,free,room⟩ := newArraySpec honest heap (joined.length + 5)
  obtain ⟨bytes1,bytes2,bytes3,size1,code2,msg3,filled3⟩ :=
    headStored heap p code (UInt32.ofNat joined.length) msg bytes (by omega)
  obtain ⟨bytes4,bytes5,bytes6,colon,space,last,filled6⟩ := tailStored heap p msg2 filled3 rfl (by omega)
  have pieces : encodeFixed32 (UInt32.ofNat joined.length) ++ [(codeValue code).toUInt8] ++ msg ++ [58] ++ [32] ++
      msg2 = layout (code,joined) := by
    have behind := congrArg (encodeFixed32 (UInt32.ofNat joined.length) ++ [(codeValue code).toUInt8] ++ ·) join
    simpa only [layout,List.append_assoc] using behind.symm
  rw [pieces] at filled6
  have whole : bytes6 = layout (code,joined) :=
    Buffer.filledWhole filled6 ((layoutLength (code,joined)).trans room.symm)
  subst whole
  refine ⟨p,_,?_,free,insertLive ..⟩
  have colon' : ascii ":" = [58] := rfl
  have space' : ascii " " = [32] := rfl
  simp only [construct,if_neg error,if_pos other,word,size,made,len1,len2,List.take_length,colon',space',colonAt,
    spaceAt,size1,code2,msg3,colon,space,last,bind,Except.bind]

theorem constructSpec (honest : Honest new) (heap : StatusHeap) (code : StatuCode) (error : code ≠ .Ok)
    {msg msg2 : Bytes} (small : msg.length + msg2.length + 7 < 2^32) :
    ∃ state, (Status.make code msg msg2).state_ = some state ∧ Sized state ∧
      Made heap state (construct code msg msg2 new heap) := by
  by_cases second : msg2 = []
  · subst second
    exact ⟨(code,msg),rfl,⟨error,by simp only; omega⟩,constructOne honest heap error (by omega)⟩
  · have state : (Status.make code msg msg2).state_ = some (code,msg ++ [58] ++ [32] ++ msg2) := by
      simp only [Status.make,if_neg second,List.append_assoc,List.cons_append,List.nil_append]
    have sized : Sized (code,msg ++ [58] ++ [32] ++ msg2) := by
      refine ⟨error,?_⟩
      simp only [List.length_append,List.length_singleton]
      omega
    exact ⟨_,state,sized,constructTwo honest heap error second small rfl⟩

/- The factory functions, each with its code. -/
inductive Factory where
  | notFound
  | corruption
  | notSupported
  | invalidArgument
  | ioError
  deriving DecidableEq, Repr

def Factory.build : Factory → Bytes → Bytes → NewArray → StatusHeap → Outcome
  | .notFound => HeapStatus.notFound
  | .corruption => HeapStatus.corruption
  | .notSupported => HeapStatus.notSupported
  | .invalidArgument => HeapStatus.invalidArgument
  | .ioError => HeapStatus.ioError

def Factory.value : Factory → Bytes → Bytes → Status
  | .notFound => Status.notFound
  | .corruption => Status.corruption
  | .notSupported => Status.notSupported
  | .invalidArgument => Status.invalidArgument
  | .ioError => Status.ioError

def Factory.code : Factory → StatuCode
  | .notFound => .NotFound
  | .corruption => .Corruption
  | .notSupported => .NotSupported
  | .invalidArgument => .InvalidArgument
  | .ioError => .IOError

theorem codeError (f : Factory) : f.code ≠ .Ok := by cases f <;> decide

theorem buildIs (f : Factory) : f.build = construct f.code := by cases f <;> rfl

theorem valueIs (f : Factory) : f.value = Status.make f.code := by cases f <;> rfl

theorem buildSpec (honest : Honest new) (heap : StatusHeap) (f : Factory) {msg msg2 : Bytes}
    (small : msg.length + msg2.length + 7 < 2^32) :
    ∃ state, (f.value msg msg2).state_ = some state ∧ Sized state ∧ Made heap state (f.build msg msg2 new heap) := by
  rw [buildIs,valueIs]
  exact constructSpec honest heap f.code (codeError f) small

/- An object and a value that no observer tells apart. -/
inductive Shows (heap : StatusHeap) : HeapStatus → Status → Prop where
  | success : Shows heap ⟨none⟩ ⟨none⟩
  | error {q : Nat} {held : StatuCode × Bytes} (there : live heap q = some (layout held)) (sized : Sized held) :
      Shows heap ⟨some q⟩ ⟨some held⟩

structure Observed (heap : StatusHeap) (s : HeapStatus) (v : Status) : Prop where
  ok : s.ok = v.ok
  isNotFound : s.isNotFound heap = .ok v.isNotFound
  isCorruption : s.isCorruption heap = .ok v.isCorruption
  isNotSupported : s.isNotSupported heap = .ok v.isNotSupported
  isInvalidArgument : s.isInvalidArgument heap = .ok v.isInvalidArgument
  isIOError : s.isIOError heap = .ok v.isIOError
  toString : s.toString heap = .ok v.toString

theorem codeInjective {c d : StatuCode} : codeValue c = codeValue d ↔ c = d := by
  constructor
  · cases c <;> cases d <;> first | exact fun _ => rfl | (intro same; cases same)
  · intro same
    rw [same]

theorem typeSpec (c : StatuCode) : type (codeValue c) = c.type := by cases c <;> rfl

variable {s : HeapStatus} {v : Status}

theorem codeShown (shows : Shows heap s v) : s.code heap = .ok (codeValue v.code) := by
  cases shows with
  | success => rfl
  | error there sized => exact codeSpec there

theorem hasCodeShown (shows : Shows heap s v) (c : StatuCode) : s.hasCode c heap = .ok (decide (v.code = c)) := by
  simp only [hasCode,codeShown shows,bind,Except.bind,codeInjective]

theorem toStringShown (shows : Shows heap s v) : s.toString heap = .ok v.toString := by
  cases shows with
  | success => rfl
  | @error q held there sized =>
    have length := wordLength (n := held.2.length) (by have := sized.2; omega)
    simp only [toString,codeSpec there,loadSizeSpec there,length,messageSpec there,typeSpec,bind,Except.bind]
    rfl

theorem shownObserved (shows : Shows heap s v) : Observed heap s v where
  ok := by cases shows <;> rfl
  isNotFound := hasCodeShown shows .NotFound
  isCorruption := hasCodeShown shows .Corruption
  isNotSupported := hasCodeShown shows .NotSupported
  isInvalidArgument := hasCodeShown shows .InvalidArgument
  isIOError := hasCodeShown shows .IOError
  toString := toStringShown shows

end HeapStatus
end KVStorage
