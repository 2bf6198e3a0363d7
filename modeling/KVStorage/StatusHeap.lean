import KVStorage.Coding
import KVStorage.Status
import KVStorage.Support.Buffer
import KVStorage.Support.Machine
import KVStorage.Support.Ownership
import Mathlib.Data.List.AList

/-! The class Status over an explicit heap: an object holds a raw pointer to a
buffer from new[], or null. operator new[] picks an address apart from the live
buffers and leaves any bytes there, or throws. -/
namespace KVStorage

open Support

/- The live buffers by their addresses. -/
abbrev StatusHeap := AList fun _ : Nat => Bytes

/- Nothing where it throws. -/
abbrev NewArray := StatusHeap → Nat → Option (Nat × Bytes)

structure HeapStatus where
  state_ : Option Nat
  deriving DecidableEq, Repr

namespace StatusHeap

inductive Fault where
  | assertion
  | notLive
  | outOfBounds
  | noObject
  deriving DecidableEq, Repr

def buffer (heap : StatusHeap) (p : Nat) : Except Fault Bytes :=
  match heap.lookup p with
  | none => .error .notLive
  | some bytes => .ok bytes

def inside : Option Bytes → Except Fault Bytes
  | none => .error .outOfBounds
  | some bytes => .ok bytes

def load (heap : StatusHeap) (p start size : Nat) : Except Fault Bytes := do
  inside (Buffer.read (← heap.buffer p) start size)

def store (heap : StatusHeap) (p start : Nat) (data : Bytes) : Except Fault StatusHeap := do
  let bytes ← inside (Buffer.write (← heap.buffer p) start data)
  .ok (heap.insert p bytes)

def newArray (new : NewArray) (heap : StatusHeap) (size : Nat) : Option (Nat × StatusHeap) :=
  (new heap size).map fun (p,bytes) => (p,heap.insert p bytes)

def deleteArray (heap : StatusHeap) : Option Nat → Except Fault StatusHeap
  | none => .ok heap
  | some p => do
    let _ ← heap.buffer p
    .ok (heap.erase p)

end StatusHeap

namespace HeapStatus

open StatusHeap

/- Values of the enum are those of its underlying type. -/
def codeValue : StatuCode → Int8
  | .Ok => 0
  | .NotFound => 1
  | .Corruption => 2
  | .NotSupported => 3
  | .InvalidArgument => 4
  | .IOError => 5

/- memcpy of a uint32_t, least byte first. -/
def loadSize (heap : StatusHeap) (state : Nat) : Except StatusHeap.Fault UInt32 := do
  match decodeFixed32 (← heap.load state 0 4) with
  | none => .error .outOfBounds
  | some size => .ok size

/- What a constructor leaves: no object where new[] throws. -/
abbrev Outcome := Except StatusHeap.Fault (Option HeapStatus × StatusHeap)

/- The constructor of an error. -/
def construct (code : StatuCode) (msg msg2 : Bytes) (new : NewArray) (heap : StatusHeap) : Outcome :=
  if code = .Ok then .error .assertion
  else
    let len1 := UInt32.ofNat msg.length
    let len2 := UInt32.ofNat msg2.length
    let size := len1 + (if len2 ≠ 0 then 2 + len2 else 0)
    match newArray new heap (size + 5).toNat with
    | none => .ok (none,heap)
    | some (result,heap) => do
      let heap ← heap.store result 0 (encodeFixed32 size)
      let heap ← heap.store result 4 [(codeValue code).toUInt8]
      let heap ← heap.store result 5 (msg.take len1.toNat)
      if len2 ≠ 0 then
        let heap ← heap.store result (5 + len1).toNat (ascii ":")
        let heap ← heap.store result (6 + len1).toNat (ascii " ")
        let heap ← heap.store result (7 + len1.toNat) (msg2.take len2.toNat)
        .ok (some ⟨some result⟩,heap)
      else .ok (some ⟨some result⟩,heap)

def notFound (msg msg2 : Bytes) := construct .NotFound msg msg2

def corruption (msg msg2 : Bytes) := construct .Corruption msg msg2

def notSupported (msg msg2 : Bytes) := construct .NotSupported msg msg2

def invalidArgument (msg msg2 : Bytes) := construct .InvalidArgument msg msg2

def ioError (msg msg2 : Bytes) := construct .IOError msg msg2

def success : HeapStatus := ⟨none⟩

def copyState (state : Nat) (new : NewArray) (heap : StatusHeap) :
    Except StatusHeap.Fault (Option Nat × StatusHeap) := do
  let size ← loadSize heap state
  match newArray new heap (size + 5).toNat with
  | none => .ok (none,heap)
  | some (result,heap) => do
    let heap ← heap.store result 0 (← heap.load state 0 (size + 5).toNat)
    .ok (some result,heap)

def copyConstruct (rhs : HeapStatus) (new : NewArray) (heap : StatusHeap) : Outcome :=
  match rhs.state_ with
  | none => .ok (some ⟨none⟩,heap)
  | some state => do
    let (copied,heap) ← copyState state new heap
    .ok (copied.map fun p => ⟨some p⟩,heap)

/- Whether it returns, and the object and the heap it leaves. Where new[] throws
the object still holds the pointer it has released. -/
def copyAssign (s rhs : HeapStatus) (new : NewArray) (heap : StatusHeap) :
    Except StatusHeap.Fault (Bool × HeapStatus × StatusHeap) :=
  if s.state_ ≠ rhs.state_ then do
    let heap ← heap.deleteArray s.state_
    match rhs.state_ with
    | none => .ok (true,⟨none⟩,heap)
    | some state =>
      let (copied,heap) ← copyState state new heap
      match copied with
      | none => .ok (false,s,heap)
      | some p => .ok (true,⟨some p⟩,heap)
  else .ok (true,s,heap)

/- The object made, and the one it is moved from. -/
def moveConstruct (rhs : HeapStatus) : HeapStatus × HeapStatus := (⟨rhs.state_⟩,⟨none⟩)

def moveAssign (s rhs : HeapStatus) : HeapStatus × HeapStatus := (⟨rhs.state_⟩,⟨s.state_⟩)

def destroy (s : HeapStatus) (heap : StatusHeap) : Except StatusHeap.Fault StatusHeap := heap.deleteArray s.state_

def ok (s : HeapStatus) : Bool := s.state_ = none

def code (s : HeapStatus) (heap : StatusHeap) : Except StatusHeap.Fault Int8 :=
  match s.state_ with
  | none => .ok (codeValue .Ok)
  | some state => do
    match ← heap.load state 4 1 with
    | [b] => .ok b.toInt8
    | _ => .error .outOfBounds

def hasCode (c : StatuCode) (s : HeapStatus) (heap : StatusHeap) : Except StatusHeap.Fault Bool := do
  .ok ((← s.code heap) = codeValue c)

def isNotFound := hasCode .NotFound

def isCorruption := hasCode .Corruption

def isNotSupported := hasCode .NotSupported

def isInvalidArgument := hasCode .InvalidArgument

def isIOError := hasCode .IOError

/- The switch of toString with its default branch. -/
def type (code : Int8) : Bytes :=
  if code = 0 then ascii "OK"
  else if code = 1 then ascii "NotFound: "
  else if code = 2 then ascii "Corruption: "
  else if code = 3 then ascii "Not implemented: "
  else if code = 4 then ascii "Invalid argument: "
  else if code = 5 then ascii "IO error: "
  else ascii ("Unknown code(" ++ ToString.toString code.toInt ++ "): ")

def toString (s : HeapStatus) (heap : StatusHeap) : Except StatusHeap.Fault Bytes :=
  match s.state_ with
  | none => .ok (ascii "OK")
  | some state => do
    let type := type (← s.code heap)
    let length ← loadSize heap state
    .ok (type ++ (← heap.load state 5 length.toNat))

end HeapStatus
end KVStorage
