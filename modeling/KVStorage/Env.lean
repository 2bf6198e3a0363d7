import KVStorage.Status
import KVStorage.Support.Loop
import KVStorage.Support.Machine

/-! The environment: an implementation acts on a state of its own, σ, and a file
object is the table of its virtual functions on that state. -/
namespace KVStorage

open Support

/- A call that acts on the environment's state and returns a value. -/
abbrev Call (σ α : Type) := σ → α × σ

structure SequentialFile (σ : Type) where
  read : Nat → Call σ (Status × Bytes)
  skip : UInt64 → Call σ Status
  destroy : σ → σ

structure RandomAccessFile (σ : Type) where
  read : UInt64 → Nat → Call σ (Status × Bytes)
  destroy : σ → σ

structure WritableFile (σ : Type) where
  append : Bytes → Call σ Status
  close : Call σ Status
  flush : Call σ Status
  sync : Call σ Status
  destroy : σ → σ

structure Logger (σ : Type) where
  logv : Bytes → List UInt64 → σ → σ
  destroy : σ → σ

/- Locks, functions for threads and their arguments are addresses. An output
that the caller initialises is also an input. -/
structure Env (σ : Type) where
  newSequentialFile : Bytes → Call σ (Status × Option (SequentialFile σ))
  newRandomAccessFile : Bytes → Call σ (Status × Option (RandomAccessFile σ))
  newWritableFile : Bytes → Call σ (Status × Option (WritableFile σ))
  newAppendableFile : Bytes → Call σ (Status × Option (WritableFile σ))
  fileExists : Bytes → Call σ Bool
  getChildren : Bytes → List Bytes → Call σ (Status × List Bytes)
  removeFile : Bytes → Call σ Status
  deleteFile : Bytes → Call σ Status := removeFile
  createDir : Bytes → Call σ Status
  removeDir : Bytes → Call σ Status
  deleteDir : Bytes → Call σ Status := removeDir
  getFileSize : Bytes → UInt64 → Call σ (Status × UInt64)
  renameFile : Bytes → Bytes → Call σ Status
  lockFile : Bytes → Call σ (Status × Option Nat)
  unlockFile : Nat → Call σ Status
  schedule : Nat → Nat → σ → σ
  startThread : Nat → Nat → σ → σ
  getTestDirectory : Bytes → Call σ (Status × Bytes)
  newLogger : Bytes → Call σ (Status × Option (Logger σ))
  nowTimeMicros : Call σ UInt64
  sleepForMicroseconds : Int → σ → σ

namespace Env

inductive Fault where
  | nullPointer
  | limit
  deriving DecidableEq, Repr

variable {σ : Type}

def deref {F : Type} : Option F → Except Fault F
  | none => .error .nullPointer
  | some file => .ok file

def doWriteStringToFile (env : Env σ) (data frame : Bytes) (may_sync : Bool) (w : σ) :
    Except Fault (Status × σ) := do
  let ((s,file),w) := env.newWritableFile frame w
  if !s.ok then .ok (s,w)
  else
    let file ← deref file
    let (s,w) := file.append data w
    let (s,w) := if s.ok && may_sync then file.sync w else (s,w)
    let (s,w) := if s.ok then file.close w else (s,w)
    let w := file.destroy w
    if !s.ok then .ok (s,(env.deleteFile frame w).2) else .ok (s,w)

def writeStringToFile (env : Env σ) (data fname : Bytes) (w : σ) : Except Fault (Status × σ) :=
  doWriteStringToFile env data fname false w

def s_buffer_size : Nat := 8192

/- One round of the loop: the data so far and the state. -/
def readRound (file : SequentialFile σ) (r : Bytes × σ) :
    Except Fault (Loop.Step (Bytes × σ) (Status × Bytes × σ)) :=
  let (data,w) := r
  let ((s,fragment),w) := file.read s_buffer_size w
  if !s.ok then .ok (.done (s,data,w))
  else
    let data := data ++ fragment
    if fragment = [] then .ok (.done (s,data,w)) else .ok (.again (data,w))

/- The caller's string is cleared first, so only what is put in it matters. -/
def readFileToString (env : Env σ) (fname : Bytes) (fuel : Nat) (w : σ) : Except Fault (Status × Bytes × σ) := do
  let ((s,file),w) := env.newSequentialFile fname w
  if !s.ok then .ok (s,[],w)
  else
    let file ← deref file
    let (s,data,w) ← Loop.run (readRound file) .limit fuel ([],w)
    .ok (s,data,file.destroy w)

end Env
end KVStorage
