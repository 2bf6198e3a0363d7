import KVStorage.FileRoundTrip

/-! The wrapper of an environment, and when a caller can tell it from its target:
it forwards every operation but the two that have a body in the base class. -/
namespace KVStorage

open Support

/- deleteFile and deleteDir are not overridden, so they keep the bodies of Env. -/
def envWrapper {σ : Type} (target : Env σ) : Env σ where
  newSequentialFile f := target.newSequentialFile f
  newRandomAccessFile f := target.newRandomAccessFile f
  newWritableFile f := target.newWritableFile f
  newAppendableFile f := target.newAppendableFile f
  fileExists f := target.fileExists f
  getChildren dir r := target.getChildren dir r
  removeFile f := target.removeFile f
  createDir d := target.createDir d
  removeDir d := target.removeDir d
  getFileSize f s := target.getFileSize f s
  renameFile s t := target.renameFile s t
  lockFile f := target.lockFile f
  unlockFile l := target.unlockFile l
  schedule f a := target.schedule f a
  startThread f a := target.startThread f a
  getTestDirectory path := target.getTestDirectory path
  newLogger fname := target.newLogger fname
  nowTimeMicros := target.nowTimeMicros
  sleepForMicroseconds micros := target.sleepForMicroseconds micros

namespace Env

/- The calls a user of an environment can make, with their arguments. -/
inductive Request where
  | newSequentialFile (fname : Bytes)
  | newRandomAccessFile (fname : Bytes)
  | newWritableFile (fname : Bytes)
  | newAppendableFile (fname : Bytes)
  | fileExists (fname : Bytes)
  | getChildren (dir : Bytes) (res : List Bytes)
  | removeFile (fname : Bytes)
  | deleteFile (fname : Bytes)
  | createDir (dirname : Bytes)
  | removeDir (dirname : Bytes)
  | deleteDir (dirname : Bytes)
  | getFileSize (fname : Bytes) (file_size : UInt64)
  | renameFile (src target : Bytes)
  | lockFile (fname : Bytes)
  | unlockFile (lock : Nat)
  | schedule (function arg : Nat)
  | startThread (function arg : Nat)
  | getTestDirectory (path : Bytes)
  | newLogger (fname : Bytes)
  | nowTimeMicros
  | sleepForMicroseconds (micros : Int)
  deriving DecidableEq, Repr

/- What a call gives back: its value and its outputs. -/
inductive Answer (σ : Type) where
  | status (s : Status)
  | sequentialFile (s : Status) (res : Option (SequentialFile σ))
  | randomAccessFile (s : Status) (res : Option (RandomAccessFile σ))
  | writableFile (s : Status) (res : Option (WritableFile σ))
  | found (b : Bool)
  | children (s : Status) (res : List Bytes)
  | size (s : Status) (file_size : UInt64)
  | lock (s : Status) (lock : Option Nat)
  | path (s : Status) (path : Bytes)
  | logger (s : Status) (res : Option (Logger σ))
  | micros (n : UInt64)
  | unit

variable {σ : Type}

def answer {α : Type} (make : α → Answer σ) (call : Call σ α) : Call σ (Answer σ) :=
  fun w => (make (call w).1,(call w).2)

def issue (env : Env σ) : Request → Call σ (Answer σ)
  | .newSequentialFile fname => answer (fun r => .sequentialFile r.1 r.2) (env.newSequentialFile fname)
  | .newRandomAccessFile fname => answer (fun r => .randomAccessFile r.1 r.2) (env.newRandomAccessFile fname)
  | .newWritableFile fname => answer (fun r => .writableFile r.1 r.2) (env.newWritableFile fname)
  | .newAppendableFile fname => answer (fun r => .writableFile r.1 r.2) (env.newAppendableFile fname)
  | .fileExists fname => answer .found (env.fileExists fname)
  | .getChildren dir res => answer (fun r => .children r.1 r.2) (env.getChildren dir res)
  | .removeFile fname => answer .status (env.removeFile fname)
  | .deleteFile fname => answer .status (env.deleteFile fname)
  | .createDir dirname => answer .status (env.createDir dirname)
  | .removeDir dirname => answer .status (env.removeDir dirname)
  | .deleteDir dirname => answer .status (env.deleteDir dirname)
  | .getFileSize fname file_size => answer (fun r => .size r.1 r.2) (env.getFileSize fname file_size)
  | .renameFile src target => answer .status (env.renameFile src target)
  | .lockFile fname => answer (fun r => .lock r.1 r.2) (env.lockFile fname)
  | .unlockFile lock => answer .status (env.unlockFile lock)
  | .schedule function arg => fun w => (.unit,env.schedule function arg w)
  | .startThread function arg => fun w => (.unit,env.startThread function arg w)
  | .getTestDirectory path => answer (fun r => .path r.1 r.2) (env.getTestDirectory path)
  | .newLogger fname => answer (fun r => .logger r.1 r.2) (env.newLogger fname)
  | .nowTimeMicros => answer .micros env.nowTimeMicros
  | .sleepForMicroseconds micros => fun w => (.unit,env.sleepForMicroseconds micros w)

def issueAll (env : Env σ) : List Request → Call σ (List (Answer σ)) := Machine.answers env.issue

/- The target's own deletion does what its removal does, for this call in this
state. No other call has a condition. -/
def Inherits (target : Env σ) : Request → σ → Prop
  | .deleteFile fname, w => target.deleteFile fname w = target.removeFile fname w
  | .deleteDir dirname, w => target.deleteDir dirname w = target.removeDir dirname w
  | _, _ => True

theorem answerStatus (call other : Call σ Status) (w : σ) :
    answer .status call w = answer .status other w ↔ other w = call w := by
  simp only [answer,Answer.status.injEq,Prod.ext_iff]
  exact and_congr eq_comm eq_comm

theorem wrapperForwards (target : Env σ) (request : Request) (w : σ) :
    (envWrapper target).issue request w = target.issue request w ↔ Inherits target request w := by
  cases request with
  | deleteFile fname => exact answerStatus (target.removeFile fname) (target.deleteFile fname) w
  | deleteDir dirname => exact answerStatus (target.removeDir dirname) (target.deleteDir dirname) w
  | _ => exact ⟨fun _ => trivial,fun _ => rfl⟩

/- Along a run: every prefix of the calls is transparent exactly where each deletion
meets a state in which the target deletes as it removes. -/
theorem transparentRun (target : Env σ) (requests : List Request) (w : σ) :
    (∀ before, before <+: requests → (envWrapper target).issueAll before w = target.issueAll before w) ↔
      Machine.Along (Inherits target) target.issue requests w :=
  (Machine.agreeOnPrefixes requests w).trans (Machine.alongCongr (wrapperForwards target) requests w)

theorem wrapperTransparency (target : Env σ) :
    (∀ requests w, (∀ before, before <+: requests →
        (envWrapper target).issueAll before w = target.issueAll before w) ↔
      Machine.Along (Inherits target) target.issue requests w) ∧
    ((∀ requests w, (envWrapper target).issueAll requests w = target.issueAll requests w) ↔
      (∀ fname w, target.deleteFile fname w = target.removeFile fname w) ∧
      ∀ dirname w, target.deleteDir dirname w = target.removeDir dirname w) := by
  refine ⟨fun requests w => transparentRun target requests w,?_⟩
  constructor
  · intro transparent
    have single : ∀ request w, Inherits target request w := by
      intro request w
      have along := (transparentRun target [request] w).mp (fun before _ => transparent before w)
      exact along.1
    exact ⟨fun fname w => single (.deleteFile fname) w,fun dirname w => single (.deleteDir dirname) w⟩
  · intro ⟨files,dirs⟩ requests w
    have always : ∀ request w, Inherits target request w := by
      intro request w
      cases request with
      | deleteFile fname => exact files fname w
      | deleteDir dirname => exact dirs dirname w
      | _ => trivial
    exact (transparentRun target requests w).mpr (Machine.alongAll always requests w) requests (List.prefix_refl _)

/- An environment that overrides both deletions: they put the name aside first,
so they do not fail where a removal does. -/
def Memory.deleting : Env Memory :=
  {Memory.asEnv with
    deleteFile := fun fname m => (.success,m.put fname none)
    deleteDir := fun dirname m => (.success,m.put dirname none)}

theorem wrapperMissesOverride :
    ¬ ∀ (target : Env Memory) (requests : List Request) (w : Memory),
      (envWrapper target).issueAll requests w = target.issueAll requests w := by
  intro transparent
  have same := transparent Memory.deleting [.deleteFile [102]] ⟨fun _ => some [1],[],[true]⟩
  have script := congrArg (fun r => r.2.script) same
  cases script

end Env
end KVStorage
