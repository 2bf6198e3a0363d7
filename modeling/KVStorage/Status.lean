import KVStorage.Slice

/-! Statuses as values: no state is success, any other state is a code with its
message. -/
namespace KVStorage

inductive StatuCode where
  | Ok
  | NotFound
  | Corruption
  | NotSupported
  | InvalidArgument
  | IOError
  deriving DecidableEq, Repr

def ascii (text : String) : Bytes := text.toList.map fun c => UInt8.ofNat c.toNat

/- The text that a message of this kind begins with. -/
def StatuCode.type : StatuCode → Bytes
  | .Ok => ascii "OK"
  | .NotFound => ascii "NotFound: "
  | .Corruption => ascii "Corruption: "
  | .NotSupported => ascii "Not implemented: "
  | .InvalidArgument => ascii "Invalid argument: "
  | .IOError => ascii "IO error: "

structure Status where
  state_ : Option (StatuCode × Bytes)
  deriving DecidableEq, Repr

namespace Status

def success : Status := ⟨none⟩

/- ": " stands between the two messages. -/
def make (code : StatuCode) (msg msg2 : Bytes) : Status :=
  ⟨some (code,if msg2 = [] then msg else msg ++ [58,32] ++ msg2)⟩

def notFound (msg msg2 : Bytes) : Status := make .NotFound msg msg2

def corruption (msg msg2 : Bytes) : Status := make .Corruption msg msg2

def notSupported (msg msg2 : Bytes) : Status := make .NotSupported msg msg2

def invalidArgument (msg msg2 : Bytes) : Status := make .InvalidArgument msg msg2

def ioError (msg msg2 : Bytes) : Status := make .IOError msg msg2

def ok (s : Status) : Bool := s.state_.isNone

def code (s : Status) : StatuCode :=
  match s.state_ with
  | none => .Ok
  | some (code,_) => code

def isNotFound (s : Status) : Bool := s.code = .NotFound

def isCorruption (s : Status) : Bool := s.code = .Corruption

def isNotSupported (s : Status) : Bool := s.code = .NotSupported

def isInvalidArgument (s : Status) : Bool := s.code = .InvalidArgument

def isIOError (s : Status) : Bool := s.code = .IOError

def toString (s : Status) : Bytes :=
  match s.state_ with
  | none => ascii "OK"
  | some (code,msg) => code.type ++ msg

end Status
end KVStorage
