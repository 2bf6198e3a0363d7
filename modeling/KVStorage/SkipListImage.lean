import KVStorage.Arena
import KVStorage.Coding
import KVStorage.SkipListIterator
import KVStorage.Support.Buffer
import KVStorage.Support.Memory

/-! The skip list as bytes in an arena: a node is its key, then nexts_ with eight
bytes for each level, and a pointer is an address, null being zero. Reading a byte
nobody stored is a fault; reading or writing another node's bytes is not. -/
namespace KVStorage.SkipList

open Support

/- A key type as the compiler lays it out. -/
structure Layout (Key : Type) where
  sizeofKey : Nat
  bytes : Key → Bytes
  read : Bytes → Option Key
  sized : ∀ key, (bytes key).length = sizeofKey
  readBytes : ∀ key, read (bytes key) = some key
  small : sizeofKey < 2^32

namespace Layout

variable {Key : Type} (l : Layout Key)

def nextsOffset : Nat := (l.sizeofKey+7)/8*8

def sizeofNode : Nat := l.nextsOffset+Arena.sizeofPointer

def nodeBytes (height : Nat) : Nat := l.sizeofNode+Arena.sizeofPointer*(height-1)

def keyOf (x : Ptr) : Region := ⟨x,l.sizeofKey⟩

def cell (x : Ptr) (n : Nat) : Region := ⟨x+l.nextsOffset+Arena.sizeofPointer*n,Arena.sizeofPointer⟩

end Layout

def pointerBytes (x : Option Ptr) : Bytes := encodeFixed64 (UInt64.ofNat (x.getD 0))

def pointerOf (data : Bytes) : Option Ptr :=
  let x := Words.littleEndian data
  if x = 0 then none else some x

/- What ends a call besides the list's own faults: the arena's, and another user of
the arena who writes outside the memory it was given. -/
inductive Trap where
  | list (fault : Fault)
  | arena (fault : Arena.Fault)
  | outside
  deriving DecidableEq, Repr

structure Image where
  use : Arena.Use
  memory : Memory UInt8
  head_ : Ptr
  max_height_ : Nat
  rnd_ : Random

namespace Image

variable {Key : Type} (l : Layout Key)

def key (w : Image) (x : Ptr) : Except Fault Key :=
  match (w.memory.load (l.keyOf x)).bind l.read with
  | some key => .ok key
  | none => .error .memory

def next (w : Image) (x : Ptr) (n : Nat) : Except Fault (Option Ptr) :=
  match w.memory.load (l.cell x n) with
  | some data => .ok (pointerOf data)
  | none => .error .memory

def setNext (w : Image) (x : Ptr) (n : Nat) (y : Option Ptr) : Image :=
  {w with memory := w.memory.store (l.cell x n).base (pointerBytes y)}

def getMaxHeight (w : Image) : Nat := w.max_height_

/- One request to the arena, which its users and the list make alike. -/
def request (operatorNew : Arena.OperatorNew) (w : Image) (call : Arena.Call) :
    Except Arena.Fault (Image × Nat) := do
  let (res,state) ← call.serve operatorNew w.use.state
  .ok ({w with use := ⟨state,w.use.issued ++ [⟨call,res⟩]⟩},res)

def newNode (operatorNew : Arena.OperatorNew) (w : Image) (key : Key) (height : Nat) :
    Except Arena.Fault (Image × Ptr) := do
  let (w,node_memory) ← w.request operatorNew (.allocateAligned (l.nodeBytes height))
  .ok ({w with memory := w.memory.store node_memory (l.bytes key)},node_memory)

def new (operatorNew : Arena.OperatorNew) (memory : Memory UInt8) (zero : Key) : Except Arena.Fault Image := do
  let (w,head_) ← newNode l operatorNew ⟨.new,memory,0,1,Random.new 0xdeadbeef⟩ zero s_max_height_
  .ok ((List.range s_max_height_).foldl (fun w i => w.setNext l w.head_ i none) {w with head_})

section Search

variable (compare_ : Key → Key → Int)

def keyIsAfterNode (w : Image) (key : Key) : Option Ptr → Except Fault Bool
  | none => .ok false
  | some n => do
    let k ← w.key l n
    .ok (decide (compare_ k key < 0))

def searchRound (w : Image) (check : Ptr → Except Fault Unit) (right : Option Ptr → Except Fault Bool)
    (s : Search) : Except Fault (Loop.Step Search Found) := do
  check s.x
  let next ← w.next l s.x s.level
  let goes ← right next
  advance s next goes

/- Every node is one of the arena's answers. -/
def rounds (w : Image) : Nat := s_max_height_+w.use.issued.length

def search (w : Image) (check : Ptr → Except Fault Unit) (right : Option Ptr → Except Fault Bool)
    (prev : Option Prev) : Except Fault Found :=
  Loop.run (w.searchRound l check right) .rounds w.rounds ⟨w.head_,w.getMaxHeight-1,prev⟩

def findGreateOrEqual (w : Image) (key : Key) (prev : Option Prev) : Except Fault (Option Ptr × Option Prev) := do
  let found ← w.search l noCheck (w.keyIsAfterNode l compare_ key) prev
  .ok (found.next,found.prev)

def xIsBeforeKey (w : Image) (key : Key) (x : Ptr) : Except Fault Unit :=
  if x = w.head_ then .ok () else do
    let k ← w.key l x
    if compare_ k key < 0 then .ok () else .error .assertion

def nextIsBeforeKey (w : Image) (key : Key) : Option Ptr → Except Fault Bool
  | none => .ok false
  | some n => do
    let k ← w.key l n
    .ok (!decide (compare_ k key ≥ 0))

def findLessThan (w : Image) (key : Key) : Except Fault Ptr := do
  let found ← w.search l (w.xIsBeforeKey l compare_ key) (w.nextIsBeforeKey l compare_ key) none
  .ok found.x

def findLast (w : Image) : Except Fault Ptr := do
  let found ← w.search l noCheck (fun next => .ok next.isSome) none
  .ok found.x

def contains (w : Image) (key : Key) : Except Fault Bool := do
  let (x,_) ← w.findGreateOrEqual l compare_ key none
  match x with
  | none => .ok false
  | some x => do
    let k ← w.key l x
    .ok (equal compare_ key k)

def assertFresh (w : Image) (key : Key) : Option Ptr → Except Fault Unit
  | none => .ok ()
  | some x => do
    let k ← w.key l x
    if equal compare_ key k then .error .assertion else .ok ()

def growTo (w : Image) (height : Nat) (prev : Prev) : Except Fault (Image × Prev) :=
  if height > w.getMaxHeight then do
    let levels := List.range' w.getMaxHeight (height-w.getMaxHeight)
    let prev ← levels.foldlM (fun prev i => prev.write i w.head_) prev
    .ok ({w with max_height_ := height},prev)
  else .ok (w,prev)

def linkLevel (x : Ptr) (prev : Prev) (w : Image) (i : Nat) : Except Fault Image := do
  let p ← prev.read i
  let after ← w.next l p i
  .ok ((w.setNext l x i after).setNext l p i (some x))

/- insert up to the call of newNode. -/
def locate (w : Image) (key : Key) (height : Nat) : Except Fault (Image × Prev) := do
  let (x,prev) ← w.findGreateOrEqual l compare_ key (some Prev.uninitialised)
  w.assertFresh l compare_ key x
  w.growTo height (prev.getD Prev.uninitialised)

def insertHeight (operatorNew : Arena.OperatorNew) (w : Image) (key : Key) (height : Nat) : Except Trap Image := do
  let (w,prev) ← (w.locate l compare_ key height).mapError .list
  let (w,x) ← (w.newNode l operatorNew key height).mapError .arena
  ((List.range height).foldlM (linkLevel l x prev) w).mapError .list

def insert (operatorNew : Arena.OperatorNew) (w : Image) (key : Key) : Except Trap Image :=
  let (height,rnd_) := randomHeight w.rnd_
  insertHeight l compare_ operatorNew {w with rnd_} key height

/- The iterator's calls, where an iterator holds an address. -/
def iteratorKey (w : Image) (it : Iterator) : Except Fault Key :=
  match it.node_ with
  | none => .error .assertion
  | some n => w.key l n

def iteratorNext (w : Image) (it : Iterator) : Except Fault Iterator :=
  match it.node_ with
  | none => .error .assertion
  | some n => do
    let node_ ← w.next l n 0
    .ok ⟨node_⟩

def hideHead (w : Image) (x : Ptr) : Iterator := if x = w.head_ then ⟨none⟩ else ⟨some x⟩

def iteratorPrev (w : Image) (it : Iterator) : Except Fault Iterator :=
  match it.node_ with
  | none => .error .assertion
  | some n => do
    let k ← w.key l n
    let x ← w.findLessThan l compare_ k
    .ok (w.hideHead x)

def seek (w : Image) (target : Key) : Except Fault Iterator := do
  let (node_,_) ← w.findGreateOrEqual l compare_ target none
  .ok ⟨node_⟩

def seekToFirst (w : Image) : Except Fault Iterator := do
  let node_ ← w.next l w.head_ 0
  .ok ⟨node_⟩

def seekToLast (w : Image) : Except Fault Iterator := do
  let x ← w.findLast l
  .ok (w.hideHead x)

end Search
end Image

/- Memory the arena gave to somebody else, and what its owner left in it. -/
structure Other where
  base : Nat
  data : List (Option UInt8)

def Other.region (o : Other) : Region := ⟨o.base,o.data.length⟩

/- The list and its iterators among the other users of their arena. -/
structure Tenants (ι : Type) where
  image : Image
  iterators : ι → Iterator
  others : List Other

inductive Act (Key ι : Type) where
  | list (op : Op Key ι)
  | allocate (call : Arena.Call)
  | write (other offset : Nat) (data : Bytes)

def Act.op {Key ι : Type} : Act Key ι → Option (Op Key ι)
  | .list op => some op
  | _ => none

/- What an act asks of the arena: insert asks for a node, others for what they say. -/
def Act.request {Key ι : Type} (l : Layout Key) : Act Key ι → Option Arena.Call
  | .list (.insert _ height) => some (.allocateAligned (l.nodeBytes height))
  | .list _ => none
  | .allocate call => some call
  | .write .. => none

namespace Tenants

variable {Key ι : Type} [DecidableEq ι] (l : Layout Key) (compare_ : Key → Key → Int)

def set (t : Tenants ι) (i : ι) (it : Iterator) : Tenants ι :=
  {t with iterators := Function.update t.iterators i it}

def listStep (operatorNew : Arena.OperatorNew) (t : Tenants ι) : Op Key ι → Except Trap (Tenants ι)
  | .insert key height => do
    let image ← t.image.insertHeight l compare_ operatorNew key height
    .ok {t with image}
  | .construct i => .ok (t.set i Iterator.new)
  | .seek i target => do
    let it ← (t.image.seek l compare_ target).mapError .list
    .ok (t.set i it)
  | .seekToFirst i => do
    let it ← (t.image.seekToFirst l).mapError .list
    .ok (t.set i it)
  | .seekToLast i => do
    let it ← (t.image.seekToLast l).mapError .list
    .ok (t.set i it)
  | .next i => do
    let it ← (t.image.iteratorNext l (t.iterators i)).mapError .list
    .ok (t.set i it)
  | .prev i => do
    let it ← (t.image.iteratorPrev l compare_ (t.iterators i)).mapError .list
    .ok (t.set i it)

def allocate (operatorNew : Arena.OperatorNew) (t : Tenants ι) (call : Arena.Call) :
    Except Arena.Fault (Tenants ι) := do
  let (image,res) ← t.image.request operatorNew call
  .ok {t with image, others := t.others ++ [⟨res,image.memory.view ⟨res,call.bytes⟩⟩]}

def write (t : Tenants ι) (other offset : Nat) (data : Bytes) : Option (Tenants ι) := do
  let o ← t.others[other]?
  let left ← Buffer.write o.data offset (data.map some)
  some {t with
    image := {t.image with memory := t.image.memory.store (o.base+offset) data}
    others := t.others.set other {o with data := left}}

def step (operatorNew : Arena.OperatorNew) (t : Tenants ι) : Act Key ι → Except Trap (Tenants ι)
  | .list op => t.listStep l compare_ operatorNew op
  | .allocate call => (t.allocate operatorNew call).mapError .arena
  | .write other offset data =>
    match t.write other offset data with
    | some t => .ok t
    | none => .error .outside

def new (operatorNew : Arena.OperatorNew) (memory : Memory UInt8) (zero : Key) : Except Trap (Tenants ι) := do
  let image ← (Image.new l operatorNew memory zero).mapError .arena
  .ok ⟨image,fun _ => Iterator.new,[]⟩

end Tenants
end KVStorage.SkipList
