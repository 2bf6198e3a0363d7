import KVStorage.Support.Loop
import KVStorage.Random

/-! database/skiplist.h. Nodes live in one store and are named by position, the
head being the first one allocated. A cell of `nexts_` holds nothing until its
first store; reading such a cell, a cell beyond the node's height or an address
that is no node is a fault, as is a failing assert. Memory orders are dropped:
every load and store is sequentially consistent. -/
namespace KVStorage

open Support

abbrev Ptr := Nat

inductive Fault where
  | memory
  | assertion
  | rounds
  deriving DecidableEq, Repr

structure Node (Key : Type) where
  key : Key
  nexts_ : List (Option (Option Ptr))
  deriving DecidableEq, Repr

structure SkipList (Key : Type) where
  nodes : List (Node Key)
  max_height_ : Nat
  rnd_ : Random
  deriving DecidableEq, Repr

namespace SkipList

def s_max_height_ : Nat := 12
def head_ : Ptr := 0

variable {Key : Type}

def node (m : SkipList Key) (x : Ptr) : Except Fault (Node Key) :=
  match m.nodes[x]? with
  | some n => .ok n
  | none => .error .memory

def next (m : SkipList Key) (x : Ptr) (n : Nat) : Except Fault (Option Ptr) := do
  let node ← m.node x
  match node.nexts_[n]? with
  | some (some y) => .ok y
  | _ => .error .memory

def setNext (m : SkipList Key) (x : Ptr) (n : Nat) (y : Option Ptr) : Except Fault (SkipList Key) := do
  let node ← m.node x
  if n < node.nexts_.length then
    .ok {m with nodes := m.nodes.set x {node with nexts_ := node.nexts_.set n (some y)}}
  else .error .memory

abbrev noBarrierNext (m : SkipList Key) := m.next
abbrev noBarrierSetNext (m : SkipList Key) := m.setNext

def newNode (m : SkipList Key) (key : Key) (height : Nat) : SkipList Key × Ptr :=
  ({m with nodes := m.nodes ++ [⟨key,List.replicate height none⟩]},m.nodes.length)

/- The head's key is the constructor's newNode(0, ..); no search compares it. -/
def new (zero : Key) : Except Fault (SkipList Key) :=
  let empty : SkipList Key := ⟨[],1,Random.new 0xdeadbeef⟩
  (List.range s_max_height_).foldlM (fun m i => m.setNext head_ i none)
    (empty.newNode zero s_max_height_).1

def getMaxHeight (m : SkipList Key) : Nat := m.max_height_

def raiseHeight (height : Nat) : Nat → Random → Nat × Random
  | 0, rnd => (height,rnd)
  | left+1, rnd =>
    let (hit,rnd) := rnd.oneIn 4
    if hit then raiseHeight (height+1) left rnd else (height,rnd)

def randomHeight (rnd : Random) : Nat × Random := raiseHeight 1 (s_max_height_-1) rnd

section Search

variable (compare_ : Key → Key → Int)

def equal (a b : Key) : Bool := compare_ a b == 0

def keyIsAfterNode (m : SkipList Key) (key : Key) : Option Ptr → Except Fault Bool
  | none => .ok false
  | some n => do
    let node ← m.node n
    .ok (decide (compare_ node.key key < 0))

/- Node* prev[s_max_height_], an entry holding nothing until it is written. -/
abbrev Prev := List (Option Ptr)

def Prev.uninitialised : Prev := List.replicate s_max_height_ none

def Prev.write (prev : Prev) (i : Nat) (x : Ptr) : Except Fault Prev :=
  if i < prev.length then .ok (prev.set i (some x)) else .error .memory

def Prev.read (prev : Prev) (i : Nat) : Except Fault Ptr :=
  match prev[i]? with
  | some (some x) => .ok x
  | _ => .error .memory

structure Search where
  x : Ptr
  level : Nat
  prev : Option Prev
  deriving DecidableEq, Repr

structure Found where
  x : Ptr
  next : Option Ptr
  prev : Option Prev
  deriving DecidableEq, Repr

def note (prev : Option Prev) (level : Nat) (x : Ptr) : Except Fault (Option Prev) :=
  match prev with
  | none => .ok none
  | some prev => some <$> prev.write level x

/- What one search does in a round once nexts_[level] of x is loaded: move right
while the search says so, else note x in a caller's prev and go down a level. -/
def advance (s : Search) (next : Option Ptr) (right : Bool) : Except Fault (Loop.Step Search Found) :=
  if right then
    match next with
    | some y => .ok (.again {s with x := y})
    | none => .error .memory
  else do
    let prev ← note s.prev s.level s.x
    if s.level = 0 then .ok (.done ⟨s.x,next,prev⟩)
    else .ok (.again ⟨s.x,s.level-1,prev⟩)

/- The body the three searches share. They differ in what they assert of x and
in when they move right. -/
def searchRound (m : SkipList Key) (check : Ptr → Except Fault Unit)
    (right : Option Ptr → Except Fault Bool) (s : Search) : Except Fault (Loop.Step Search Found) := do
  check s.x
  let next ← m.next s.x s.level
  let goes ← right next
  advance s next goes

/- Rounds a search may take before the model gives up on it. -/
def rounds (m : SkipList Key) : Nat := s_max_height_ + m.nodes.length

def search (m : SkipList Key) (check : Ptr → Except Fault Unit)
    (right : Option Ptr → Except Fault Bool) (prev : Option Prev) : Except Fault Found :=
  Loop.run (m.searchRound check right) .rounds m.rounds ⟨head_,m.getMaxHeight-1,prev⟩

def noCheck (_ : Ptr) : Except Fault Unit := .ok ()

def findGreateOrEqual (m : SkipList Key) (key : Key) (prev : Option Prev) :
    Except Fault (Option Ptr × Option Prev) := do
  let found ← m.search noCheck (m.keyIsAfterNode compare_ key) prev
  .ok (found.next,found.prev)

def xIsBeforeKey (m : SkipList Key) (key : Key) (x : Ptr) : Except Fault Unit :=
  if x = head_ then .ok () else do
    let node ← m.node x
    if compare_ node.key key < 0 then .ok () else .error .assertion

/- The negation of findLessThan's test for going down. -/
def nextIsBeforeKey (m : SkipList Key) (key : Key) : Option Ptr → Except Fault Bool
  | none => .ok false
  | some n => do
    let node ← m.node n
    .ok (!decide (compare_ node.key key ≥ 0))

def findLessThan (m : SkipList Key) (key : Key) : Except Fault Ptr := do
  let found ← m.search (m.xIsBeforeKey compare_ key) (m.nextIsBeforeKey compare_ key) none
  .ok found.x

def findLast (m : SkipList Key) : Except Fault Ptr := do
  let found ← m.search noCheck (fun next => .ok next.isSome) none
  .ok found.x

def contains (m : SkipList Key) (key : Key) : Except Fault Bool := do
  let (x,_) ← m.findGreateOrEqual compare_ key none
  match x with
  | none => .ok false
  | some x => do
    let node ← m.node x
    .ok (equal compare_ key node.key)

def assertFresh (m : SkipList Key) (key : Key) : Option Ptr → Except Fault Unit
  | none => .ok ()
  | some x => do
    let node ← m.node x
    if equal compare_ key node.key then .error .assertion else .ok ()

/- The branch of insert where the list grows taller. -/
def growTo (m : SkipList Key) (height : Nat) (prev : Prev) : Except Fault (SkipList Key × Prev) :=
  if height > m.getMaxHeight then do
    let levels := List.range' m.getMaxHeight (height - m.getMaxHeight)
    let prev ← levels.foldlM (fun prev i => prev.write i head_) prev
    .ok ({m with max_height_ := height},prev)
  else .ok (m,prev)

def linkLevel (x : Ptr) (prev : Prev) (m : SkipList Key) (i : Nat) : Except Fault (SkipList Key) := do
  let p ← prev.read i
  let after ← m.noBarrierNext p i
  let m ← m.noBarrierSetNext x i after
  m.setNext p i (some x)

/- insert once randomHeight has returned `height`. -/
def insertHeight (m : SkipList Key) (key : Key) (height : Nat) : Except Fault (SkipList Key) := do
  let (x,prev) ← m.findGreateOrEqual compare_ key (some Prev.uninitialised)
  m.assertFresh compare_ key x
  let (m,prev) ← m.growTo height (prev.getD Prev.uninitialised)
  let (m,x) := m.newNode key height
  (List.range height).foldlM (linkLevel x prev) m

def insert (m : SkipList Key) (key : Key) : Except Fault (SkipList Key) :=
  let (height,rnd_) := randomHeight m.rnd_
  {m with rnd_}.insertHeight compare_ key height

end Search

theorem raiseHeightBounds (height left : Nat) (rnd : Random) :
    height ≤ (raiseHeight height left rnd).1 ∧ (raiseHeight height left rnd).1 ≤ height+left := by
  induction left generalizing height rnd with
  | zero => exact ⟨Nat.le_refl _,Nat.le_refl _⟩
  | succ left ih =>
    simp only [raiseHeight]
    split
    · have h := ih (height+1) (rnd.oneIn 4).2
      omega
    · dsimp only; omega

theorem randomHeightBounds (rnd : Random) :
    1 ≤ (randomHeight rnd).1 ∧ (randomHeight rnd).1 ≤ s_max_height_ := by
  have h := raiseHeightBounds 1 (s_max_height_-1) rnd
  have top : 1 + (s_max_height_-1) = s_max_height_ := rfl
  rw [top] at h
  exact h

end SkipList
end KVStorage
