import KVStorage.SkipListIterator
import KVStorage.SkipListThreads
import KVStorage.Support.Linearizable

/-! Every call that a reader can make, contains and the whole iterator, as threads
beside the writer. One step makes one load of a cell of nexts_ or of max_height_,
with the work on local variables and on keys that goes with it. -/
namespace KVStorage.SkipList

open Support

variable {Key ι : Type}

inductive Ask (Key : Type) where
  | contains (key : Key)
  | seek (target : Key)
  | seekToFirst
  | seekToLast
  | next
  | prev
  deriving DecidableEq, Repr

/- What a search under way is for: findGreateOrEqual for contains and seek,
findLessThan for prev, findLast for seekToLast. -/
inductive Wanted (Key : Type) where
  | contains (key : Key)
  | seek (target : Key)
  | less (key : Key)
  | last
  deriving DecidableEq, Repr

inductive Caller.Phase (Key : Type) where
  | idle
  | begin (q : Ask Key)
  | search (w : Wanted Key) (s : Search)
  deriving DecidableEq, Repr

structure Caller (Key : Type) where
  phase : Caller.Phase Key
  it : Iterator
  deriving DecidableEq, Repr

/- What a call leaves to be seen: the result of contains, or what valid and key of
the iterator say. -/
inductive Answer (Key : Type) where
  | inserted
  | found (yes : Bool)
  | shows (key : Option Key)
  deriving DecidableEq, Repr

section Calling

variable (compare_ : Key → Key → Int) (m : SkipList Key)

def Wanted.check : Wanted Key → Ptr → Except Fault Unit
  | .less key => m.xIsBeforeKey compare_ key
  | _ => noCheck

def Wanted.right : Wanted Key → Option Ptr → Except Fault Bool
  | .contains key | .seek key => m.keyIsAfterNode compare_ key
  | .less key => m.nextIsBeforeKey compare_ key
  | .last => fun next => .ok next.isSome

def Caller.ends (it : Iterator) : Except Fault (Caller Key × Option (Answer Key)) :=
  if it.valid then do
    let key ← it.key m
    .ok (⟨.idle,it⟩,some (.shows (some key)))
  else .ok (⟨.idle,it⟩,some (.shows none))

def Caller.found (c : Caller Key) (f : Found) : Wanted Key → Except Fault (Caller Key × Option (Answer Key))
  | .contains key => do
    let yes ← isEqual compare_ m key f.next
    .ok (⟨.idle,c.it⟩,some (.found yes))
  | .seek _ => Caller.ends m ⟨f.next⟩
  | .less _ | .last => Caller.ends m (Iterator.hideHead f.x)

def Caller.starts (c : Caller Key) (w : Wanted Key) : Caller Key :=
  ⟨.search w ⟨head_,m.getMaxHeight-1,none⟩,c.it⟩

def Caller.begins (c : Caller Key) : Ask Key → Except Fault (Caller Key × Option (Answer Key))
  | .contains key => .ok (c.starts m (.contains key),none)
  | .seek target => .ok (c.starts m (.seek target),none)
  | .seekToLast => .ok (c.starts m .last,none)
  | .seekToFirst => do
    let it ← Iterator.seekToFirst m
    Caller.ends m it
  | .next => do
    let it ← c.it.next m
    Caller.ends m it
  | .prev =>
    match c.it.node_ with
    | none => .error .assertion
    | some n => do
      let node ← m.node n
      .ok (c.starts m (.less node.key),none)

def Caller.step (c : Caller Key) : Except Fault (Caller Key × Option (Answer Key)) :=
  match c.phase with
  | .idle => .ok (c,none)
  | .begin q => c.begins m q
  | .search w s => do
    let round ← m.searchRound (w.check compare_ m) (w.right compare_ m) s
    match round with
    | .again s => .ok (⟨.search w s,c.it⟩,none)
    | .done f => c.found compare_ m f w

end Calling

structure Callers (Key ι : Type) where
  list : SkipList Key
  writer : Writer Key
  callers : ι → Caller Key

def Callers.new (zero : Key) : Except Fault (Callers Key ι) := do
  let list ← SkipList.new zero
  .ok ⟨list,.idle,fun _ => ⟨.idle,Iterator.new⟩⟩

/- A step of the writer that ends its call. -/
def Writer.returns : Writer Key → Writer Key → Bool
  | .idle, _ => false
  | _, .idle => true
  | _, _ => false

inductive Callers.Event (Key ι : Type) where
  | insert (op : Insertion Key)
  | write (back : Bool)
  | call (i : ι) (q : Ask Key)
  | read (i : ι) (back : Option (Answer Key))
  deriving DecidableEq, Repr

section Steps

variable [DecidableEq ι]

def Callers.set (s : Callers Key ι) (i : ι) (c : Caller Key) : Callers Key ι :=
  {s with callers := Function.update s.callers i c}

/- The callers' duties: one insertion at a time, of a key not in the list; one call
at a time on an iterator, next and prev only where it is valid. -/
inductive Callers.Step (compare_ : Key → Key → Int) :
    Callers Key ι → Callers.Event Key ι → Callers Key ι → Prop where
  | insert {s op} (idle : s.writer = .idle) (fresh : ∀ k ∈ s.list.linkedKeys, compare_ op.key k ≠ 0)
      (one : 1 ≤ op.height) (low : op.height ≤ s_max_height_) :
      Step compare_ s (.insert op) {s with writer := .begin op}
  | write {s list writer} (ok : s.writer.step compare_ s.list = .ok (list,writer)) :
      Step compare_ s (.write (s.writer.returns writer)) {s with list,writer}
  | call {s i q} (idle : (s.callers i).phase = .idle)
      (valid : q = .next ∨ q = .prev → (s.callers i).it.valid = true) :
      Step compare_ s (.call i q) (s.set i {s.callers i with phase := .begin q})
  | read {s i c back} (ok : (s.callers i).step compare_ s.list = .ok (c,back)) :
      Step compare_ s (.read i back) (s.set i c)

end Steps

/- The atomic object: an ordered set with cursors, that also tells whether it has a
key. The thread `none` inserts, thread `some i` has iterator i. -/

inductive Request (Key : Type) where
  | insert (op : Insertion Key)
  | ask (q : Ask Key)
  deriving DecidableEq, Repr

def Ask.cursor (i : ι) : Ask Key → Option (OrderedCursor.Call Key ι)
  | .contains _ => none
  | .seek target => some (.seek i target)
  | .seekToFirst => some (.seekToFirst i)
  | .seekToLast => some (.seekToLast i)
  | .next => some (.next i)
  | .prev => some (.prev i)

inductive Takes [DecidableEq ι] (compare_ : Key → Key → Int) : OrderedCursor.State Key ι →
    Option ι × Request Key × Answer Key → OrderedCursor.State Key ι → Prop where
  | insert {s s' op} (move : OrderedCursor.Step compare_ s (.insert op.key) s') :
      Takes compare_ s (none,.insert op,.inserted) s'
  | contains {s i key yes} (same : yes = true ↔ ∃ k ∈ s.keys, compare_ key k = 0) :
      Takes compare_ s (some i,.ask (.contains key),.found yes) s
  | move {s s' i q c} (cursor : q.cursor i = some c) (move : OrderedCursor.Step compare_ s c s') :
      Takes compare_ s (some i,.ask q,.shows (s'.position i)) s'

abbrev AtomicState (Key ι : Type) :=
  Linearizable.State (OrderedCursor.State Key ι) (Option ι) (Request Key) (Answer Key)

def Callers.Event.mark : Callers.Event Key ι → Option (Linearizable.Mark (Option ι) (Request Key) (Answer Key))
  | .insert op => some (.call none (.insert op))
  | .write back => if back then some (.back none .inserted) else none
  | .call i q => some (.call (some i) (.ask q))
  | .read i back => back.map (.back (some i))

/- Where calls take effect. An insertion does at the store that links its node on
level 0. -/
def Writer.links : Writer Key → Option (Insertion Key)
  | .storePrev op _ _ 0 => some op
  | _ => none

def Wanted.ask : Wanted Key → Ask Key
  | .contains key => .contains key
  | .seek target => .seek target
  | .less _ => .prev
  | .last => .seekToLast

def Caller.asked (c : Caller Key) : Option (Ask Key) :=
  match c.phase with
  | .idle => none
  | .begin q => some q
  | .search w _ => some w.ask

/- The events of the atomic machine that a step in state s stands for. A call of a
reader takes effect at the step that returns, which makes its last load. -/
def Callers.effects (s : Callers Key ι) :
    Callers.Event Key ι → List (Linearizable.Event (Option ι) (Request Key) (Answer Key))
  | .insert op => [.shown (.call none (.insert op))]
  | .write back =>
    let linked := s.writer.links.toList.map (fun op => .effect none (.insert op) .inserted)
    if back then linked ++ [.shown (.back none .inserted)] else linked
  | .call i q => [.shown (.call (some i) (.ask q))]
  | .read _ none => []
  | .read i (some r) =>
    (s.callers i).asked.toList.map (fun q => .effect (some i) (.ask q) r) ++ [.shown (.back (some i) r)]

end KVStorage.SkipList
