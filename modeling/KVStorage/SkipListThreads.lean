import KVStorage.SkipListIterator
import Mathlib.Logic.Relation

/-! insert, seek, contains and next as threads that interleave. One step makes
one load or store of a cell of nexts_ or of max_height_, with the work on local
variables and on keys, which never change, that follows it. -/
namespace KVStorage.SkipList

open Support

variable {Key ι : Type}

structure Insertion (Key : Type) where
  key : Key
  height : Nat
  deriving DecidableEq, Repr

/- Where the writer is in insert: what its next step will do. -/
inductive Writer (Key : Type) where
  | idle
  | begin (op : Insertion Key)
  | find (op : Insertion Key) (s : Search)
  | compareHeight (op : Insertion Key) (prev : Prev)
  | fillPrev (op : Insertion Key) (prev : Prev)
  | storeMaxHeight (op : Insertion Key) (prev : Prev)
  | newNode (op : Insertion Key) (prev : Prev)
  | loadNext (op : Insertion Key) (prev : Prev) (x : Ptr) (i : Nat)
  | storeOwn (op : Insertion Key) (prev : Prev) (x : Ptr) (i : Nat) (after : Option Ptr)
  | storePrev (op : Insertion Key) (prev : Prev) (x : Ptr) (i : Nat)
  deriving DecidableEq, Repr

/- The test of insert's last loop. -/
def linkFrom (op : Insertion Key) (prev : Prev) (x : Ptr) (i : Nat) : Writer Key :=
  if i < op.height then .loadNext op prev x i else .idle

def Writer.step (compare_ : Key → Key → Int) (m : SkipList Key) :
    Writer Key → Except Fault (SkipList Key × Writer Key)
  | .idle => .ok (m,.idle)
  | .begin op => .ok (m,.find op ⟨head_,m.getMaxHeight-1,some Prev.uninitialised⟩)
  | .find op s => do
    let round ← m.searchRound noCheck (m.keyIsAfterNode compare_ op.key) s
    match round with
    | .again s => .ok (m,.find op s)
    | .done f => do
      m.assertFresh compare_ op.key f.next
      .ok (m,.compareHeight op (f.prev.getD Prev.uninitialised))
  | .compareHeight op prev =>
    if op.height > m.getMaxHeight then .ok (m,.fillPrev op prev) else .ok (m,.newNode op prev)
  | .fillPrev op prev => do
    let levels := List.range' m.getMaxHeight (op.height - m.getMaxHeight)
    let prev ← levels.foldlM (fun prev i => prev.write i head_) prev
    .ok (m,.storeMaxHeight op prev)
  | .storeMaxHeight op prev => .ok ({m with max_height_ := op.height},.newNode op prev)
  | .newNode op prev =>
    let (m,x) := m.newNode op.key op.height
    .ok (m,linkFrom op prev x 0)
  | .loadNext op prev x i => do
    let p ← prev.read i
    let after ← m.noBarrierNext p i
    .ok (m,.storeOwn op prev x i after)
  | .storeOwn op prev x i after => do
    let m ← m.noBarrierSetNext x i after
    .ok (m,.storePrev op prev x i)
  | .storePrev op prev x i => do
    let p ← prev.read i
    let m ← m.setNext p i (some x)
    .ok (m,linkFrom op prev x (i+1))

/- seek and contains share their search and differ in what they do with the node
it finds. -/
inductive Lookup where
  | seek
  | contains
  deriving DecidableEq, Repr

inductive Query (Key : Type) where
  | find (kind : Lookup) (target : Key)
  | next
  deriving DecidableEq, Repr

inductive Reader.Phase (Key : Type) where
  | idle
  | begin (q : Query Key)
  | find (kind : Lookup) (target : Key) (s : Search)
  deriving DecidableEq, Repr

structure Reader (Key : Type) where
  phase : Reader.Phase Key
  it : Iterator
  deriving DecidableEq, Repr

/- How a reader's call ends: the node that seek found, the answer of contains,
the nodes that next left and reached. -/
inductive Return (Key : Type) where
  | seek (target : Key) (node_ : Option Ptr)
  | contains (target : Key) (found : Bool)
  | next (n : Ptr) (node_ : Option Ptr)
  deriving DecidableEq, Repr

/- contains after its search. -/
def isEqual (compare_ : Key → Key → Int) (m : SkipList Key) (key : Key) : Option Ptr → Except Fault Bool
  | none => .ok false
  | some x => do
    let node ← m.node x
    .ok (equal compare_ key node.key)

def Reader.found (compare_ : Key → Key → Int) (m : SkipList Key) (r : Reader Key) (target : Key)
    (x : Option Ptr) : Lookup → Except Fault (Reader Key × Option (Return Key))
  | .seek => .ok (⟨.idle,⟨x⟩⟩,some (.seek target x))
  | .contains => do
    let found ← isEqual compare_ m target x
    .ok ({r with phase := .idle},some (.contains target found))

def Reader.step (compare_ : Key → Key → Int) (m : SkipList Key) (r : Reader Key) :
    Except Fault (Reader Key × Option (Return Key)) :=
  match r.phase with
  | .idle => .ok (r,none)
  | .begin (.find kind target) =>
    .ok ({r with phase := .find kind target ⟨head_,m.getMaxHeight-1,none⟩},none)
  | .begin .next =>
    match r.it.node_ with
    | none => .error .assertion
    | some n => do
      let node_ ← m.next n 0
      .ok (⟨.idle,⟨node_⟩⟩,some (.next n node_))
  | .find kind target s => do
    let round ← m.searchRound noCheck (m.keyIsAfterNode compare_ target) s
    match round with
    | .again s => .ok ({r with phase := .find kind target s},none)
    | .done f => r.found compare_ m target f.next kind

structure Threads (Key ι : Type) where
  list : SkipList Key
  writer : Writer Key
  readers : ι → Reader Key

def Threads.new (zero : Key) : Except Fault (Threads Key ι) := do
  let list ← SkipList.new zero
  .ok ⟨list,.idle,fun _ => ⟨.idle,Iterator.new⟩⟩

inductive Event (Key ι : Type) where
  | insert (op : Insertion Key)
  | write
  | call (i : ι) (q : Query Key)
  | read (i : ι) (back : Option (Return Key))
  deriving DecidableEq, Repr

/- Node x, with key k, is on the chain of level 0. -/
def Holds (m : SkipList Key) (x : Ptr) (k : Key) : Prop :=
  ∃ l node, Chain.Spells (m.link 0) head_ l ∧ x ∈ l ∧ m.node x = .ok node ∧ node.key = k

def linkedKeys (m : SkipList Key) : Set Key := {k | ∃ x, m.Holds x k}

section Steps

variable [DecidableEq ι]

def Threads.set (s : Threads Key ι) (i : ι) (r : Reader Key) : Threads Key ι :=
  {s with readers := Function.update s.readers i r}

/- The caller's duties: one insertion at a time, of a key not in the list; one
call at a time on an iterator, next only where it is valid. -/
inductive Threads.Step (compare_ : Key → Key → Int) :
    Threads Key ι → Event Key ι → Threads Key ι → Prop where
  | insert {s op} (idle : s.writer = .idle) (fresh : ∀ k ∈ s.list.linkedKeys, compare_ op.key k ≠ 0)
      (one : 1 ≤ op.height) (low : op.height ≤ s_max_height_) :
      Step compare_ s (.insert op) {s with writer := .begin op}
  | write {s list writer} (ok : s.writer.step compare_ s.list = .ok (list,writer)) :
      Step compare_ s .write {s with list,writer}
  | call {s i q} (idle : (s.readers i).phase = .idle) (valid : q = .next → (s.readers i).it.valid = true) :
      Step compare_ s (.call i q) (s.set i {s.readers i with phase := .begin q})
  | read {s i r back} (ok : (s.readers i).step compare_ s.list = .ok (r,back)) :
      Step compare_ s (.read i back) (s.set i r)

end Steps

/- A writer that nobody interrupts does what insertHeight does, a reader what
the iterator and contains do. -/
section Alone

variable {compare_ : Key → Key → Int} {m m' : SkipList Key}

def Writes (compare_ : Key → Key → Int) (a b : SkipList Key × Writer Key) : Prop :=
  a.2.step compare_ a.1 = .ok b

theorem findWrites {op : Insertion Key} {fuel : Nat} {s : Search} {f : Found}
    (run : Loop.run (m.searchRound noCheck (m.keyIsAfterNode compare_ op.key)) .rounds fuel s = .ok f)
    (free : m.assertFresh compare_ op.key f.next = .ok ()) :
    Relation.ReflTransGen (Writes compare_) (m,.find op s)
      (m,.compareHeight op (f.prev.getD Prev.uninitialised)) := by
  refine Loop.backwards (motive := fun s => Relation.ReflTransGen (Writes compare_) (m,.find op s) _) ?_ ?_ run
  · intro s t round steps
    have step : Writes compare_ (m,.find op s) (m,.find op t) := by
      simp only [Writes,Writer.step,round,bind,Except.bind]
    exact .head step steps
  · intro s round
    have step : Writes compare_ (m,.find op s) (m,.compareHeight op (f.prev.getD Prev.uninitialised)) := by
      simp only [Writes,Writer.step,round,free,bind,Except.bind]
    exact .single step

theorem growToWrites {op : Insertion Key} {prev prev' : Prev}
    (run : m.growTo op.height prev = .ok (m',prev')) :
    Relation.ReflTransGen (Writes compare_) (m,.compareHeight op prev) (m',.newNode op prev') := by
  unfold growTo at run
  by_cases taller : op.height > m.getMaxHeight
  · rw [if_pos taller] at run
    obtain ⟨filled,fill,last⟩ := Machine.okBind run
    cases Except.ok.inj last
    have first : Writes compare_ (m,.compareHeight op prev) (m,.fillPrev op prev) := if_pos taller
    have second : Writes compare_ (m,.fillPrev op prev) (m,.storeMaxHeight op prev') := by
      simp only [Writes,Writer.step,fill,bind,Except.bind]
    exact .head first (.head second (.single rfl))
  · rw [if_neg taller] at run
    cases Except.ok.inj run
    have step : Writes compare_ (m,.compareHeight op prev) (m,.newNode op prev) := if_neg taller
    exact .single step

theorem linkWrites {op : Insertion Key} {prev : Prev} {x : Ptr} {i n : Nat} (size : i+n = op.height)
    (run : (List.range' i n).foldlM (linkLevel x prev) m = .ok m') :
    Relation.ReflTransGen (Writes compare_) (m,linkFrom op prev x i) (m',.idle) := by
  induction n generalizing i m with
  | zero =>
    have last : linkFrom op prev x i = .idle := if_neg (by omega)
    cases Except.ok.inj run
    rw [last]
  | succ n ih =>
    rw [List.range'_succ,List.foldlM_cons] at run
    obtain ⟨m1,level,rest⟩ := Machine.okBind run
    obtain ⟨p,read,level⟩ := Machine.okBind level
    obtain ⟨after,load,level⟩ := Machine.okBind level
    obtain ⟨m2,own,level⟩ := Machine.okBind level
    have start : linkFrom op prev x i = .loadNext op prev x i := if_pos (by omega)
    have first : Writes compare_ (m,.loadNext op prev x i) (m,.storeOwn op prev x i after) := by
      simp only [Writes,Writer.step,read,load,bind,Except.bind]
    have second : Writes compare_ (m,.storeOwn op prev x i after) (m2,.storePrev op prev x i) := by
      simp only [Writes,Writer.step,own,bind,Except.bind]
    have third : Writes compare_ (m2,.storePrev op prev x i) (m1,linkFrom op prev x (i+1)) := by
      simp only [Writes,Writer.step,read,level,bind,Except.bind]
    rw [start]
    exact .head first (.head second (.head third (ih (by omega) rest)))

theorem insertHeightWrites {op : Insertion Key} (run : m.insertHeight compare_ op.key op.height = .ok m') :
    Relation.ReflTransGen (Writes compare_) (m,.begin op) (m',.idle) := by
  obtain ⟨⟨x,prev⟩,find,rest⟩ := Machine.okBind run
  obtain ⟨f,search,found⟩ := Machine.okBind find
  cases Except.ok.inj found
  obtain ⟨_,free,rest⟩ := Machine.okBind rest
  obtain ⟨⟨m1,prev1⟩,grow,link⟩ := Machine.okBind rest
  rw [List.range_eq_range'] at link
  have start : Writes compare_ (m,.begin op) (m,.find op ⟨head_,m.getMaxHeight-1,some Prev.uninitialised⟩) := rfl
  have allocate : Writes compare_ (m1,.newNode op prev1)
      ((m1.newNode op.key op.height).1,linkFrom op prev1 (m1.newNode op.key op.height).2 0) := rfl
  exact .head start ((findWrites search free).trans ((growToWrites grow).trans
    (.head allocate (linkWrites (Nat.zero_add _) link))))

def Reads (compare_ : Key → Key → Int) (m : SkipList Key) (r r' : Reader Key) : Prop :=
  r.step compare_ m = .ok (r',none)

theorem findReads (kind : Lookup) (it : Iterator) {target : Key} {fuel : Nat} {s : Search} {f : Found}
    (run : Loop.run (m.searchRound noCheck (m.keyIsAfterNode compare_ target)) .rounds fuel s = .ok f) :
    ∃ t, Relation.ReflTransGen (Reads compare_ m) ⟨.find kind target s,it⟩ ⟨.find kind target t,it⟩ ∧
      m.searchRound noCheck (m.keyIsAfterNode compare_ target) t = .ok (.done f) := by
  refine Loop.backwards (motive := fun s => ∃ t, Relation.ReflTransGen (Reads compare_ m)
      ⟨.find kind target s,it⟩ ⟨.find kind target t,it⟩ ∧
    m.searchRound noCheck (m.keyIsAfterNode compare_ target) t = .ok (.done f)) ?_
    (fun s round => ⟨s,.refl,round⟩) run
  intro s t round later
  obtain ⟨u,steps,last⟩ := later
  have step : Reads compare_ m ⟨.find kind target s,it⟩ ⟨.find kind target t,it⟩ := by
    simp only [Reads,Reader.step,round,bind,Except.bind]
  exact ⟨u,.head step steps,last⟩

theorem seekReads {target : Key} {it it' : Iterator} (run : Iterator.seek compare_ m target = .ok it') :
    ∃ r, Relation.ReflTransGen (Reads compare_ m) ⟨.begin (.find .seek target),it⟩ r ∧
      r.step compare_ m = .ok (⟨.idle,it'⟩,some (.seek target it'.node_)) := by
  obtain ⟨⟨x,prev⟩,find,last⟩ := Machine.okBind run
  obtain ⟨f,search,found⟩ := Machine.okBind find
  cases Except.ok.inj found
  cases Except.ok.inj last
  obtain ⟨t,steps,done⟩ := findReads .seek it search
  refine ⟨_,.head rfl steps,?_⟩
  simp only [Reader.step,Reader.found,done,bind,Except.bind]

theorem containsReads {key : Key} {it : Iterator} {found : Bool} (run : m.contains compare_ key = .ok found) :
    ∃ r, Relation.ReflTransGen (Reads compare_ m) ⟨.begin (.find .contains key),it⟩ r ∧
      r.step compare_ m = .ok (⟨.idle,it⟩,some (.contains key found)) := by
  obtain ⟨⟨x,prev⟩,find,test⟩ := Machine.okBind run
  obtain ⟨f,search,here⟩ := Machine.okBind find
  cases Except.ok.inj here
  obtain ⟨t,steps,done⟩ := findReads .contains it search
  have same : isEqual compare_ m key f.next = .ok found := test
  refine ⟨_,.head rfl steps,?_⟩
  simp only [Reader.step,Reader.found,done,same,bind,Except.bind]

theorem nextReads {it it' : Iterator} (run : it.next m = .ok it') :
    ∃ n, it.node_ = some n ∧ (⟨.begin .next,it⟩ : Reader Key).step compare_ m =
      .ok (⟨.idle,it'⟩,some (.next n it'.node_)) := by
  unfold Iterator.next at run
  cases on : it.node_ with
  | none => simp [on] at run
  | some n =>
    simp only [on] at run
    obtain ⟨node_,load,last⟩ := Machine.okBind run
    cases Except.ok.inj last
    exact ⟨n,rfl,by simp only [Reader.step,on,load,bind,Except.bind]⟩

end Alone
end KVStorage.SkipList
