import KVStorage.SkipListTraversal
import KVStorage.Support.ReleaseAcquire

/-! The threads of a skip list with the memory orders that skiplist.h gives its
loads and stores. A reader's load may take an old store, its keys are read
without an order, and it knows of a node only if the node was made before what
it has acquired; to look at a node it does not know of is a fault. -/
namespace KVStorage.SkipList

open Support Support.ReleaseAcquire

variable {Key ι : Type}

/- What a store can hit. A key is written once, by newNode. -/
inductive Cell where
  | key (x : Ptr)
  | next (x : Ptr) (n : Nat)
  | maxHeight
  deriving DecidableEq, Repr

/- The store that the writer's next step makes. -/
def Writer.store (m : SkipList Key) : Writer Key → Option (Cell × Order)
  | .storeMaxHeight .. => some (.maxHeight,.relaxed)
  | .newNode .. => some (.key m.nodes.length,.plain)
  | .storeOwn _ _ x i _ => some (.next x i,.relaxed)
  | .storePrev _ prev _ i =>
    match prev.read i with
    | .ok p => some (.next p i,.release)
    | .error _ => none
  | _ => none

def record (h : History (SkipList Key) Cell) (m : SkipList Key) :
    Option (Cell × Order) → History (SkipList Key) Cell
  | none => h
  | some (location,order) => h.write ⟨location,order,m⟩

/- Node::next where the load takes the last store among the first t. -/
def loadNext (h : History (SkipList Key) Cell) (v : View Cell) (t : Nat) (x : Ptr) (n : Nat) :
    Except Fault (Option Ptr × View Cell) := do
  let _ ← (h.memory v.seen).node x
  let y ← (h.memory t).next x n
  .ok (y,v.acquire h (.next x n) t)

/- The cell that the reader's next step loads. -/
def Reader.cell (r : Reader Key) : Option Cell :=
  match r.phase with
  | .begin (.find ..) => some .maxHeight
  | .begin .next => r.it.node_.map (fun n => .next n 0)
  | .find _ _ s => some (.next s.x s.level)
  | .idle => none

/- Reader.step with a load that takes the last store among the first t. Keys are
read from what the reader knows of after the load. -/
def Reader.loadStep (compare_ : Key → Key → Int) (h : History (SkipList Key) Cell) (v : View Cell) (t : Nat)
    (r : Reader Key) : Except Fault (View Cell × Reader Key × Option (Return Key)) :=
  match r.phase with
  | .idle => .ok (v,r,none)
  | .begin (.find kind target) =>
    let height := (h.memory t).getMaxHeight
    .ok (v.relaxed h .maxHeight t,{r with phase := .find kind target ⟨head_,height-1,none⟩},none)
  | .begin .next =>
    match r.it.node_ with
    | none => .error .assertion
    | some n => do
      let (node_,v) ← loadNext h v t n 0
      .ok (v,⟨.idle,⟨node_⟩⟩,some (.next n node_))
  | .find kind target s => do
    let (next,v) ← loadNext h v t s.x s.level
    let known := h.memory v.seen
    let goes ← known.keyIsAfterNode compare_ target next
    let round ← advance s next goes
    match round with
    | .again s => .ok (v,{r with phase := .find kind target s},none)
    | .done f => do
      let (r,back) ← r.found compare_ known target f.next kind
      .ok (v,r,back)

structure WeakThreads (Key ι : Type) where
  history : History (SkipList Key) Cell
  writer : Writer Key
  readers : ι → Reader Key
  views : ι → View Cell

namespace WeakThreads

def list (s : WeakThreads Key ι) : SkipList Key := s.history.current

/- The list as reader i is sure to know it. -/
def known (s : WeakThreads Key ι) (i : ι) : SkipList Key := s.history.memory (s.views i).seen

def new (zero : Key) : Except Fault (WeakThreads Key ι) := do
  let list ← SkipList.new zero
  .ok ⟨⟨list,[]⟩,.idle,fun _ => ⟨.idle,Iterator.new⟩,fun _ => View.new⟩

inductive Event (Key ι : Type) where
  | insert (op : Insertion Key)
  | write
  | synchronise (i : ι) (n : Nat)
  | call (i : ι) (q : Query Key)
  | read (i : ι) (t : Nat) (back : Option (Return Key))
  deriving DecidableEq, Repr

variable [DecidableEq ι]

def set (s : WeakThreads Key ι) (i : ι) (v : View Cell) (r : Reader Key) : WeakThreads Key ι :=
  {s with readers := Function.update s.readers i r, views := Function.update s.views i v}

/- The caller's duties are those of Threads.Step. A reader may also learn of the
first n stores by other means than the list, such as a mutex. -/
inductive Step (compare_ : Key → Key → Int) : WeakThreads Key ι → Event Key ι → WeakThreads Key ι → Prop where
  | insert {s op} (idle : s.writer = .idle) (fresh : ∀ k ∈ s.list.linkedKeys, compare_ op.key k ≠ 0)
      (one : 1 ≤ op.height) (low : op.height ≤ s_max_height_) :
      Step compare_ s (.insert op) {s with writer := .begin op}
  | write {s list writer} (ok : s.writer.step compare_ s.list = .ok (list,writer)) :
      Step compare_ s .write {s with history := record s.history list (s.writer.store s.list), writer}
  | synchronise {s i n} (made : n ≤ s.history.now) :
      Step compare_ s (.synchronise i n) (s.set i ((s.views i).synchronise n) (s.readers i))
  | call {s i q} (idle : (s.readers i).phase = .idle) (valid : q = .next → (s.readers i).it.valid = true) :
      Step compare_ s (.call i q) (s.set i (s.views i) {s.readers i with phase := .begin q})
  | read {s i t v r back} (allows : ∀ c, (s.readers i).cell = some c → (s.views i).Allows s.history c t)
      (ok : (s.readers i).loadStep compare_ s.history (s.views i) t = .ok (v,r,back)) :
      Step compare_ s (.read i t back) (s.set i v r)

end WeakThreads

/- A step whose load reads what list m holds, by a reader that then knows of m,
is a step on m. -/
section Loads

variable {compare_ : Key → Key → Int} {h : History (SkipList Key) Cell} {v v' : View Cell} {t : Nat}
variable {m : SkipList Key} {it : Iterator} {r' : Reader Key} {back : Option (Return Key)}

theorem nextLoads {n : Ptr} (load : ∀ y, m.next n 0 = .ok y → loadNext h v t n 0 = .ok (y,v'))
    (on : it.node_ = some n) (ok : Reader.step compare_ m ⟨.begin .next,it⟩ = .ok (r',back)) :
    Reader.loadStep compare_ h v t ⟨.begin .next,it⟩ = .ok (v',r',back) := by
  simp only [Reader.step,on] at ok
  obtain ⟨node_,here,last⟩ := Machine.okBind ok
  cases Except.ok.inj last
  simp only [Reader.loadStep,on,load node_ here,bind,Except.bind]

theorem findLoads {kind : Lookup} {target : Key} {s : Search}
    (load : ∀ y, m.next s.x s.level = .ok y → loadNext h v t s.x s.level = .ok (y,v'))
    (known : h.memory v'.seen = m) (ok : Reader.step compare_ m ⟨.find kind target s,it⟩ = .ok (r',back)) :
    Reader.loadStep compare_ h v t ⟨.find kind target s,it⟩ = .ok (v',r',back) := by
  obtain ⟨round,search,rest⟩ := Machine.okBind ok
  obtain ⟨_,_,search⟩ := Machine.okBind search
  obtain ⟨next,here,search⟩ := Machine.okBind search
  obtain ⟨goes,test,move⟩ := Machine.okBind search
  cases round with
  | again s =>
    cases Except.ok.inj rest
    simp only [Reader.loadStep,load next here,known,test,move,bind,Except.bind]
  | done f =>
    have found : Reader.found compare_ m ⟨.find kind target s,it⟩ target f.next kind = .ok (r',back) := rest
    simp only [Reader.loadStep,load next here,known,test,move,found,bind,Except.bind]

theorem loadNextCurrent {x : Ptr} {n : Nat} {y : Option Ptr} (whole : v.seen = h.now)
    (ok : h.current.next x n = .ok y) : loadNext h v h.now x n = .ok (y,v.acquire h (.next x n) h.now) := by
  obtain ⟨node,found,_⟩ := Machine.okBind ok
  rw [History.current,← whole] at found
  have load : (h.memory h.now).next x n = .ok y := ok
  simp only [loadNext,found,load,bind,Except.bind]

theorem acquireCurrent (whole : v.seen = h.now) (c : Cell) : (v.acquire h c h.now).seen = h.now := by
  have latest := latestLe h c h.now
  simp only [View.acquire,whole]
  split <;> omega

/- A reader that knows of every store and takes the latest ones makes the steps of
the plain machine. -/
theorem loadStepCurrent {r : Reader Key} (whole : v.seen = h.now) (within : v.Within h)
    (ok : r.step compare_ h.current = .ok (r',back)) :
    ∃ v', r.loadStep compare_ h v h.now = .ok (v',r',back) ∧ v'.Within h := by
  have acquired : ∀ c, (v.acquire h c h.now).Within h := fun c => acquireWithin within (allowsCurrent within c)
  obtain ⟨phase,it⟩ := r
  cases phase with
  | idle =>
    cases Except.ok.inj ok
    exact ⟨v,rfl,within⟩
  | begin q =>
    cases q with
    | find kind target =>
      cases Except.ok.inj ok
      exact ⟨_,rfl,relaxedWithin within (Nat.le_refl _)⟩
    | next =>
      cases on : it.node_ with
      | none => simp [Reader.step,on] at ok
      | some n => exact ⟨_,nextLoads (fun _ => loadNextCurrent whole) on ok,acquired _⟩
  | find kind target s =>
    have known : h.memory (v.acquire h (.next s.x s.level) h.now).seen = h.current := by
      rw [acquireCurrent whole]
      rfl
    exact ⟨_,findLoads (fun _ => loadNextCurrent whole) known ok,acquired _⟩

end Loads
end KVStorage.SkipList
