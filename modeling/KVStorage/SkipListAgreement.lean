import KVStorage.SkipListIterator

/-! What the three searches of a list built by inserts return, said of the nodes that
the pointers of each level reach. A search that moves right passes a node for good, so
its rounds are bounded by the levels and the nodes. -/
namespace KVStorage.SkipList

open Support

variable {Key : Type} {compare_ : Key → Key → Int}
variable {m : SkipList Key} {order : List (Entry Key)}

/- The nodes of level i, in the order in which its pointers reach them. -/
structure Reaches (m : SkipList Key) (i : Nat) (nodes : List (Ptr × Key)) : Prop where
  spelled : Chain.Spells (m.link i) head_ (nodes.map Prod.fst)
  keyed : ∀ n ∈ nodes, ∃ node, m.node n.1 = .ok node ∧ node.key = n.2

def lastOf (nodes : List (Ptr × Key)) : Ptr := (nodes.getLast?.map Prod.fst).getD head_

def lastBefore (compare_ : Key → Key → Int) (key : Key) (nodes : List (Ptr × Key)) : Ptr :=
  lastOf (nodes.filter fun n => decide (compare_ n.2 key < 0))

def firstFrom (compare_ : Key → Key → Int) (key : Key) (nodes : List (Ptr × Key)) : Option Ptr :=
  (nodes.find? fun n => decide (compare_ n.2 key ≥ 0)).map Prod.fst

/- A caller's array has room for every level; no array is the null pointer. -/
def Sized (prev : Option Prev) : Prop := ∀ q, prev = some q → q.length = s_max_height_

/- The loop of a search has left after that many rounds, whatever limit it is given. -/
def Settles (m : SkipList Key) (rounds : Nat) (check : Ptr → Except Fault Unit)
    (right : Option Ptr → Except Fault Bool) (prev : Option Prev) : Prop :=
  ∀ limit, rounds ≤ limit →
    Loop.run (m.searchRound check right) .rounds limit ⟨head_,m.getMaxHeight-1,prev⟩ = m.search check right prev

/- What a search with a key returns, and what it leaves in the array. -/
structure Returns (compare_ : Key → Key → Int) (m : SkipList Key) (levels : Nat → List (Ptr × Key))
    (key : Key) (prev : Option Prev) : Prop where
  greateOrEqual : ∃ prev', m.findGreateOrEqual compare_ key prev = .ok (firstFrom compare_ key (levels 0),prev') ∧
    prev'.isSome = prev.isSome ∧ ∀ q, prev' = some q →
      (∀ i < m.max_height_, q.read i = .ok (lastBefore compare_ key (levels i))) ∧
      m.findLessThan compare_ key = q.read 0
  lessThan : m.findLessThan compare_ key = .ok (lastBefore compare_ key (levels 0))
  settles : Settles m (m.max_height_ + (levels 0).length) noCheck (m.keyIsAfterNode compare_ key) prev ∧
    Settles m (m.max_height_ + (levels 0).length) (m.xIsBeforeKey compare_ key) (m.nextIsBeforeKey compare_ key) none

structure Searches (compare_ : Key → Key → Int) (ops : List (Key × Nat)) (m : SkipList Key)
    (levels : Nat → List (Ptr × Key)) : Prop where
  reached : ∀ i < s_max_height_, Reaches m i (levels i)
  keys : ((levels 0).map Prod.snd).Perm (ops.map Prod.fst)
  returns : ∀ key prev, Sized prev → Returns compare_ m levels key prev
  last : m.findLast = .ok (lastOf (levels 0)) ∧
    Settles m (m.max_height_ + (levels 0).length) noCheck (fun next => .ok next.isSome) none
  beyond : ∀ key, (∀ op ∈ ops, compare_ op.1 key < 0) → m.findLessThan compare_ key = m.findLast

def nodesOf (order : List (Entry Key)) (i : Nat) : List (Ptr × Key) :=
  (level order i).map fun e => (e.ptr,e.key)

theorem noArray : Sized none := nofun

theorem nodesPtrs (order : List (Entry Key)) (i : Nat) : (nodesOf order i).map Prod.fst = chain order i :=
  List.map_map ..

theorem nodesReached (linked : Linked compare_ m order) {i : Nat} (low : i < s_max_height_) :
    Reaches m i (nodesOf order i) := by
  refine ⟨?_,?_⟩
  · rw [nodesPtrs]
    exact linked.chains i low
  · intro n mem
    obtain ⟨e,inside,rfl⟩ := List.mem_map.mp mem
    obtain ⟨h,shape,_⟩ := linked.shaped e (memLevel.mp inside).1
    obtain ⟨node,found,key,_⟩ := nodeOfShape shape
    exact ⟨node,found,key⟩

theorem lastOfNodes (part : List (Entry Key)) :
    lastOf (part.map fun e => (e.ptr,e.key)) = (part.map Entry.ptr).getLastD head_ := by
  rw [lastOf,List.getLast?_map,Option.map_map,List.getLastD_eq_getLast?,List.getLast?_map]
  rfl

theorem lastBeforeIs (key : Key) (i : Nat) :
    lastBefore compare_ key (nodesOf order i) = predecessor order (isBefore compare_ key) i := by
  rw [lastBefore,nodesOf,List.filter_map,lastOfNodes]
  rfl

theorem firstFromIs (key : Key) (i : Nat) :
    firstFrom compare_ key (nodesOf order i) = successor order (isBefore compare_ key) i := by
  have tests : ((fun n : Ptr × Key => decide (compare_ n.2 key ≥ 0)) ∘ fun e : Entry Key => (e.ptr,e.key)) =
      fun e => !isBefore compare_ key e.key := by
    funext e
    rw [isBefore,← decide_not]
    exact decide_eq_decide.mpr Int.not_lt.symm
  rw [firstFrom,nodesOf,List.find?_map,tests,successor,List.head?_filter,Option.map_map]
  rfl

theorem nodesBottom (rep : Represents compare_ m order) :
    nodesOf order 0 = order.map fun e => (e.ptr,e.key) := by
  have all : level order 0 = order :=
    List.filter_eq_self.mpr fun e mem => decide_eq_true (rep.full e mem).2
  rw [nodesOf,all]

section Lawful

variable (lawful : ThreeWay.Lawful compare_) (rep : Represents compare_ m order)

include lawful rep

theorem nodesSettle {p : Key → Bool} {check right} (guided : Guided order p compare_ check right)
    {prev : Option Prev} (sized : Sized prev) :
    Settles m (m.max_height_ + (nodesOf order 0).length) check right prev := by
  intro limit enough
  rw [nodesBottom rep,List.length_map] at enough
  exact searchSettles lawful rep.linked guided (representsHeight rep) prev sized enough

theorem lessThanNodes (key : Key) :
    m.findLessThan compare_ key = .ok (lastBefore compare_ key (nodesOf order 0)) := by
  have part : below compare_ key order ⊆ order := List.filter_subset_self ..
  rw [findLessThanOk lawful rep,lastBeforeIs,predecessorBelow,chainZero rep part]

theorem keyReturns (key : Key) {prev : Option Prev} (sized : Sized prev) :
    Returns compare_ m (nodesOf order) key prev := by
  have less := lessThanNodes lawful rep key
  obtain ⟨prev',found,given,noted⟩ := findGreateOrEqualOk lawful rep key prev sized
  rw [← successorAbove,← firstFromIs] at found
  have levels : ∀ q, prev' = some q → ∀ i < m.max_height_,
      q.read i = .ok (lastBefore compare_ key (nodesOf order i)) := by
    intro q eq i below
    rw [lastBeforeIs]
    exact readNoted (noted q eq) (Nat.zero_le i) below
  have same : ∀ q, prev' = some q → m.findLessThan compare_ key = q.read 0 :=
    fun q eq => less.trans (levels q eq 0 (representsHeight rep).1).symm
  have settles := nodesSettle lawful rep (keyGuided lawful rep.linked key) sized
  have settles' := nodesSettle lawful rep (lessGuided lawful rep.linked key) noArray
  exact ⟨⟨prev',found,given,fun q eq => ⟨levels q eq,same q eq⟩⟩,less,settles,settles'⟩

theorem lastNodes : m.findLast = .ok (lastOf (nodesOf order 0)) := by
  rw [findLastOk lawful rep,nodesBottom rep,lastOfNodes]

/- A key above all others has the whole list before it. -/
theorem lessThanBeyond {key : Key} (above : ∀ e ∈ order, compare_ e.key key < 0) :
    m.findLessThan compare_ key = m.findLast := by
  have all : below compare_ key order = order :=
    List.filter_eq_self.mpr fun e mem => decide_eq_true (above e mem)
  rw [findLessThanOk lawful rep,findLastOk lawful rep,all]

theorem representsSearches {ops : List (Key × Nat)} (exact : (order.map (fun e => (e.key,e.linked))).Perm ops) :
    Searches compare_ ops m (nodesOf order) := by
  have keys : ((nodesOf order 0).map Prod.snd).Perm (ops.map Prod.fst) := by
    have stored := exact.map Prod.fst
    rw [List.map_map] at stored
    rw [nodesBottom rep,List.map_map]
    exact stored
  have beyond : ∀ key, (∀ op ∈ ops, compare_ op.1 key < 0) → m.findLessThan compare_ key = m.findLast := by
    intro key above
    refine lessThanBeyond lawful rep ?_
    intro e mem
    exact above _ (exact.mem_iff.mp (List.mem_map_of_mem mem))
  have settles := nodesSettle lawful rep (lastGuided order) noArray
  exact ⟨fun i low => nodesReached rep.linked low,keys,fun key prev sized => keyReturns lawful rep key sized,
    ⟨lastNodes lawful rep,settles⟩,beyond⟩

end Lawful

theorem searchesAgree (lawful : ThreeWay.Lawful compare_) (zero : Key) (ops : List (Key × Nat))
    (heights : ∀ op ∈ ops, 1 ≤ op.2 ∧ op.2 ≤ s_max_height_)
    (fresh : ops.Pairwise (fun a b => compare_ a.1 b.1 ≠ 0)) :
    ∃ m levels, insertAll compare_ zero ops = .ok m ∧ Searches compare_ ops m levels := by
  obtain ⟨m,order,run,rep,exact⟩ := insertAllRepresents lawful zero ops heights fresh
  exact ⟨m,nodesOf order,run,representsSearches lawful rep exact⟩

theorem searchesAgreeThree : ∃ m levels,
    insertAll (fun a b : Int => a - b) 0 [(5,1),(3,4),(9,12)] = .ok m ∧
    Searches (fun a b : Int => a - b) [(5,1),(3,4),(9,12)] m levels :=
  searchesAgree ThreeWay.differenceLawful 0 [(5,1),(3,4),(9,12)] (by decide) (by decide)

end KVStorage.SkipList
