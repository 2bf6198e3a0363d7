import KVStorage.SkipListSet
import KVStorage.Support.Machine
import KVStorage.Support.OrderedCursor

/-! SkipList::Iterator against an ordered set with cursors. One list serves any
number of iterators; calls of insert and of the iterators come in any order. -/
namespace KVStorage

open Support

structure Iterator where
  node_ : Option Ptr
  deriving DecidableEq, Repr

namespace Iterator

variable {Key : Type} (compare_ : Key → Key → Int)

def new : Iterator := ⟨none⟩

def valid (it : Iterator) : Bool := it.node_.isSome

def key (it : Iterator) (list_ : SkipList Key) : Except Fault Key :=
  match it.node_ with
  | none => .error .assertion
  | some n => do
    let node ← list_.node n
    .ok node.key

def next (it : Iterator) (list_ : SkipList Key) : Except Fault Iterator :=
  match it.node_ with
  | none => .error .assertion
  | some n => do
    let node_ ← list_.next n 0
    .ok ⟨node_⟩

def hideHead (x : Ptr) : Iterator := if x = SkipList.head_ then ⟨none⟩ else ⟨some x⟩

def prev (it : Iterator) (list_ : SkipList Key) : Except Fault Iterator :=
  match it.node_ with
  | none => .error .assertion
  | some n => do
    let node ← list_.node n
    let x ← list_.findLessThan compare_ node.key
    .ok (hideHead x)

def seek (list_ : SkipList Key) (target : Key) : Except Fault Iterator := do
  let (node_,_) ← list_.findGreateOrEqual compare_ target none
  .ok ⟨node_⟩

def seekToFirst (list_ : SkipList Key) : Except Fault Iterator := do
  let node_ ← list_.next SkipList.head_ 0
  .ok ⟨node_⟩

def seekToLast (list_ : SkipList Key) : Except Fault Iterator := do
  let x ← list_.findLast
  .ok (hideHead x)

end Iterator

namespace SkipList

variable {Key ι : Type} {compare_ : Key → Key → Int}

/- A list and all the iterators on it. -/
structure Users (Key ι : Type) where
  list : SkipList Key
  iterators : ι → Iterator

inductive Op (Key ι : Type) where
  | insert (key : Key) (height : Nat)
  | construct (i : ι)
  | seek (i : ι) (target : Key)
  | seekToFirst (i : ι)
  | seekToLast (i : ι)
  | next (i : ι)
  | prev (i : ι)

def Op.call : Op Key ι → OrderedCursor.Call Key ι
  | .insert key _ => .insert key
  | .construct i => .construct i
  | .seek i target => .seek i target
  | .seekToFirst i => .seekToFirst i
  | .seekToLast i => .seekToLast i
  | .next i => .next i
  | .prev i => .prev i

section Steps

variable [DecidableEq ι]

def Users.set (s : Users Key ι) (i : ι) (it : Iterator) : Users Key ι :=
  {s with iterators := Function.update s.iterators i it}

def Users.step (compare_ : Key → Key → Int) (s : Users Key ι) : Op Key ι → Except Fault (Users Key ι)
  | .insert key height => do
    let list ← s.list.insertHeight compare_ key height
    .ok {s with list}
  | .construct i => .ok (s.set i Iterator.new)
  | .seek i target => do
    let it ← Iterator.seek compare_ s.list target
    .ok (s.set i it)
  | .seekToFirst i => do
    let it ← Iterator.seekToFirst s.list
    .ok (s.set i it)
  | .seekToLast i => do
    let it ← Iterator.seekToLast s.list
    .ok (s.set i it)
  | .next i => do
    let it ← (s.iterators i).next s.list
    .ok (s.set i it)
  | .prev i => do
    let it ← (s.iterators i).prev compare_ s.list
    .ok (s.set i it)

end Steps

def Users.new (zero : Key) : Except Fault (Users Key ι) := do
  let list ← SkipList.new zero
  .ok ⟨list,fun _ => Iterator.new⟩

/- insert wants a key that is not in the list, next and prev a valid iterator. -/
def Users.Pre (compare_ : Key → Key → Int) (s : Users Key ι) : Op Key ι → Prop
  | .insert key height => s.list.contains compare_ key = .ok false ∧ 1 ≤ height ∧ height ≤ s_max_height_
  | .next i | .prev i => (s.iterators i).valid = true
  | _ => True

def Placed (order : List (Entry Key)) (it : Iterator) (position : Option Key) : Prop :=
  (it.node_ = none ∧ position = none) ∨ ∃ e ∈ order, it.node_ = some e.ptr ∧ position = some e.key

def keysOf (order : List (Entry Key)) : Set Key := {k | ∃ e ∈ order, e.key = k}

structure SimulatesBy (compare_ : Key → Key → Int) (order : List (Entry Key)) (s : Users Key ι)
    (a : OrderedCursor.State Key ι) : Prop where
  represents : Represents compare_ s.list order
  keys : a.keys = keysOf order
  placed : ∀ i, Placed order (s.iterators i) (a.position i)

variable {order : List (Entry Key)} {s : Users Key ι} {a : OrderedCursor.State Key ι}

theorem placedHead {part : List (Entry Key)} (sub : part ⊆ order) :
    Placed order ⟨(part.map Entry.ptr).head?⟩ (part.head?.map Entry.key) := by
  cases part with
  | nil => exact .inl ⟨rfl,rfl⟩
  | cons e rest => exact .inr ⟨e,sub List.mem_cons_self,rfl,rfl⟩

theorem placedLast {m : SkipList Key} {part : List (Entry Key)} (linked : Linked compare_ m order)
    (sub : part ⊆ order) :
    Placed order (Iterator.hideHead ((part.map Entry.ptr).getLastD head_)) (part.getLast?.map Entry.key) := by
  cases hl : part.getLast? with
  | none =>
    have empty := List.getLast?_eq_none_iff.mp hl
    subst empty
    exact .inl ⟨rfl,rfl⟩
  | some e =>
    have last : (part.map Entry.ptr).getLastD head_ = e.ptr := by
      rw [List.getLastD_eq_getLast?,List.getLast?_map,hl]
      rfl
    have mem : e ∈ order := sub (List.mem_of_getLast? hl)
    have apart := linked.apart e mem
    have shown : Iterator.hideHead e.ptr = ⟨some e.ptr⟩ := if_neg apart
    exact .inr ⟨e,mem,by rw [last,shown],rfl⟩

/- What a user sees of an iterator placed so. -/
theorem placedShows {m : SkipList Key} {it : Iterator} {r : Option Key} (linked : Linked compare_ m order)
    (placed : Placed order it r) : it.valid = r.isSome ∧ it.node_ ≠ some head_ ∧
      ∀ k, r = some k → it.key m = .ok k ∧ k ∈ keysOf order := by
  rcases placed with ⟨node,rfl⟩ | ⟨e,mem,node,rfl⟩
  · simp [Iterator.valid,node]
  · obtain ⟨h,shape,_⟩ := linked.shaped e mem
    obtain ⟨n,found,same,_⟩ := nodeOfShape shape
    have shown : it.key m = .ok e.key := by
      simp only [Iterator.key,node,found,bind,Except.bind,same]
    have apart : it.node_ ≠ some head_ := fun at_ => linked.apart e mem (Option.some.inj (node.symm.trans at_))
    have key : ∀ k, some e.key = some k → it.key m = .ok k ∧ k ∈ keysOf order := by
      intro k eq
      cases Option.some.inj eq
      exact ⟨shown,e,mem,rfl⟩
    exact ⟨by simp [Iterator.valid,node],apart,key⟩

theorem placedAfter [DecidableEq ι] (sim : SimulatesBy compare_ order s a) {i : ι} {it : Iterator}
    {r : Option Key} (here : Placed order it r) :
    SimulatesBy compare_ order (s.set i it) (a.place i r) := by
  have placed : ∀ j, Placed order ((s.set i it).iterators j) ((a.place i r).position j) := by
    intro j
    by_cases same : j = i
    · subst j
      simpa [Users.set,OrderedCursor.State.place] using here
    · simpa [Users.set,OrderedCursor.State.place,same] using sim.placed j
  exact ⟨sim.represents,sim.keys,placed⟩

theorem placedValid (sim : SimulatesBy compare_ order s a) {i : ι} (valid : (s.iterators i).valid = true) :
    ∃ e ∈ order, s.iterators i = ⟨some e.ptr⟩ ∧ a.position i = some e.key := by
  rcases sim.placed i with ⟨none,_⟩ | ⟨e,mem,node,position⟩
  · simp [Iterator.valid,none] at valid
  · exact ⟨e,mem,congrArg Iterator.mk node,position⟩

section Lawful

variable (lawful : ThreeWay.Lawful compare_)

/- findLast is guided by the test that every key passes. -/
theorem lastGuided (order : List (Entry Key)) :
    Guided order (fun _ => true) compare_ noCheck (fun next => .ok next.isSome) :=
  ⟨fun _ _ _ _ => rfl,rfl,fun _ _ => rfl,rfl,fun _ _ _ => rfl⟩

include lawful in
theorem lessGuided {m : SkipList Key} (linked : Linked compare_ m order) (key : Key) :
    Guided order (isBefore compare_ key) compare_ (m.xIsBeforeKey compare_ key)
      (m.nextIsBeforeKey compare_ key) := by
  have goes : ∀ e ∈ order, m.nextIsBeforeKey compare_ key (some e.ptr) = .ok (isBefore compare_ key e.key) := by
    intro e mem
    obtain ⟨h,shape,_⟩ := linked.shaped e mem
    obtain ⟨node,found,same,_⟩ := nodeOfShape shape
    have flip : (!decide (compare_ e.key key ≥ 0)) = decide (compare_ e.key key < 0) := by
      by_cases less : compare_ e.key key < 0
      · simp [less]
      · simp [less,Int.not_lt.mp less]
    simp only [nextIsBeforeKey,found,bind,Except.bind,same,flip,isBefore]
  have checks : ∀ e ∈ order, isBefore compare_ key e.key = true →
      m.xIsBeforeKey compare_ key e.ptr = .ok () := by
    intro e mem passes
    obtain ⟨h,shape,_⟩ := linked.shaped e mem
    obtain ⟨node,found,same,_⟩ := nodeOfShape shape
    have less : compare_ e.key key < 0 := of_decide_eq_true passes
    simp only [xIsBeforeKey,if_neg (linked.apart e mem),found,bind,Except.bind,same,if_pos less]
  exact ⟨isBeforeClosed lawful key,rfl,goes,if_pos rfl,checks⟩

include lawful in
theorem findLessThanOk {m : SkipList Key} (rep : Represents compare_ m order) (key : Key) :
    m.findLessThan compare_ key = .ok (((below compare_ key order).map Entry.ptr).getLastD head_) := by
  obtain ⟨f,run,done⟩ := searchFinds lawful rep.linked (lessGuided lawful rep.linked key)
    (representsHeight rep) none (by simp)
  have part : below compare_ key order ⊆ order := List.filter_subset_self ..
  simp only [findLessThan,run,bind,Except.bind,done.x,predecessorBelow,chainZero rep part]

include lawful in
theorem findLastOk {m : SkipList Key} (rep : Represents compare_ m order) :
    m.findLast = .ok ((order.map Entry.ptr).getLastD head_) := by
  obtain ⟨f,run,done⟩ := searchFinds lawful rep.linked (lastGuided order) (representsHeight rep) none (by simp)
  have all : predecessor order (fun _ => true) 0 = (chain order 0).getLastD head_ := by
    simp only [predecessor,chain,List.filter_true]
  simp only [findLast,run,bind,Except.bind,done.x,all,chainZero rep (List.Subset.refl order)]

theorem nextOfHead {m : SkipList Key} (rep : Represents compare_ m order) :
    m.next head_ 0 = .ok (order.map Entry.ptr).head? := by
  have spells := rep.linked.chains 0 (by decide)
  rw [chainZero rep (List.Subset.refl order)] at spells
  exact Chain.successor (a := []) spells

theorem nextOfEntry {m : SkipList Key} {front rest : List (Entry Key)} {e : Entry Key}
    (rep : Represents compare_ m (front ++ e::rest)) : m.next e.ptr 0 = .ok (rest.map Entry.ptr).head? := by
  have spells := rep.linked.chains 0 (by decide)
  rw [chainZero rep (List.Subset.refl _)] at spells
  have cut : (front ++ e::rest).map Entry.ptr = (front ++ [e]).map Entry.ptr ++ rest.map Entry.ptr := by
    simp
  rw [cut] at spells
  have next := Chain.successor spells
  simpa [link] using next

include lawful in
theorem seekLeast {m : SkipList Key} (rep : Represents compare_ m order) (target : Key) :
    ∃ it r, Iterator.seek compare_ m target = .ok it ∧ Placed order it r ∧
      OrderedCursor.Least compare_ (keysOf order) (fun x => compare_ target x ≤ 0) r := by
  obtain ⟨prev,run,_⟩ := findGreateOrEqualOk lawful rep target none (by simp)
  have part : above compare_ target order ⊆ order := List.filter_subset_self ..
  rw [chainZero rep part] at run
  have same : ∀ e ∈ order, (!isBefore compare_ target e.key) = true ↔ compare_ target e.key ≤ 0 := by
    intro e _
    have flip := lawful.nonposIff (a := target) (b := e.key)
    simp only [isBefore,Bool.not_eq_true',decide_eq_false_iff_not,Int.not_lt]
    exact flip.symm
  have least := OrderedCursor.leastOfFilter (p := fun x => compare_ target x ≤ 0) lawful.self
    rep.linked.sorted same
  have found : Iterator.seek compare_ m target =
      .ok ⟨((above compare_ target order).map Entry.ptr).head?⟩ := by
    simp only [Iterator.seek,run,bind,Except.bind]
  exact ⟨_,_,found,placedHead part,least⟩

variable [DecidableEq ι]

include lawful in
theorem insertSimulates (sim : SimulatesBy compare_ order s a) {key : Key} {height : Nat}
    (absent : s.list.contains compare_ key = .ok false) (bounds : 1 ≤ height ∧ height ≤ s_max_height_) :
    ∃ s' a' order', s.step compare_ (.insert key height) = .ok s' ∧
      OrderedCursor.Step compare_ a (.insert key) a' ∧ SimulatesBy compare_ order' s' a' := by
  have fresh : ∀ e ∈ order, compare_ key e.key ≠ 0 := by
    obtain ⟨found,run,same⟩ := containsOk lawful sim.represents key
    have no : found = false := Except.ok.inj (run.symm.trans absent)
    intro e mem zero
    have yes := same.mpr ⟨e,mem,zero⟩
    simp [no] at yes
  obtain ⟨list,run,rep⟩ := insertHeightOk lawful sim.represents fresh bounds
  have split := orderSplits lawful sim.represents.linked key
  have members : ∀ e, e ∈ inserted compare_ s.list order key height ↔
      e = ⟨s.list.nodes.length,key,height⟩ ∨ e ∈ order := by
    intro e
    rw [inserted,memSplice,← split]
  have keys : Insert.insert key a.keys = keysOf (inserted compare_ s.list order key height) := by
    ext k
    simp only [sim.keys,keysOf,Set.mem_insert_iff,Set.mem_ofPred_eq,members]
    constructor
    · intro h
      rcases h with rfl | ⟨e,mem,eq⟩
      · exact ⟨_,.inl rfl,rfl⟩
      · exact ⟨e,.inr mem,eq⟩
    · intro h
      obtain ⟨e,rfl | mem,eq⟩ := h
      · exact .inl eq.symm
      · exact .inr ⟨e,mem,eq⟩
  have placed : ∀ i, Placed (inserted compare_ s.list order key height) (s.iterators i) (a.position i) := by
    intro i
    rcases sim.placed i with none | ⟨e,mem,here⟩
    · exact .inl none
    · exact .inr ⟨e,(members e).mpr (.inr mem),here⟩
  have moved : s.step compare_ (.insert key height) = .ok {s with list} := by
    simp only [Users.step,run,bind,Except.bind]
  have new : ∀ x ∈ a.keys, compare_ key x ≠ 0 := by
    intro x mem
    rw [sim.keys] at mem
    obtain ⟨e,he,rfl⟩ := mem
    exact fresh e he
  exact ⟨_,_,_,moved,.insert new,rep,keys,placed⟩

include lawful in
theorem seekSimulates (sim : SimulatesBy compare_ order s a) (i : ι) (target : Key) :
    ∃ s' a', s.step compare_ (.seek i target) = .ok s' ∧
      OrderedCursor.Step compare_ a (.seek i target) a' ∧ SimulatesBy compare_ order s' a' := by
  obtain ⟨it,r,found,placed,least⟩ := seekLeast lawful sim.represents target
  rw [← sim.keys] at least
  have moved : s.step compare_ (.seek i target) = .ok (s.set i it) := by
    simp only [Users.step,found,bind,Except.bind]
  exact ⟨_,_,moved,.seek least,placedAfter sim placed⟩

theorem seekToFirstSimulates (self : ∀ k, compare_ k k = 0) (sim : SimulatesBy compare_ order s a) (i : ι) :
    ∃ s' a', s.step compare_ (.seekToFirst i) = .ok s' ∧
      OrderedCursor.Step compare_ a (.seekToFirst i) a' ∧ SimulatesBy compare_ order s' a' := by
  have run := nextOfHead sim.represents
  have least : OrderedCursor.Least compare_ a.keys (fun _ => True) (order.head?.map Entry.key) := by
    rw [sim.keys]
    have h := OrderedCursor.leastOfFilter (q := fun _ => true) (p := fun _ => True) self
      sim.represents.linked.sorted (by simp)
    simp only [List.filter_true] at h
    exact h
  have moved : s.step compare_ (.seekToFirst i) = .ok (s.set i ⟨(order.map Entry.ptr).head?⟩) := by
    simp only [Users.step,Iterator.seekToFirst,run,bind,Except.bind]
  exact ⟨_,_,moved,.seekToFirst least,placedAfter sim (placedHead (List.Subset.refl order))⟩

include lawful in
theorem seekToLastSimulates (sim : SimulatesBy compare_ order s a) (i : ι) :
    ∃ s' a', s.step compare_ (.seekToLast i) = .ok s' ∧
      OrderedCursor.Step compare_ a (.seekToLast i) a' ∧ SimulatesBy compare_ order s' a' := by
  have run := findLastOk lawful sim.represents
  have greatest : OrderedCursor.Greatest compare_ a.keys (fun _ => True) (order.getLast?.map Entry.key) := by
    rw [sim.keys]
    have h := OrderedCursor.greatestOfFilter (q := fun _ => true) (p := fun _ => True) lawful.self
      sim.represents.linked.sorted (by simp)
    simp only [List.filter_true] at h
    exact h
  have moved : s.step compare_ (.seekToLast i) =
      .ok (s.set i (Iterator.hideHead ((order.map Entry.ptr).getLastD head_))) := by
    simp only [Users.step,Iterator.seekToLast,run,bind,Except.bind]
  have placed := placedLast sim.represents.linked (List.Subset.refl order)
  exact ⟨_,_,moved,.seekToLast greatest,placedAfter sim placed⟩

include lawful in
theorem nextSimulates (sim : SimulatesBy compare_ order s a) {i : ι} (valid : (s.iterators i).valid = true) :
    ∃ s' a', s.step compare_ (.next i) = .ok s' ∧
      OrderedCursor.Step compare_ a (.next i) a' ∧ SimulatesBy compare_ order s' a' := by
  obtain ⟨e,mem,here,position⟩ := placedValid sim valid
  obtain ⟨front,rest,split⟩ := List.append_of_mem mem
  have sorted := sim.represents.linked.sorted
  have run := nextOfEntry (split ▸ sim.represents)
  have later : order.filter (fun d => decide (compare_ e.key d.key < 0)) = rest := by
    rw [split] at sorted ⊢
    exact Sorted.greaterRest sorted lawful.irrefl (fun _ => lawful.asymm)
  have part : rest ⊆ order := by
    rw [← later]
    exact List.filter_subset_self ..
  have least : OrderedCursor.Least compare_ a.keys (fun x => compare_ e.key x < 0)
      (rest.head?.map Entry.key) := by
    rw [sim.keys,← later]
    exact OrderedCursor.leastOfFilter lawful.self sim.represents.linked.sorted (by simp)
  have moved : s.step compare_ (.next i) = .ok (s.set i ⟨(rest.map Entry.ptr).head?⟩) := by
    simp only [Users.step,here,Iterator.next,run,bind,Except.bind]
  exact ⟨_,_,moved,.next position least,placedAfter sim (placedHead part)⟩

include lawful in
theorem prevSimulates (sim : SimulatesBy compare_ order s a) {i : ι} (valid : (s.iterators i).valid = true) :
    ∃ s' a', s.step compare_ (.prev i) = .ok s' ∧
      OrderedCursor.Step compare_ a (.prev i) a' ∧ SimulatesBy compare_ order s' a' := by
  obtain ⟨e,mem,here,position⟩ := placedValid sim valid
  obtain ⟨node,found,same,_⟩ := nodeOfShape (sim.represents.full e mem).1
  have run := findLessThanOk lawful sim.represents e.key
  have part : below compare_ e.key order ⊆ order := List.filter_subset_self ..
  have greatest : OrderedCursor.Greatest compare_ a.keys (fun x => compare_ x e.key < 0)
      ((below compare_ e.key order).getLast?.map Entry.key) := by
    rw [sim.keys]
    exact OrderedCursor.greatestOfFilter lawful.self sim.represents.linked.sorted (by simp [isBefore])
  have moved : s.step compare_ (.prev i) =
      .ok (s.set i (Iterator.hideHead (((below compare_ e.key order).map Entry.ptr).getLastD head_))) := by
    simp only [Users.step,here,Iterator.prev,found,bind,Except.bind,same,run]
  exact ⟨_,_,moved,.prev position greatest,placedAfter sim (placedLast sim.represents.linked part)⟩

/- The simulation relation: the list represents some order, its keys are the
abstract set, and every iterator stands on a node with its cursor's key, never
on the head. -/
def Simulates (compare_ : Key → Key → Int) (s : Users Key ι) (a : OrderedCursor.State Key ι) : Prop :=
  ∃ order, SimulatesBy compare_ order s a

include lawful in
theorem stepSimulates (s : Users Key ι) (a : OrderedCursor.State Key ι) (op : Op Key ι)
    (sim : Simulates compare_ s a) (pre : s.Pre compare_ op) :
    ∃ s' a', s.step compare_ op = .ok s' ∧ OrderedCursor.Step compare_ a op.call a' ∧
      Simulates compare_ s' a' := by
  obtain ⟨order,sim⟩ := sim
  cases op with
  | insert key height =>
    obtain ⟨s',a',order',run,move,next⟩ := insertSimulates lawful sim pre.1 pre.2
    exact ⟨s',a',run,move,order',next⟩
  | construct i => exact ⟨_,_,rfl,.construct,order,placedAfter sim (.inl ⟨rfl,rfl⟩)⟩
  | seek i target =>
    obtain ⟨s',a',run,move,next⟩ := seekSimulates lawful sim i target
    exact ⟨s',a',run,move,order,next⟩
  | seekToFirst i =>
    obtain ⟨s',a',run,move,next⟩ := seekToFirstSimulates lawful.self sim i
    exact ⟨s',a',run,move,order,next⟩
  | seekToLast i =>
    obtain ⟨s',a',run,move,next⟩ := seekToLastSimulates lawful sim i
    exact ⟨s',a',run,move,order,next⟩
  | next i =>
    obtain ⟨s',a',run,move,next⟩ := nextSimulates lawful sim pre
    exact ⟨s',a',run,move,order,next⟩
  | prev i =>
    obtain ⟨s',a',run,move,next⟩ := prevSimulates lawful sim pre
    exact ⟨s',a',run,move,order,next⟩

end Lawful

/- What a user sees of an iterator is its cursor. -/
structure Shows (s : Users Key ι) (a : OrderedCursor.State Key ι) : Prop where
  valid : ∀ i, (s.iterators i).valid = (a.position i).isSome
  key : ∀ i k, a.position i = some k → (s.iterators i).key s.list = .ok k ∧ k ∈ a.keys
  hidden : ∀ i, (s.iterators i).node_ ≠ some head_

theorem simulatesShows (sim : Simulates compare_ s a) : Shows s a := by
  obtain ⟨order,sim⟩ := sim
  have shows := fun i => placedShows sim.represents.linked (sim.placed i)
  rw [← sim.keys] at shows
  exact ⟨fun i => (shows i).1,fun i => (shows i).2.2,fun i => (shows i).2.1⟩

/-- From a fresh list, every legal sequence of insert and iterator calls runs
without a fault as a run of the ordered set with cursors, and ends in a state
where each iterator shows its cursor. -/
theorem iteratorsSimulateCursors [DecidableEq ι] (lawful : ThreeWay.Lawful compare_) (zero : Key)
    (ops : List (Op Key ι)) :
    ∃ s0 : Users Key ι, Users.new zero = .ok s0 ∧
      (Machine.Legal (Users.Pre compare_) (Users.step compare_) s0 ops →
        ∃ s a, ops.foldlM (Users.step compare_) s0 = .ok s ∧
          Machine.Run (OrderedCursor.Step compare_) ⟨∅,fun _ => none⟩ (ops.map Op.call) a ∧
          Shows s a) := by
  obtain ⟨m,start,rep⟩ := newRepresents compare_ zero
  have sim : Simulates compare_ (⟨m,fun _ => Iterator.new⟩ : Users Key ι) ⟨∅,fun _ => none⟩ := by
    have keys : (∅ : Set Key) = keysOf ([] : List (Entry Key)) := by simp [keysOf]
    exact ⟨[],rep,keys,fun _ => .inl ⟨rfl,rfl⟩⟩
  have fresh : Users.new zero = .ok (⟨m,fun _ => Iterator.new⟩ : Users Key ι) := by
    simp only [Users.new,start,bind,Except.bind]
  refine ⟨_,fresh,?_⟩
  intro legal
  obtain ⟨s,a,run,moves,last⟩ := Machine.simulation (stepSimulates lawful) sim legal
  exact ⟨s,a,run,moves,simulatesShows last⟩

theorem iteratorsSimulateCursorsTwo :
    ∃ s0 s : Users Int Bool, Users.new 0 = .ok s0 ∧ ∃ a,
      [Op.insert 5 1,.seek true 4,.insert 7 3,.next true,.seekToLast false,.prev true].foldlM
        (Users.step (fun x y => x - y)) s0 = .ok s ∧
      Machine.Run (OrderedCursor.Step (fun x y => x - y)) ⟨∅,fun _ => none⟩
        [.insert 5,.seek true 4,.insert 7,.next true,.seekToLast false,.prev true] a ∧ Shows s a := by
  obtain ⟨s0,start,runs⟩ := iteratorsSimulateCursors (ι := Bool) ThreeWay.differenceLawful 0
    [.insert 5 1,.seek true 4,.insert 7 3,.next true,.seekToLast false,.prev true]
  have blank : Users.new 0 = .ok (⟨⟨[⟨0,List.replicate s_max_height_ (some none)⟩],1,
      Random.new 0xdeadbeef⟩,fun _ => Iterator.new⟩ : Users Int Bool) := by
    simp only [Users.new,newIs,bind,Except.bind]
  have legal : Machine.Legal (Users.Pre (fun x y : Int => x - y)) (Users.step (fun x y => x - y)) s0
      [.insert 5 1,.seek true 4,.insert 7 3,.next true,.seekToLast false,.prev true] := by
    cases Except.ok.inj (start.symm.trans blank)
    refine Machine.legalCons ⟨rfl,by decide⟩ rfl ?_
    refine Machine.legalCons trivial rfl ?_
    refine Machine.legalCons ⟨rfl,by decide⟩ rfl ?_
    refine Machine.legalCons rfl rfl ?_
    refine Machine.legalCons trivial rfl ?_
    exact Machine.legalCons rfl rfl trivial
  obtain ⟨s,a,run,moves,shows⟩ := runs legal
  exact ⟨s0,s,start,a,run,moves,shows⟩

end SkipList
end KVStorage
