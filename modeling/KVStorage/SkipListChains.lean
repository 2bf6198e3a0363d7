import KVStorage.SkipList
import KVStorage.Support.Chain
import KVStorage.Support.Sorted
import KVStorage.Support.ThreeWay
import Mathlib.Data.List.Perm.Subperm

/-! The chains of a skip list as one ordered list of entries. An entry says at
how many levels its node is linked so far, so the same invariant describes a
finished list and one whose insertion has linked only the lower levels. -/
namespace KVStorage.SkipList

open Support

variable {Key : Type}

structure Entry (Key : Type) where
  ptr : Ptr
  key : Key
  linked : Nat
  deriving DecidableEq, Repr

def shapes (m : SkipList Key) : List (Key × Nat) := m.nodes.map (fun n => (n.key,n.nexts_.length))

def link (m : SkipList Key) (i : Nat) (x : Ptr) (y : Option Ptr) : Prop := m.next x i = .ok y

/- The entries that take part in the chain of level i. -/
def level (order : List (Entry Key)) (i : Nat) : List (Entry Key) :=
  order.filter (fun e => decide (i < e.linked))

def chain (order : List (Entry Key)) (i : Nat) : List Ptr := (level order i).map Entry.ptr

def predecessor (order : List (Entry Key)) (p : Key → Bool) (i : Nat) : Ptr :=
  (((level order i).filter (fun e => p e.key)).map Entry.ptr).getLastD head_

def successor (order : List (Entry Key)) (p : Key → Bool) (i : Nat) : Option Ptr :=
  ((level order i).filter (fun e => !p e.key)).head?.map Entry.ptr

structure Linked (compare_ : Key → Key → Int) (m : SkipList Key) (order : List (Entry Key)) : Prop where
  chains : ∀ i < s_max_height_, Chain.Spells (m.link i) head_ (chain order i)
  sorted : order.Pairwise (fun a b => compare_ a.key b.key < 0)
  shaped : ∀ e ∈ order, ∃ h, m.shapes[e.ptr]? = some (e.key,h) ∧ e.linked ≤ h ∧ h ≤ s_max_height_
  apart : ∀ e ∈ order, e.ptr ≠ head_
  headShape : ∃ k, m.shapes[head_]? = some (k,s_max_height_)

theorem memSplice {a b : List (Entry Key)} {d e : Entry Key} : d ∈ a ++ e::b ↔ d = e ∨ d ∈ a ++ b :=
  List.perm_middle.mem_iff.trans List.mem_cons

theorem levelAppend (a b : List (Entry Key)) (i : Nat) : level (a ++ b) i = level a i ++ level b i :=
  List.filter_append ..

theorem levelCons (e : Entry Key) (rest : List (Entry Key)) (i : Nat) :
    level (e::rest) i = if i < e.linked then e::level rest i else level rest i := by
  simp [level,List.filter_cons]

theorem memLevel {order : List (Entry Key)} {i e} : e ∈ level order i ↔ e ∈ order ∧ i < e.linked := by
  simp [level]

theorem memChain {order : List (Entry Key)} {i x} : x ∈ chain order i ↔ ∃ e ∈ order, e.ptr = x ∧ i < e.linked := by
  simp only [chain,List.mem_map,memLevel]
  constructor
  · intro member
    obtain ⟨e,⟨mem,high⟩,eq⟩ := member
    exact ⟨e,mem,eq,high⟩
  · intro entry
    obtain ⟨e,mem,eq,high⟩ := entry
    exact ⟨e,⟨mem,high⟩,eq⟩

theorem chainNested (order : List (Entry Key)) (i : Nat) : (chain order (i+1)).Sublist (chain order i) := by
  have more : level order (i+1) = (level order i).filter (fun e => decide (i+1 < e.linked)) := by
    simp only [level,List.filter_filter]
    apply List.filter_congr
    intro e _
    by_cases high : i+1 < e.linked
    · have low : i < e.linked := by omega
      simp [high,low]
    · simp [high]
  rw [chain,chain,more]
  exact List.Sublist.map _ List.filter_sublist

/- Store and load. -/

theorem nodeOfShape {m : SkipList Key} {x k h} (shape : m.shapes[x]? = some (k,h)) :
    ∃ node, m.node x = .ok node ∧ node.key = k ∧ node.nexts_.length = h := by
  simp only [shapes,List.getElem?_map,Option.map_eq_some_iff,Prod.mk.injEq] at shape
  obtain ⟨node,found,hk,hh⟩ := shape
  exact ⟨node,by simp only [SkipList.node,found],hk,hh⟩

theorem shapeOfNode {m : SkipList Key} {x node} (found : m.node x = .ok node) :
    m.shapes[x]? = some (node.key,node.nexts_.length) := by
  unfold SkipList.node at found
  cases h : m.nodes[x]? with
  | none => simp [h] at found
  | some n =>
    simp only [h,Except.ok.injEq] at found
    simp [shapes,h,found]

theorem nextFunctional {m : SkipList Key} {i} (x : Ptr) (y z : Option Ptr)
    (left : m.link i x y) (right : m.link i x z) : y = z :=
  Except.ok.inj (left.symm.trans right)

/- What a store of y into nexts_[n] of x does, and all it does. -/
structure Stored (m : SkipList Key) (x : Ptr) (n : Nat) (y : Option Ptr) (m' : SkipList Key) : Prop where
  here : m'.link n x y
  others : ∀ x' n', ¬(x' = x ∧ n' = n) → m'.next x' n' = m.next x' n'
  shapes : m'.shapes = m.shapes
  maxHeight : m'.max_height_ = m.max_height_

theorem setNextStored {m m' : SkipList Key} {x n y} (ok : m.setNext x n y = .ok m') :
    Stored m x n y m' := by
  simp only [setNext,SkipList.node] at ok
  cases hx : m.nodes[x]? with
  | none => simp [hx,bind,Except.bind] at ok
  | some node =>
    simp only [hx,bind,Except.bind] at ok
    split at ok <;> try contradiction
    rename_i inside
    cases Except.ok.inj ok
    obtain ⟨bound,found⟩ := List.getElem?_eq_some_iff.mp hx
    refine ⟨?_,?_,?_,rfl⟩
    · simp [link,next,SkipList.node,bind,Except.bind,bound,inside]
    · intro x' n' other
      by_cases same : x' = x
      · subst x'
        have apart : n ≠ n' := fun eq => other ⟨rfl,eq.symm⟩
        simp [next,SkipList.node,bind,Except.bind,bound,found,apart]
      · simp [next,SkipList.node,List.getElem?_set_ne (Ne.symm same)]
    · apply List.ext_getElem?
      intro j
      by_cases same : j = x
      · subst j
        simp [SkipList.shapes,bound,found]
      · simp [SkipList.shapes,List.getElem?_set_ne (Ne.symm same)]

theorem setNextOk {m : SkipList Key} {x n y k h} (shape : m.shapes[x]? = some (k,h)) (inside : n < h) :
    ∃ m', m.setNext x n y = .ok m' := by
  obtain ⟨node,found,_,hh⟩ := nodeOfShape shape
  subst hh
  exact ⟨_,by simp only [setNext,found,bind,Except.bind,if_pos inside]; rfl⟩

section Ordered

variable {compare_ : Key → Key → Int} (lawful : ThreeWay.Lawful compare_)
variable {m : SkipList Key} {order : List (Entry Key)}

include lawful in
theorem ptrsDistinct (linked : Linked compare_ m order) : (head_::order.map Entry.ptr).Nodup := by
  refine List.nodup_cons.mpr ⟨?_,?_⟩
  · intro mem
    obtain ⟨e,he,same⟩ := List.mem_map.mp mem
    exact linked.apart e he same
  · refine List.pairwise_map.mpr (linked.sorted.imp_of_mem ?_)
    intro a b ha hb less same
    obtain ⟨_,sa,_⟩ := linked.shaped a ha
    obtain ⟨_,sb,_⟩ := linked.shaped b hb
    rw [same,sb] at sa
    have keys : b.key = a.key := congrArg Prod.fst (Option.some.inj sa)
    rw [keys] at less
    exact lawful.irrefl less

include lawful in
theorem chainDistinct (linked : Linked compare_ m order) (i : Nat) : (head_::chain order i).Nodup := by
  have sub : (chain order i).Sublist (order.map Entry.ptr) := (List.filter_sublist ..).map _
  exact (ptrsDistinct lawful linked).sublist (sub.cons_cons head_)

include lawful in
theorem orderShort (linked : Linked compare_ m order) : order.length < m.nodes.length := by
  have distinct := ptrsDistinct lawful linked
  have inside : head_::order.map Entry.ptr ⊆ List.range m.nodes.length := by
    have ofShape : ∀ {x k h}, m.shapes[x]? = some (k,h) → x ∈ List.range m.nodes.length := by
      intro x k h shape
      have bound := (List.getElem?_eq_some_iff.mp shape).1
      simpa [shapes] using bound
    intro x mem
    rcases List.mem_cons.mp mem with rfl | rest
    · obtain ⟨k,shape⟩ := linked.headShape
      exact ofShape shape
    · obtain ⟨e,he,rfl⟩ := List.mem_map.mp rest
      obtain ⟨h,shape,_⟩ := linked.shaped e he
      exact ofShape shape
  have size := (List.subperm_of_subset distinct inside).length_le
  simp only [List.length_cons,List.length_map,List.length_range] at size
  omega

/- Searching. A search is guided by a test on keys that holds of a first part of
the order: it moves right exactly onto nodes that pass. -/

structure Guided (order : List (Entry Key)) (p : Key → Bool) (compare_ : Key → Key → Int)
    (check : Ptr → Except Fault Unit) (right : Option Ptr → Except Fault Bool) : Prop where
  closed : ∀ a b, compare_ a b < 0 → p b = true → p a = true
  null : right none = .ok false
  goes : ∀ e ∈ order, right (some e.ptr) = .ok (p e.key)
  headChecks : check head_ = .ok ()
  checks : ∀ e ∈ order, p e.key = true → check e.ptr = .ok ()

/- Where a search can be: at the head or on a node of its level that passed. -/
def Stands (order : List (Entry Key)) (p : Key → Bool) (i : Nat) (x : Ptr) : Prop :=
  x = head_ ∨ ∃ e ∈ order, e.ptr = x ∧ i < e.linked ∧ p e.key = true

structure At (order : List (Entry Key)) (p : Key → Bool) (i : Nat) (x : Ptr)
    (done rest : List (Entry Key)) : Prop where
  split : order = done ++ rest
  passed : ∀ e ∈ done, p e.key = true
  here : (done = [] ∧ x = head_) ∨ ∃ front e, done = front ++ [e] ∧ e.ptr = x ∧ i < e.linked

theorem standsAt {p : Key → Bool} {i x} (linked : Linked compare_ m order)
    (closed : ∀ a b, compare_ a b < 0 → p b = true → p a = true) (stands : Stands order p i x) :
    ∃ done rest, At order p i x done rest := by
  rcases stands with rfl | ⟨e,mem,rfl,tall,passes⟩
  · exact ⟨[],order,rfl,by simp,.inl ⟨rfl,rfl⟩⟩
  · obtain ⟨front,rest,eq⟩ := List.append_of_mem mem
    refine ⟨front ++ [e],rest,by simpa using eq,?_,.inr ⟨front,e,rfl,rfl,tall⟩⟩
    intro d hd
    rcases List.mem_append.mp hd with before | last
    · have sorted := linked.sorted
      rw [eq] at sorted
      exact closed _ _ ((List.pairwise_append.mp sorted).2.2 d before e (by simp)) passes
    · have same : d = e := by simpa using last
      rw [same]
      exact passes

theorem atStands {p : Key → Bool} {i x done rest} (here : At order p i x done rest) : Stands order p i x := by
  rcases here.here with ⟨_,rfl⟩ | ⟨front,e,eq,ptr,tall⟩
  · exact .inl rfl
  · refine .inr ⟨e,?_,ptr,tall,here.passed e (by simp [eq])⟩
    rw [here.split,eq]
    simp

theorem lowerLevel {p : Key → Bool} {i j x done rest} (here : At order p i x done rest) (low : j ≤ i) :
    At order p j x done rest := by
  have tall : (done = [] ∧ x = head_) ∨ ∃ front e, done = front ++ [e] ∧ e.ptr = x ∧ j < e.linked := by
    rcases here.here with head | ⟨front,e,ends,ptr,tall⟩
    · exact .inl head
    · exact .inr ⟨front,e,ends,ptr,Nat.lt_of_le_of_lt low tall⟩
  exact ⟨here.split,here.passed,tall⟩

theorem atLast {p : Key → Bool} {i x done rest} (here : At order p i x done rest) :
    (chain done i).getLastD head_ = x := by
  rcases here.here with ⟨rfl,rfl⟩ | ⟨front,e,rfl,ptr,tall⟩
  · rfl
  · simp [chain,level,tall,ptr]

theorem atNext {p : Key → Bool} {i x done rest} (linked : Linked compare_ m order)
    (here : At order p i x done rest) (low : i < s_max_height_) :
    m.next x i = .ok (chain rest i).head? := by
  have spells := linked.chains i low
  have eq : chain order i = chain done i ++ chain rest i := by
    simp [chain,here.split,levelAppend]
  rw [eq] at spells
  have next := Chain.successor spells
  rwa [atLast here] at next

theorem atRight {p : Key → Bool} {i x done rest e later} (linked : Linked compare_ m order)
    (closed : ∀ a b, compare_ a b < 0 → p b = true → p a = true)
    (here : At order p i x done rest) (first : level rest i = e::later) (passes : p e.key = true) :
    e ∈ order ∧ i < e.linked ∧
      ∃ done' rest', At order p i e.ptr done' rest' ∧ rest'.length < rest.length := by
  obtain ⟨skipped,tail,eq,_,tall,_⟩ := List.filter_eq_cons_iff.mp first
  have tall : i < e.linked := by simpa using tall
  have sorted := linked.sorted
  rw [here.split,eq] at sorted
  have later := (List.pairwise_append.mp (List.pairwise_append.mp sorted).2.1).2.2
  refine ⟨by rw [here.split,eq]; simp,tall,done ++ skipped ++ [e],tail,⟨?_,?_,?_⟩,?_⟩
  · rw [here.split,eq]
    simp
  · intro d hd
    rcases List.mem_append.mp hd with mem | last
    · rcases List.mem_append.mp mem with old | new
      · exact here.passed d old
      · exact closed _ _ (later d new e (by simp)) passes
    · have same : d = e := by simpa using last
      rw [same]
      exact passes
  · exact .inr ⟨done ++ skipped,e,rfl,rfl,tall⟩
  · simp [eq]
    omega

theorem atStops {p : Key → Bool} {i x done rest} (linked : Linked compare_ m order)
    (closed : ∀ a b, compare_ a b < 0 → p b = true → p a = true) (here : At order p i x done rest)
    (stops : ∀ e, (level rest i).head? = some e → p e.key = false) :
    x = predecessor order p i ∧ (chain rest i).head? = successor order p i := by
  have fails : ∀ e ∈ level rest i, p e.key = false := by
    have sorted : (level rest i).Pairwise (fun a b => compare_ a.key b.key < 0) := by
      have whole := linked.sorted
      rw [here.split] at whole
      exact (List.pairwise_append.mp whole).2.1.filter _
    cases hr : level rest i with
    | nil => simp
    | cons e later =>
      have first := stops e (by simp [hr])
      rw [hr] at sorted
      have after := Sorted.failsAfter (p := fun e : Entry Key => p e.key) sorted
        (fun a b => closed a.key b.key) first
      intro d hd
      rcases List.mem_cons.mp hd with rfl | mem
      · exact first
      · exact after d mem
  have passes : ∀ e ∈ level done i, p e.key = true :=
    fun e he => here.passed e (memLevel.mp he).1
  have keep : (level done i).filter (fun e => p e.key) = level done i :=
    List.filter_eq_self.mpr passes
  have drop : (level done i).filter (fun e => !p e.key) = [] :=
    List.filter_eq_nil_iff.mpr (by simpa using passes)
  have none : (level rest i).filter (fun e => p e.key) = [] :=
    List.filter_eq_nil_iff.mpr (by simpa using fails)
  have all : (level rest i).filter (fun e => !p e.key) = level rest i :=
    List.filter_eq_self.mpr (by simpa using fails)
  have last := atLast here
  have split := here.split
  subst split
  constructor
  · rw [← last]
    simp only [predecessor,levelAppend,List.filter_append,keep,none,List.append_nil,chain]
  · simp only [successor,levelAppend,List.filter_append,drop,all,List.nil_append,chain,List.head?_map]

end Ordered
end KVStorage.SkipList
