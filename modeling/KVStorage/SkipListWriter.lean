import KVStorage.SkipListThreads

/-! The writer between two of its steps. At every point of insert the list is
linked in some order; the node being inserted belongs to it with the levels it
has reached, and no step of the writer takes a node off a level. -/
namespace KVStorage.SkipList

open Support

variable {Key : Type} {compare_ : Key → Key → Int}
variable {m : SkipList Key} {order : List (Entry Key)}

structure Steady (compare_ : Key → Key → Int) (m : SkipList Key) (order : List (Entry Key)) : Prop where
  linked : Linked compare_ m order
  height : 1 ≤ m.max_height_ ∧ m.max_height_ ≤ s_max_height_

def Full (m : SkipList Key) (order : List (Entry Key)) : Prop :=
  ∀ e ∈ order, m.shapes[e.ptr]? = some (e.key,e.linked) ∧ 1 ≤ e.linked

structure Accepted (compare_ : Key → Key → Int) (order : List (Entry Key)) (op : Insertion Key) : Prop where
  fresh : ∀ e ∈ order, compare_ op.key e.key ≠ 0
  one : 1 ≤ op.height
  low : op.height ≤ s_max_height_

/- The new node x in its place, linked at the levels below i. -/
structure Linking (m : SkipList Key) (order a b : List (Entry Key)) (op : Insertion Key) (prev : Prev)
    (x : Ptr) (i : Nat) : Prop where
  place : order = a ++ ⟨x,op.key,i⟩::b
  full : Full m (a ++ b)
  shape : m.shapes[x]? = some (op.key,op.height)
  reads : ∀ j < op.height, prev.read j = .ok ((chain a j).getLastD head_)
  top : m.max_height_ = max op.height (tallest (a ++ b))
  level : i < op.height

def WriterAt (compare_ : Key → Key → Int) (m : SkipList Key) (order : List (Entry Key)) :
    Writer Key → Prop
  | .idle => Represents compare_ m order
  | .begin op => Represents compare_ m order ∧ Accepted compare_ order op
  | .find op s => Represents compare_ m order ∧ Accepted compare_ order op ∧
    ∃ n, Searching order (isBefore compare_ op.key) m.max_height_ (some Prev.uninitialised) n s
  | .compareHeight op prev => Represents compare_ m order ∧ Accepted compare_ order op ∧
    Noted order (isBefore compare_ op.key) 0 m.max_height_ prev
  | .fillPrev op prev => Represents compare_ m order ∧ Accepted compare_ order op ∧
    Noted order (isBefore compare_ op.key) 0 m.max_height_ prev ∧ op.height > m.max_height_
  | .storeMaxHeight op prev => Represents compare_ m order ∧ Accepted compare_ order op ∧
    Noted order (isBefore compare_ op.key) 0 op.height prev ∧ op.height > m.max_height_
  | .newNode op prev => Full m order ∧ Accepted compare_ order op ∧
    Noted order (isBefore compare_ op.key) 0 m.max_height_ prev ∧
    m.max_height_ = max op.height (tallest order)
  | .loadNext op prev x i => ∃ a b, Linking m order a b op prev x i
  | .storeOwn op prev x i after => ∃ a b, Linking m order a b op prev x i ∧ after = (chain b i).head?
  | .storePrev op prev x i => ∃ a b, Linking m order a b op prev x i ∧ m.link i x (chain b i).head?

def Grows (order order' : List (Entry Key)) : Prop :=
  ∀ e ∈ order, ∃ e' ∈ order', e'.ptr = e.ptr ∧ e'.key = e.key ∧ e.linked ≤ e'.linked

theorem growsSelf (order : List (Entry Key)) : Grows order order :=
  fun e mem => ⟨e,mem,rfl,rfl,Nat.le_refl _⟩

theorem growsTrans {first second third : List (Entry Key)} (left : Grows first second)
    (right : Grows second third) : Grows first third := by
  intro e mem
  obtain ⟨d,hd,ptr,key,le⟩ := left e mem
  obtain ⟨c,hc,ptr',key',le'⟩ := right d hd
  exact ⟨c,hc,ptr'.trans ptr,key'.trans key,Nat.le_trans le le'⟩

theorem growsInto {a b : List (Entry Key)} (e : Entry Key) : Grows (a ++ b) (a ++ e::b) := by
  intro d hd
  refine ⟨d,?_,rfl,rfl,Nat.le_refl _⟩
  simp only [List.mem_append,List.mem_cons] at hd ⊢
  tauto

theorem growsLevel {a b : List (Entry Key)} {x : Ptr} {key : Key} {i : Nat} :
    Grows (a ++ ⟨x,key,i⟩::b) (a ++ ⟨x,key,i+1⟩::b) := by
  intro d hd
  have cases : d ∈ a ++ b ∨ d = ⟨x,key,i⟩ := by
    simp only [List.mem_append,List.mem_cons] at hd ⊢
    tauto
  rcases cases with old | rfl
  · exact growsInto _ d old
  · exact ⟨⟨x,key,i+1⟩,by simp,rfl,rfl,Nat.le_succ i⟩

/- What a step of the writer leads to. -/
def Moved (compare_ : Key → Key → Int) (m : SkipList Key) (order : List (Entry Key)) (w : Writer Key) : Prop :=
  ∃ m' w' order', w.step compare_ m = .ok (m',w') ∧ Steady compare_ m' order' ∧
    WriterAt compare_ m' order' w' ∧ Grows order order'

section Lawful

variable (lawful : ThreeWay.Lawful compare_)

theorem representsSteady (rep : Represents compare_ m order) : Steady compare_ m order :=
  ⟨rep.linked,representsHeight rep⟩

/- A step that only moves the writer on. -/
theorem stays {w w' : Writer Key} (steady : Steady compare_ m order) (run : w.step compare_ m = .ok (m,w'))
    (next : WriterAt compare_ m order w') : Moved compare_ m order w :=
  ⟨m,w',order,run,steady,next,growsSelf order⟩

theorem beginMoves {op : Insertion Key} (rep : Represents compare_ m order)
    (accepted : Accepted compare_ order op) : Moved compare_ m order (.begin op) := by
  have height := representsHeight rep
  refine stays (representsSteady rep) rfl ⟨rep,accepted,m.max_height_-1+order.length,?_,?_,rfl,?_⟩
  · simp only [getMaxHeight]
    omega
  · intro prev eq
    cases Option.some.inj eq
    exact ⟨List.length_replicate ..,fun j ge lt => by simp only [getMaxHeight] at ge; omega⟩
  · exact ⟨[],order,⟨rfl,by simp,.inl ⟨rfl,rfl⟩⟩,rfl⟩

include lawful in
theorem findMoves {op : Insertion Key} {s : Search} {n : Nat} (rep : Represents compare_ m order)
    (accepted : Accepted compare_ order op)
    (state : Searching order (isBefore compare_ op.key) m.max_height_ (some Prev.uninitialised) n s) :
    Moved compare_ m order (.find op s) := by
  have guided := keyGuided lawful rep.linked op.key
  have steady := representsSteady rep
  rcases searchRoundTotal rep.linked guided steady.height.2 state with ⟨t,k,run,_,next⟩ | ⟨f,run,done⟩
  · have step : (Writer.find op s).step compare_ m = .ok (m,.find op t) := by
      simp only [Writer.step,run,bind,Except.bind]
    exact stays steady step ⟨rep,accepted,k,next⟩
  · obtain ⟨prev,given⟩ := Option.isSome_iff_exists.mp done.same
    have free := assertFreshOk rep accepted.fresh
    rw [← successorAbove,← done.next] at free
    have step : (Writer.find op s).step compare_ m = .ok (m,.compareHeight op prev) := by
      simp only [Writer.step,run,free,given,Option.getD_some,bind,Except.bind]
    exact stays steady step ⟨rep,accepted,done.noted prev given⟩

theorem compareHeightMoves {op : Insertion Key} {prev : Prev} (rep : Represents compare_ m order)
    (accepted : Accepted compare_ order op)
    (noted : Noted order (isBefore compare_ op.key) 0 m.max_height_ prev) :
    Moved compare_ m order (.compareHeight op prev) := by
  have steady := representsSteady rep
  by_cases taller : op.height > m.max_height_
  · exact stays steady (if_pos taller) ⟨rep,accepted,noted,taller⟩
  · have top : m.max_height_ = max op.height (tallest order) := by
      rw [← rep.maxHeight]
      omega
    exact stays steady (if_neg taller) ⟨rep.full,accepted,noted,top⟩

theorem fillPrevMoves {op : Insertion Key} {prev : Prev} (rep : Represents compare_ m order)
    (accepted : Accepted compare_ order op)
    (noted : Noted order (isBefore compare_ op.key) 0 m.max_height_ prev) (taller : op.height > m.max_height_) :
    Moved compare_ m order (.fillPrev op prev) := by
  have empty : ∀ i, m.max_height_ ≤ i → predecessor order (isBefore compare_ op.key) i = head_ := by
    intro i ge
    simp [predecessor,levelEmpty rep ge]
  have span : m.max_height_ + (op.height - m.max_height_) = op.height := by omega
  have low := accepted.low
  obtain ⟨prev',run,done⟩ := growWrites (n := op.height - m.max_height_) empty noted (by omega)
  rw [span] at done
  have step : (Writer.fillPrev op prev).step compare_ m = .ok (m,.storeMaxHeight op prev') := by
    simp only [Writer.step,getMaxHeight,run,bind,Except.bind]
  exact stays (representsSteady rep) step ⟨rep,accepted,done,taller⟩

theorem storeMaxHeightMoves {op : Insertion Key} {prev : Prev} (rep : Represents compare_ m order)
    (accepted : Accepted compare_ order op)
    (noted : Noted order (isBefore compare_ op.key) 0 op.height prev) (taller : op.height > m.max_height_) :
    Moved compare_ m order (.storeMaxHeight op prev) := by
  have steady : Steady compare_ {m with max_height_ := op.height} order :=
    ⟨linkedSameNodes rep.linked rfl,accepted.one,accepted.low⟩
  have top : op.height = max op.height (tallest order) := by
    rw [← rep.maxHeight]
    omega
  exact ⟨_,_,order,rfl,steady,⟨rep.full,accepted,noted,top⟩,growsSelf order⟩

include lawful in
theorem newNodeMoves {op : Insertion Key} {prev : Prev} (steady : Steady compare_ m order)
    (full : Full m order) (accepted : Accepted compare_ order op)
    (noted : Noted order (isBefore compare_ op.key) 0 m.max_height_ prev)
    (top : m.max_height_ = max op.height (tallest order)) :
    Moved compare_ m order (.newNode op prev) := by
  have one := accepted.one
  have split := orderSplits lawful steady.linked op.key
  have linked := allocated lawful steady.linked accepted.fresh op.height accepted.low
  have kept : Full (m.newNode op.key op.height).1 order :=
    fun e mem => ⟨shapeKept (full e mem).1,(full e mem).2⟩
  have reads : ∀ j < op.height,
      prev.read j = .ok ((chain (below compare_ op.key order) j).getLastD head_) := by
    intro j lt
    rw [← predecessorBelow]
    exact readNoted noted (Nat.zero_le _) (by omega)
  have linking : Linking (m.newNode op.key op.height).1
      (below compare_ op.key order ++ ⟨m.nodes.length,op.key,0⟩::above compare_ op.key order)
      (below compare_ op.key order) (above compare_ op.key order) op prev m.nodes.length 0 :=
    ⟨rfl,split ▸ kept,newNodeShape op.key op.height,reads,split ▸ top,one⟩
  have grows := growsInto (a := below compare_ op.key order) (b := above compare_ op.key order)
    ⟨m.nodes.length,op.key,0⟩
  rw [← split] at grows
  have start : linkFrom op prev m.nodes.length 0 = .loadNext op prev m.nodes.length 0 := if_pos one
  refine ⟨_,.loadNext op prev m.nodes.length 0,_,?_,⟨linked,steady.height⟩,⟨_,_,linking⟩,grows⟩
  simp only [Writer.step,SkipList.newNode,start]

theorem loadNextMoves {op : Insertion Key} {prev : Prev} {x : Ptr} {i : Nat} {a b : List (Entry Key)}
    (steady : Steady compare_ m order) (linking : Linking m order a b op prev x i) :
    Moved compare_ m order (.loadNext op prev x i) := by
  have linked := steady.linked
  rw [linking.place] at linked
  have low := heightLow linked (e := ⟨x,op.key,i⟩) (by simp) linking.shape
  have after := predecessorLoads linked rfl (Nat.lt_of_lt_of_le linking.level low)
  have step : (Writer.loadNext op prev x i).step compare_ m = .ok (m,.storeOwn op prev x i (chain b i).head?) := by
    simp only [Writer.step,linking.reads i linking.level,after,bind,Except.bind]
  exact stays steady step ⟨a,b,linking,rfl⟩

theorem linkingKept {op : Insertion Key} {prev : Prev} {x y : Ptr} {i j : Nat} {a b : List (Entry Key)}
    {m' : SkipList Key} {z : Option Ptr} (linking : Linking m order a b op prev x i)
    (stored : Stored m y j z m') : Linking m' order a b op prev x i := by
  have full : Full m' (a ++ b) := by
    unfold Full
    rw [stored.shapes]
    exact linking.full
  exact ⟨linking.place,full,stored.shapes ▸ linking.shape,linking.reads,
    stored.maxHeight.trans linking.top,linking.level⟩

include lawful in
theorem storeOwnMoves {op : Insertion Key} {prev : Prev} {x : Ptr} {i : Nat} {a b : List (Entry Key)}
    (steady : Steady compare_ m order) (linking : Linking m order a b op prev x i) :
    Moved compare_ m order (.storeOwn op prev x i (chain b i).head?) := by
  have linked := steady.linked
  rw [linking.place] at linked
  obtain ⟨m',store,stored,linked'⟩ := ownStores lawful linked rfl linking.shape linking.level
    (chain b i).head?
  have steady' : Steady compare_ m' order :=
    ⟨linking.place ▸ linked',stored.maxHeight ▸ steady.height⟩
  refine ⟨m',.storePrev op prev x i,order,?_,steady',⟨a,b,linkingKept linking stored,stored.here⟩,
    growsSelf order⟩
  simp only [Writer.step,store,bind,Except.bind]

include lawful in
theorem storePrevMoves {op : Insertion Key} {prev : Prev} {x : Ptr} {i : Nat} {a b : List (Entry Key)}
    (steady : Steady compare_ m order) (linking : Linking m order a b op prev x i)
    (out : m.link i x (chain b i).head?) : Moved compare_ m order (.storePrev op prev x i) := by
  have linked := steady.linked
  rw [linking.place] at linked
  have low := heightLow linked (e := ⟨x,op.key,i⟩) (by simp) linking.shape
  obtain ⟨m',store,stored,linked'⟩ := predecessorStores lawful linked rfl linking.shape linking.level
    (Nat.lt_of_lt_of_le linking.level low) out
  have steady' : Steady compare_ m' (a ++ ⟨x,op.key,i+1⟩::b) := ⟨linked',stored.maxHeight ▸ steady.height⟩
  have kept := linkingKept linking stored
  have grows : Grows order (a ++ ⟨x,op.key,i+1⟩::b) := linking.place ▸ growsLevel
  refine ⟨m',linkFrom op prev x (i+1),_,?_,steady',?_,grows⟩
  · simp only [Writer.step,linking.reads i linking.level,store,bind,Except.bind]
  · by_cases more : i+1 < op.height
    · simp only [linkFrom,if_pos more]
      exact ⟨a,b,rfl,kept.full,kept.shape,kept.reads,kept.top,more⟩
    · have last : i+1 = op.height := Nat.le_antisymm linking.level (Nat.not_lt.mp more)
      simp only [linkFrom,if_neg more]
      exact linkedRepresents linked' kept.full (by rw [last]; exact kept.shape) (Nat.le_add_left ..)
        (by rw [last]; exact kept.top)

include lawful in
theorem writerMoves {w : Writer Key} (steady : Steady compare_ m order)
    (here : WriterAt compare_ m order w) : Moved compare_ m order w := by
  cases w with
  | idle => exact stays steady rfl here
  | begin op => exact beginMoves here.1 here.2
  | find op s =>
    obtain ⟨rep,accepted,n,state⟩ := here
    exact findMoves lawful rep accepted state
  | compareHeight op prev => exact compareHeightMoves here.1 here.2.1 here.2.2
  | fillPrev op prev => exact fillPrevMoves here.1 here.2.1 here.2.2.1 here.2.2.2
  | storeMaxHeight op prev => exact storeMaxHeightMoves here.1 here.2.1 here.2.2.1 here.2.2.2
  | newNode op prev => exact newNodeMoves lawful steady here.1 here.2.1 here.2.2.1 here.2.2.2
  | loadNext op prev x i =>
    obtain ⟨a,b,linking⟩ := here
    exact loadNextMoves steady linking
  | storeOwn op prev x i after =>
    obtain ⟨a,b,linking,rfl⟩ := here
    exact storeOwnMoves lawful steady linking
  | storePrev op prev x i =>
    obtain ⟨a,b,linking,out⟩ := here
    exact storePrevMoves lawful steady linking out

end Lawful
end KVStorage.SkipList
