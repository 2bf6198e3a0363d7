import KVStorage.SkipListSearch

/-! Insertion. The new node enters the order with no level linked; each round of
the linking loop then raises its count by one and touches no other chain. -/
namespace KVStorage.SkipList

open Support

variable {Key : Type} {compare_ : Key → Key → Int}
variable {m m' : SkipList Key} {order : List (Entry Key)}

def isBefore (compare_ : Key → Key → Int) (key : Key) (k : Key) : Bool := decide (compare_ k key < 0)

def below (compare_ : Key → Key → Int) (key : Key) (order : List (Entry Key)) : List (Entry Key) :=
  order.filter (fun e => isBefore compare_ key e.key)

def above (compare_ : Key → Key → Int) (key : Key) (order : List (Entry Key)) : List (Entry Key) :=
  order.filter (fun e => !isBefore compare_ key e.key)

section Lawful

variable (lawful : ThreeWay.Lawful compare_)

include lawful in
theorem isBeforeClosed (key : Key) (a b : Key) (less : compare_ a b < 0)
    (passes : isBefore compare_ key b = true) : isBefore compare_ key a = true :=
  decide_eq_true (lawful.ltTrans less (of_decide_eq_true passes))

include lawful in
theorem orderSplits (linked : Linked compare_ m order) (key : Key) :
    order = below compare_ key order ++ above compare_ key order :=
  Sorted.split linked.sorted (fun a b => isBeforeClosed lawful key a.key b.key)

include lawful in
theorem keyGuided (linked : Linked compare_ m order) (key : Key) :
    Guided order (isBefore compare_ key) compare_ noCheck (m.keyIsAfterNode compare_ key) := by
  refine ⟨isBeforeClosed lawful key,rfl,?_,rfl,fun _ _ _ => rfl⟩
  intro e mem
  obtain ⟨h,shape,_⟩ := linked.shaped e mem
  obtain ⟨node,found,same,_⟩ := nodeOfShape shape
  simp only [keyIsAfterNode,found,bind,Except.bind,same,isBefore]

theorem predecessorBelow (key : Key) (i : Nat) :
    predecessor order (isBefore compare_ key) i = (chain (below compare_ key order) i).getLastD head_ := by
  simp only [predecessor,chain,level,below,List.filter_filter,Bool.and_comm]

theorem successorAbove (key : Key) (i : Nat) :
    successor order (isBefore compare_ key) i = (chain (above compare_ key order) i).head? := by
  simp only [successor,chain,level,above,List.filter_filter,Bool.and_comm,List.head?_map]

/- A store that hits no cell of a chain. -/
theorem storeAside {x i y} (linked : Linked compare_ m order) (stored : Stored m x i y m')
    (aside : x ∉ head_::chain order i) : Linked compare_ m' order := by
  have chains : ∀ j < s_max_height_, Chain.Spells (m'.link j) head_ (chain order j) := by
    intro j low
    apply Chain.mono (linked.chains j low)
    intro z mem after old
    have other : ¬(z = x ∧ j = i) := by
      intro both
      rw [both.1,both.2] at mem
      exact aside mem
    exact (stored.others z j other).trans old
  exact ⟨chains,linked.sorted,stored.shapes ▸ linked.shaped,linked.apart,stored.shapes ▸ linked.headShape⟩

theorem chainRaised {a b : List (Entry Key)} {e : Entry Key} {i j : Nat} (here : e.linked = i)
    (other : j ≠ i) : chain (a ++ {e with linked := i+1}::b) j = chain (a ++ e::b) j := by
  have same : (j < i+1) ↔ (j < e.linked) := by omega
  by_cases tall : j < e.linked
  · simp [chain,levelAppend,levelCons,same,tall]
  · simp [chain,levelAppend,levelCons,same,tall]

theorem chainWithout {a b : List (Entry Key)} {e : Entry Key} {i : Nat} (here : e.linked = i) :
    chain (a ++ e::b) i = chain a i ++ chain b i := by
  simp [chain,levelAppend,levelCons,here]

theorem chainWith {a b : List (Entry Key)} {e : Entry Key} {i : Nat} :
    chain (a ++ {e with linked := i+1}::b) i = chain a i ++ e.ptr::chain b i := by
  simp [chain,levelAppend,levelCons]

include lawful in
theorem notInChain {a b : List (Entry Key)} {e : Entry Key} {i : Nat}
    (linked : Linked compare_ m (a ++ e::b)) (here : e.linked = i) :
    e.ptr ∉ head_::chain (a ++ e::b) i := by
  have distinct := ptrsDistinct lawful linked
  simp only [List.map_append,List.map_cons,List.nodup_cons,List.nodup_append,
    List.mem_append,List.mem_cons] at distinct
  rw [chainWithout here]
  have sub : ∀ l : List (Entry Key), ∀ x ∈ chain l i, x ∈ l.map Entry.ptr :=
    fun l x mem => (((List.filter_sublist ..).map Entry.ptr).subset mem)
  intro mem
  rcases List.mem_cons.mp mem with head | inside
  · exact distinct.1 (.inr (.inl head.symm))
  · rcases List.mem_append.mp inside with left | right
    · exact distinct.2.2.2 e.ptr (sub a _ left) e.ptr (.inl rfl) rfl
    · exact distinct.2.2.1.1 (sub b _ right)

theorem heightLow {e : Entry Key} {h : Nat} (linked : Linked compare_ m order) (mem : e ∈ order)
    (shape : m.shapes[e.ptr]? = some (e.key,h)) : h ≤ s_max_height_ := by
  obtain ⟨h',shape',_,low⟩ := linked.shaped e mem
  rw [shape] at shape'
  cases Option.some.inj shape'
  exact low

/- The predecessor's store brings the node into the chain of level i, and into no other. -/
include lawful in
theorem chainsInto {a b : List (Entry Key)} {e : Entry Key} {i : Nat}
    (linked : Linked compare_ m (a ++ e::b)) (here : e.linked = i) (out : m.link i e.ptr (chain b i).head?)
    (stored : Stored m ((chain a i).getLastD head_) i (some e.ptr) m') :
    ∀ j < s_max_height_, Chain.Spells (m'.link j) head_ (chain (a ++ {e with linked := i+1}::b) j) := by
  have outside := notInChain lawful linked here
  have distinct := chainDistinct lawful linked i
  rw [chainWithout here] at outside distinct
  have last : (chain a i).getLastD head_ ∈ head_::(chain a i ++ chain b i) := by
    have mem : (chain a i).getLastD head_ ∈ head_::chain a i := List.getLastD_mem_cons ..
    rcases List.mem_cons.mp mem with eq | inside
    · rw [eq]; exact List.mem_cons_self
    · exact List.mem_cons_of_mem _ (List.mem_append_left _ inside)
  have apart : e.ptr ≠ (chain a i).getLastD head_ := fun eq => outside (eq ▸ last)
  intro j low
  by_cases same : j = i
  · subst j
    have spells := linked.chains i low
    rw [chainWithout here] at spells
    rw [chainWith]
    have leaves := (stored.others _ _ (fun both => apart both.1)).trans out
    apply Chain.splice spells distinct stored.here leaves
    intro y _ far z old
    exact (stored.others _ _ (fun both => far both.1)).trans old
  · rw [chainRaised here same]
    apply Chain.mono (linked.chains j low)
    intro y _ z old
    exact (stored.others _ _ (fun both => same both.2)).trans old

include lawful in
theorem storeInto {a b : List (Entry Key)} {e : Entry Key} {i h : Nat}
    (linked : Linked compare_ m (a ++ e::b)) (here : e.linked = i)
    (shape : m.shapes[e.ptr]? = some (e.key,h)) (tall : i < h)
    (out : m.link i e.ptr (chain b i).head?)
    (stored : Stored m ((chain a i).getLastD head_) i (some e.ptr) m') :
    Linked compare_ m' (a ++ {e with linked := i+1}::b) := by
  have sorted : (a ++ {e with linked := i+1}::b).Pairwise (fun a b => compare_ a.key b.key < 0) := by
    have before := linked.sorted
    rw [List.pairwise_append,List.pairwise_cons] at before ⊢
    have across : ∀ x ∈ a, ∀ y ∈ {e with linked := i+1}::b, compare_ x.key y.key < 0 := by
      intro x hx y hy
      rcases List.mem_cons.mp hy with rfl | later
      · exact before.2.2 x hx e List.mem_cons_self
      · exact before.2.2 x hx y (List.mem_cons_of_mem _ later)
    exact ⟨before.1,before.2.1,across⟩
  have shaped : ∀ d ∈ a ++ {e with linked := i+1}::b,
      ∃ h, m'.shapes[d.ptr]? = some (d.key,h) ∧ d.linked ≤ h ∧ h ≤ s_max_height_ := by
    intro d hd
    rw [stored.shapes]
    rcases memSplice.mp hd with rfl | old
    · exact ⟨h,shape,tall,heightLow linked (memSplice.mpr (.inl rfl)) shape⟩
    · exact linked.shaped d (memSplice.mpr (.inr old))
  have aside : ∀ d ∈ a ++ {e with linked := i+1}::b, d.ptr ≠ head_ := by
    intro d hd
    rcases memSplice.mp hd with rfl | old
    · exact linked.apart e (memSplice.mpr (.inl rfl))
    · exact linked.apart d (memSplice.mpr (.inr old))
  exact ⟨chainsInto lawful linked here out stored,sorted,shaped,aside,stored.shapes ▸ linked.headShape⟩

theorem nodeKept {key : Key} {height : Nat} {x n} (found : m.node x = .ok n) :
    (m.newNode key height).1.node x = .ok n := by
  unfold node at found ⊢
  cases h : m.nodes[x]? with
  | none => simp [h] at found
  | some old =>
    have bound := (List.getElem?_eq_some_iff.mp h).1
    simp only [newNode,List.getElem?_append_left bound,h]
    simpa only [h] using found

theorem nextKept {key : Key} {height : Nat} {x i y} (found : m.next x i = .ok y) :
    (m.newNode key height).1.next x i = .ok y := by
  cases h : m.node x with
  | error e => simp [next,h,bind,Except.bind] at found
  | ok n =>
    simp only [next,h,nodeKept h,bind,Except.bind] at found ⊢
    exact found

theorem shapeKept {key : Key} {height : Nat} {x : Ptr} {s} (found : m.shapes[x]? = some s) :
    (m.newNode key height).1.shapes[x]? = some s := by
  have bound := (List.getElem?_eq_some_iff.mp found).1
  have grown : (m.newNode key height).1.shapes = m.shapes ++ [(key,height)] := by
    simp [newNode,shapes]
  rw [grown,List.getElem?_append_left bound]
  exact found

theorem newNodeShape (key : Key) (height : Nat) :
    (m.newNode key height).1.shapes[m.nodes.length]? = some (key,height) := by
  simp [newNode,shapes]

theorem chainUnlinked {a b : List (Entry Key)} {e : Entry Key} {i : Nat} (none : e.linked = 0) :
    chain (a ++ e::b) i = chain (a ++ b) i := by
  simp [chain,levelAppend,levelCons,none]

include lawful in
theorem enteredSorted {key : Key} (linked : Linked compare_ m order) (fresh : ∀ e ∈ order, compare_ key e.key ≠ 0)
    (x : Ptr) (n : Nat) : (below compare_ key order ++ ⟨x,key,n⟩::above compare_ key order).Pairwise
      (fun a b => compare_ a.key b.key < 0) := by
  have left : ∀ d ∈ below compare_ key order, compare_ d.key key < 0 := by
    intro d hd
    simpa [isBefore] using (List.mem_filter.mp hd).2
  have right : ∀ e ∈ above compare_ key order, compare_ key e.key < 0 := by
    intro e he
    obtain ⟨mem,after⟩ := List.mem_filter.mp he
    have notLess : ¬ compare_ e.key key < 0 := by simpa [isBefore] using after
    exact lt_of_le_of_ne (lawful.nonposIff.mpr (Int.not_lt.mp notLess)) (fresh e mem)
  have upper : (⟨x,key,n⟩::above compare_ key order).Pairwise (fun a b => compare_ a.key b.key < 0) :=
    List.pairwise_cons.mpr ⟨right,linked.sorted.filter _⟩
  have across : ∀ d ∈ below compare_ key order, ∀ e ∈ ⟨x,key,n⟩::above compare_ key order,
      compare_ d.key e.key < 0 := by
    intro d hd e he
    rcases List.mem_cons.mp he with rfl | after
    · exact left d hd
    · exact lawful.ltTrans (left d hd) (right e after)
  exact List.pairwise_append.mpr ⟨linked.sorted.filter _,upper,across⟩

include lawful in
theorem allocated {key : Key} (linked : Linked compare_ m order)
    (fresh : ∀ e ∈ order, compare_ key e.key ≠ 0) (height : Nat) (low : height ≤ s_max_height_) :
    Linked compare_ (m.newNode key height).1
      (below compare_ key order ++ ⟨m.nodes.length,key,0⟩::above compare_ key order) := by
  have split := orderSplits lawful linked key
  have chains : ∀ i < s_max_height_, Chain.Spells ((m.newNode key height).1.link i) head_
      (chain (below compare_ key order ++ ⟨m.nodes.length,key,0⟩::above compare_ key order) i) := by
    intro i inside
    rw [chainUnlinked rfl,← split]
    exact Chain.mono (linked.chains i inside) (fun _ _ _ old => nextKept old)
  have shaped : ∀ d ∈ below compare_ key order ++ ⟨m.nodes.length,key,0⟩::above compare_ key order,
      ∃ h, (m.newNode key height).1.shapes[d.ptr]? = some (d.key,h) ∧ d.linked ≤ h ∧ h ≤ s_max_height_ := by
    intro d hd
    rcases memSplice.mp hd with rfl | old
    · exact ⟨height,newNodeShape key height,Nat.zero_le _,low⟩
    · obtain ⟨h,shape,bounds⟩ := linked.shaped d (split ▸ old)
      exact ⟨h,shapeKept shape,bounds⟩
  have aside : ∀ d ∈ below compare_ key order ++ ⟨m.nodes.length,key,0⟩::above compare_ key order,
      d.ptr ≠ head_ := by
    intro d hd
    rcases memSplice.mp hd with rfl | old
    · obtain ⟨k,shape⟩ := linked.headShape
      have bound := (List.getElem?_eq_some_iff.mp shape).1
      have positive : head_ < m.nodes.length := by simpa [shapes] using bound
      exact Nat.ne_of_gt positive
    · exact linked.apart d (split ▸ old)
  obtain ⟨k,shape⟩ := linked.headShape
  exact ⟨chains,enteredSorted lawful linked fresh _ 0,shaped,aside,k,shapeKept shape⟩

theorem readNoted {prev : Prev} {p : Key → Bool} {i lo top : Nat} (noted : Noted order p lo top prev)
    (ge : lo ≤ i) (lt : i < top) : prev.read i = .ok (predecessor order p i) := by
  simp only [Prev.read,noted.2 i ge lt]

/- A round of the linking loop, store by store. -/
theorem predecessorLoads {a b : List (Entry Key)} {e : Entry Key} {i : Nat}
    (linked : Linked compare_ m (a ++ e::b)) (here : e.linked = i) (inside : i < s_max_height_) :
    m.next ((chain a i).getLastD head_) i = .ok (chain b i).head? := by
  have spells := linked.chains i inside
  rw [chainWithout here] at spells
  exact Chain.successor spells

include lawful in
theorem ownStores {a b : List (Entry Key)} {e : Entry Key} {i h : Nat}
    (linked : Linked compare_ m (a ++ e::b)) (here : e.linked = i)
    (shape : m.shapes[e.ptr]? = some (e.key,h)) (tall : i < h) (after : Option Ptr) :
    ∃ m', m.setNext e.ptr i after = .ok m' ∧ Stored m e.ptr i after m' ∧ Linked compare_ m' (a ++ e::b) := by
  obtain ⟨m',store⟩ := setNextOk (y := after) shape tall
  have stored := setNextStored store
  exact ⟨m',store,stored,storeAside linked stored (notInChain lawful linked here)⟩

include lawful in
theorem predecessorStores {a b : List (Entry Key)} {e : Entry Key} {i h : Nat}
    (linked : Linked compare_ m (a ++ e::b)) (here : e.linked = i)
    (shape : m.shapes[e.ptr]? = some (e.key,h)) (tall : i < h) (inside : i < s_max_height_)
    (out : m.link i e.ptr (chain b i).head?) :
    ∃ m', m.setNext ((chain a i).getLastD head_) i (some e.ptr) = .ok m' ∧
      Stored m ((chain a i).getLastD head_) i (some e.ptr) m' ∧
      Linked compare_ m' (a ++ {e with linked := i+1}::b) := by
  have shaped : ∃ k h, i < h ∧ m.shapes[(chain a i).getLastD head_]? = some (k,h) := by
    have mem : (chain a i).getLastD head_ ∈ head_::chain a i := List.getLastD_mem_cons ..
    rcases List.mem_cons.mp mem with eq | inChain
    · obtain ⟨k,hk⟩ := linked.headShape
      exact ⟨k,_,inside,by rw [eq]; exact hk⟩
    · obtain ⟨d,mem,eq,lvl⟩ := memChain.mp inChain
      obtain ⟨h,hs,le,_⟩ := linked.shaped d (List.mem_append_left _ mem)
      exact ⟨d.key,h,by omega,by rw [← eq]; exact hs⟩
  obtain ⟨k,hp,tallP,shapeP⟩ := shaped
  obtain ⟨m',store⟩ := setNextOk (y := some e.ptr) shapeP tallP
  have stored := setNextStored store
  exact ⟨m',store,stored,storeInto lawful linked here shape tall out stored⟩

include lawful in
theorem linkLevelOk {a b : List (Entry Key)} {e : Entry Key} {prev : Prev} {i h : Nat}
    (linked : Linked compare_ m (a ++ e::b)) (here : e.linked = i)
    (shape : m.shapes[e.ptr]? = some (e.key,h)) (tall : i < h)
    (before : prev.read i = .ok ((chain a i).getLastD head_)) :
    ∃ m', linkLevel e.ptr prev m i = .ok m' ∧ m'.shapes = m.shapes ∧
      m'.max_height_ = m.max_height_ ∧ Linked compare_ m' (a ++ {e with linked := i+1}::b) := by
  have inside : i < s_max_height_ := Nat.lt_of_lt_of_le tall (heightLow linked (by simp) shape)
  have after := predecessorLoads linked here inside
  obtain ⟨m1,store1,stored1,linked1⟩ := ownStores lawful linked here shape tall (chain b i).head?
  have shape1 : m1.shapes[e.ptr]? = some (e.key,h) := stored1.shapes ▸ shape
  obtain ⟨m2,store2,stored2,linked2⟩ := predecessorStores lawful linked1 here shape1 tall inside stored1.here
  have run : linkLevel e.ptr prev m i = .ok m2 := by
    simp only [linkLevel,before,after,store1,store2,bind,Except.bind]
  exact ⟨m2,run,stored2.shapes.trans stored1.shapes,stored2.maxHeight.trans stored1.maxHeight,linked2⟩

include lawful in
theorem linkLevelsOk {a b : List (Entry Key)} {x : Ptr} {key : Key} {prev : Prev} {n h : Nat}
    (linked : Linked compare_ m (a ++ ⟨x,key,0⟩::b))
    (shape : m.shapes[x]? = some (key,h)) (tall : n ≤ h)
    (before : ∀ i < n, prev.read i = .ok ((chain a i).getLastD head_)) :
    ∃ m', (List.range n).foldlM (linkLevel x prev) m = .ok m' ∧ m'.shapes = m.shapes ∧
      m'.max_height_ = m.max_height_ ∧ Linked compare_ m' (a ++ ⟨x,key,n⟩::b) := by
  induction n with
  | zero => exact ⟨m,rfl,rfl,rfl,linked⟩
  | succ n ih =>
    obtain ⟨m1,run,shapes1,top1,linked1⟩ := ih (by omega) (fun i lt => before i (by omega))
    obtain ⟨m2,step,shapes2,top2,linked2⟩ := linkLevelOk (e := ⟨x,key,n⟩) (i := n) lawful linked1 rfl
      (shapes1 ▸ shape) (by omega) (before n (by omega))
    have whole : (List.range (n+1)).foldlM (linkLevel x prev) m = .ok m2 := by
      rw [List.range_succ,List.foldlM_append,run]
      simp only [List.foldlM_cons,List.foldlM_nil,bind,Except.bind,step]
      rfl
    exact ⟨m2,whole,shapes2.trans shapes1,top2.trans top1,linked2⟩

end Lawful
end KVStorage.SkipList
