import KVStorage.SkipListInsert
import KVStorage.Support.Machine

/-! Finished lists. Between two calls of insert every node is linked at each of
its levels, so the order is the whole state: a sorted set with heights. -/
namespace KVStorage.SkipList

open Support

variable {Key : Type} {compare_ : Key → Key → Int}
variable {m : SkipList Key} {order : List (Entry Key)}

def tallest (order : List (Entry Key)) : Nat := order.foldr (fun e n => max e.linked n) 1

theorem tallestCons (e : Entry Key) (rest : List (Entry Key)) :
    tallest (e::rest) = max e.linked (tallest rest) := rfl

theorem onePosTallest (order : List (Entry Key)) : 1 ≤ tallest order := by
  induction order with
  | nil => exact Nat.le_refl _
  | cons e rest ih =>
    rw [tallestCons]
    omega

theorem tallestAppend (a b : List (Entry Key)) : tallest (a ++ b) = max (tallest a) (tallest b) := by
  induction a with
  | nil =>
    have one := onePosTallest b
    have none : tallest ([] : List (Entry Key)) = 1 := rfl
    rw [List.nil_append,none]
    omega
  | cons e a ih =>
    rw [List.cons_append,tallestCons,tallestCons,ih]
    omega

theorem linkedLeTallest {e : Entry Key} (mem : e ∈ order) : e.linked ≤ tallest order := by
  obtain ⟨a,b,rfl⟩ := List.append_of_mem mem
  rw [tallestAppend,tallestCons]
  omega

theorem tallestLe {n : Nat} (one : 1 ≤ n) (all : ∀ e ∈ order, e.linked ≤ n) : tallest order ≤ n := by
  induction order with
  | nil => exact one
  | cons e rest ih =>
    have tail := ih (fun d hd => all d (List.mem_cons_of_mem _ hd))
    have head := all e List.mem_cons_self
    rw [tallestCons]
    omega

structure Represents (compare_ : Key → Key → Int) (m : SkipList Key) (order : List (Entry Key)) : Prop where
  linked : Linked compare_ m order
  full : ∀ e ∈ order, m.shapes[e.ptr]? = some (e.key,e.linked) ∧ 1 ≤ e.linked
  maxHeight : m.max_height_ = tallest order

theorem representsHeight (rep : Represents compare_ m order) :
    1 ≤ m.max_height_ ∧ m.max_height_ ≤ s_max_height_ := by
  rw [rep.maxHeight]
  have low : ∀ e ∈ order, e.linked ≤ s_max_height_ := by
    intro e mem
    obtain ⟨h,_,le,low⟩ := rep.linked.shaped e mem
    exact Nat.le_trans le low
  exact ⟨onePosTallest order,tallestLe (by decide) low⟩

theorem levelEmpty (rep : Represents compare_ m order) {i : Nat} (high : m.max_height_ ≤ i) :
    level order i = [] := by
  apply List.filter_eq_nil_iff.mpr
  intro e mem
  have le := linkedLeTallest mem
  rw [rep.maxHeight] at high
  simp only [decide_eq_true_eq]
  omega

/- The head after the constructor's first rounds. -/
theorem nullsWritten (zero : Key) (rnd_ : Random) {k : Nat} (low : k ≤ s_max_height_) :
    (List.range k).foldlM (fun m i => m.setNext head_ i none)
        (⟨[⟨zero,List.replicate s_max_height_ none⟩],1,rnd_⟩ : SkipList Key) =
      .ok ⟨[⟨zero,List.replicate k (some none) ++ List.replicate (s_max_height_-k) none⟩],1,rnd_⟩ := by
  induction k with
  | zero => rfl
  | succ k ih =>
    have inside : k < (List.replicate k (some none) ++
        List.replicate (s_max_height_-k) (none : Option (Option Ptr))).length := by
      simp only [List.length_append,List.length_replicate]
      omega
    have left : s_max_height_-k = s_max_height_-(k+1)+1 := by omega
    have written : (List.replicate k (some none) ++ List.replicate (s_max_height_-k) none).set k (some none) =
        List.replicate (k+1) (some none) ++ List.replicate (s_max_height_-(k+1)) (none : Option (Option Ptr)) := by
      rw [left,List.replicate_succ,List.set_append_right _ _ (by simp),List.replicate_succ']
      simp
    rw [List.range_succ,List.foldlM_append,ih (Nat.le_of_succ_le low)]
    simp only [List.foldlM_cons,List.foldlM_nil,setNext,node,head_,List.getElem?_cons_zero,List.set_cons_zero,
      bind,Except.bind,if_pos inside,written]
    rfl

theorem newIs (zero : Key) :
    SkipList.new zero = .ok ⟨[⟨zero,List.replicate s_max_height_ (some none)⟩],1,Random.new 0xdeadbeef⟩ := by
  have whole := nullsWritten zero (Random.new 0xdeadbeef) (Nat.le_refl s_max_height_)
  rw [Nat.sub_self,List.replicate_zero,List.append_nil] at whole
  exact whole

theorem newRepresents (compare_ : Key → Key → Int) (zero : Key) :
    ∃ m : SkipList Key, SkipList.new zero = .ok m ∧ Represents compare_ m [] := by
  have chains : ∀ i < s_max_height_, Chain.Spells (link ⟨[⟨zero,List.replicate s_max_height_ (some none)⟩],1,
      Random.new 0xdeadbeef⟩ i) head_ (chain ([] : List (Entry Key)) i) := by
    intro i low
    have cell : (List.replicate s_max_height_ (some (none : Option Ptr)))[i]? = some (some none) :=
      List.getElem?_replicate_of_lt low
    simp only [chain,level,List.filter_nil,List.map_nil,Chain.Spells,link,next,node,head_,
      List.getElem?_cons_zero,bind,Except.bind,cell]
  have linked : Linked compare_ ⟨[⟨zero,List.replicate s_max_height_ (some none)⟩],1,
      Random.new 0xdeadbeef⟩ [] :=
    ⟨chains,by simp,by simp,by simp,zero,by simp [shapes,head_]⟩
  exact ⟨_,newIs zero,linked,by simp,rfl⟩

theorem growWrites {prev : Prev} {p : Key → Bool} (empty : ∀ i, lo ≤ i → predecessor order p i = head_)
    {n : Nat} (noted : Noted order p 0 lo prev) (low : lo + n ≤ s_max_height_) :
    ∃ prev', (List.range' lo n).foldlM (fun (prev : Prev) i => prev.write i head_) prev = .ok prev' ∧
      Noted order p 0 (lo+n) prev' := by
  induction n generalizing lo prev with
  | zero => exact ⟨prev,rfl,noted⟩
  | succ n ih =>
    have bound : lo < prev.length := by rw [noted.1]; omega
    have wrote : prev.write lo head_ = .ok (prev.set lo (some head_)) := by
      simp only [Prev.write,if_pos bound]
    have kept : Noted order p 0 (lo+1) (prev.set lo (some head_)) := by
      refine ⟨by rw [List.length_set]; exact noted.1,?_⟩
      intro j _ lt
      by_cases same : j = lo
      · subst j
        rw [List.getElem?_set_self bound,empty lo (Nat.le_refl _)]
      · rw [List.getElem?_set_ne (Ne.symm same)]
        exact noted.2 j (Nat.zero_le _) (by omega)
    obtain ⟨prev',run,done⟩ := ih (fun i ge => empty i (by omega)) kept (by omega)
    have whole : (List.range' lo (n+1)).foldlM (fun (prev : Prev) i => prev.write i head_) prev = .ok prev' := by
      simp only [List.range'_succ,List.foldlM_cons,wrote,bind,Except.bind]
      exact run
    exact ⟨prev',whole,by rwa [Nat.add_assoc,Nat.add_comm 1 n] at done⟩

theorem growToOk {key : Key} {height : Nat} {prev : Prev} (rep : Represents compare_ m order)
    (noted : Noted order (isBefore compare_ key) 0 m.max_height_ prev) (low : height ≤ s_max_height_) :
    ∃ m1 prev1, m.growTo height prev = .ok (m1,prev1) ∧ m1.nodes = m.nodes ∧
      m1.max_height_ = max height m.max_height_ ∧
      Noted order (isBefore compare_ key) 0 (max height m.max_height_) prev1 := by
  by_cases taller : height > m.max_height_
  · have empty : ∀ i, m.max_height_ ≤ i → predecessor order (isBefore compare_ key) i = head_ := by
      intro i ge
      simp [predecessor,levelEmpty rep ge]
    have span : m.max_height_ + (height - m.max_height_) = height := by omega
    obtain ⟨prev1,run,done⟩ := growWrites (n := height - m.max_height_) empty noted (by omega)
    rw [span] at done
    have top : max height m.max_height_ = height := by omega
    rw [top]
    have grown : m.growTo height prev = .ok ({m with max_height_ := height},prev1) := by
      simp only [growTo,getMaxHeight,if_pos taller,run,bind,Except.bind]
    exact ⟨_,prev1,grown,rfl,rfl,done⟩
  · have top : max height m.max_height_ = m.max_height_ := by omega
    rw [top]
    exact ⟨m,prev,if_neg taller,rfl,rfl,noted⟩

theorem linkedSameNodes {m1 : SkipList Key} (linked : Linked compare_ m order) (same : m1.nodes = m.nodes) :
    Linked compare_ m1 order := by
  have shapesEq : m1.shapes = m.shapes := by simp only [shapes,same]
  have linkEq : m1.link = m.link := by
    funext i x y
    simp only [link,next,node,same]
  exact ⟨linkEq ▸ linked.chains,linked.sorted,shapesEq ▸ linked.shaped,linked.apart,
    shapesEq ▸ linked.headShape⟩

section Lawful

variable (lawful : ThreeWay.Lawful compare_)

def inserted (compare_ : Key → Key → Int) (m : SkipList Key) (order : List (Entry Key)) (key : Key)
    (height : Nat) : List (Entry Key) :=
  below compare_ key order ++ ⟨m.nodes.length,key,height⟩::above compare_ key order

include lawful in
theorem findGreateOrEqualOk (rep : Represents compare_ m order) (key : Key) (given : Option Prev)
    (sized : ∀ prev, given = some prev → prev.length = s_max_height_) :
    ∃ prev, m.findGreateOrEqual compare_ key given =
        .ok ((chain (above compare_ key order) 0).head?,prev) ∧ prev.isSome = given.isSome ∧
      ∀ q, prev = some q → Noted order (isBefore compare_ key) 0 m.max_height_ q := by
  obtain ⟨f,run,done⟩ := searchFinds lawful rep.linked (keyGuided lawful rep.linked key)
    (representsHeight rep) given sized
  have found : m.findGreateOrEqual compare_ key given =
      .ok ((chain (above compare_ key order) 0).head?,f.prev) := by
    simp only [findGreateOrEqual,run,bind,Except.bind,done.next,successorAbove]
  exact ⟨f.prev,found,done.same,done.noted⟩

theorem chainZero (rep : Represents compare_ m order) {part : List (Entry Key)} (sub : part ⊆ order) :
    chain part 0 = part.map Entry.ptr := by
  have all : level part 0 = part := by
    apply List.filter_eq_self.mpr
    intro e mem
    exact decide_eq_true (rep.full e (sub mem)).2
  rw [chain,all]

theorem assertFreshOk (rep : Represents compare_ m order) {key : Key}
    (fresh : ∀ e ∈ order, compare_ key e.key ≠ 0) :
    m.assertFresh compare_ key (chain (above compare_ key order) 0).head? = .ok () := by
  have part : above compare_ key order ⊆ order := List.filter_subset_self ..
  rw [chainZero rep part]
  cases hb : above compare_ key order with
  | nil => rfl
  | cons e rest =>
    have mem : e ∈ order := part (by simp [hb])
    obtain ⟨node,found,same,_⟩ := nodeOfShape (rep.full e mem).1
    have apart : equal compare_ key e.key = false := by simpa [equal] using fresh e mem
    simp only [List.map_cons,List.head?_cons,assertFresh,found,bind,Except.bind,same,apart,
      Bool.false_eq_true,if_false]

theorem linkedRepresents {a b : List (Entry Key)} {e : Entry Key} (linked : Linked compare_ m (a ++ e::b))
    (full : ∀ d ∈ a ++ b, m.shapes[d.ptr]? = some (d.key,d.linked) ∧ 1 ≤ d.linked)
    (shape : m.shapes[e.ptr]? = some (e.key,e.linked)) (one : 1 ≤ e.linked)
    (top : m.max_height_ = max e.linked (tallest (a ++ b))) : Represents compare_ m (a ++ e::b) := by
  have full' : ∀ d ∈ a ++ e::b, m.shapes[d.ptr]? = some (d.key,d.linked) ∧ 1 ≤ d.linked := by
    intro d hd
    rcases memSplice.mp hd with rfl | old
    · exact ⟨shape,one⟩
    · exact full d old
  have height : m.max_height_ = tallest (a ++ e::b) := by
    rw [top,tallestAppend,tallestAppend,tallestCons]
    exact (Nat.max_left_comm ..).symm
  exact ⟨linked,full',height⟩

include lawful in
theorem insertHeightOk (rep : Represents compare_ m order) {key : Key} {height : Nat}
    (fresh : ∀ e ∈ order, compare_ key e.key ≠ 0) (bounds : 1 ≤ height ∧ height ≤ s_max_height_) :
    ∃ m', m.insertHeight compare_ key height = .ok m' ∧
      Represents compare_ m' (inserted compare_ m order key height) := by
  obtain ⟨prev,find,given,noted⟩ := findGreateOrEqualOk lawful rep key (some Prev.uninitialised)
    (fun q eq => Option.some.inj eq ▸ List.length_replicate ..)
  obtain ⟨q,rfl⟩ := Option.isSome_iff_exists.mp given
  obtain ⟨m1,prev1,grow,nodes1,top1,noted1⟩ := growToOk rep (noted q rfl) bounds.2
  have linked1 := linkedSameNodes rep.linked nodes1
  have linked2 := allocated lawful linked1 fresh height bounds.2
  have shape2 := newNodeShape (m := m1) key height
  have reads : ∀ i < height, prev1.read i = .ok ((chain (below compare_ key order) i).getLastD head_) := by
    intro i lt
    rw [← predecessorBelow]
    exact readNoted noted1 (Nat.zero_le _) (by omega)
  obtain ⟨m',run,shapes',top',linked'⟩ :=
    linkLevelsOk lawful linked2 shape2 (Nat.le_refl _) reads
  rw [nodes1] at linked' shape2
  have split := orderSplits lawful rep.linked key
  have full : ∀ d ∈ below compare_ key order ++ above compare_ key order,
      m'.shapes[d.ptr]? = some (d.key,d.linked) ∧ 1 ≤ d.linked := by
    intro d hd
    rw [← split] at hd
    obtain ⟨shape,one⟩ := rep.full d hd
    have same : m1.shapes = m.shapes := by simp only [shapes,nodes1]
    exact ⟨shapes' ▸ shapeKept (same ▸ shape),one⟩
  have top : m'.max_height_ = max height (tallest (below compare_ key order ++ above compare_ key order)) := by
    have kept : (m1.newNode key height).1.max_height_ = m1.max_height_ := rfl
    rw [top',kept,top1,rep.maxHeight,← split]
  have whole : m.insertHeight compare_ key height = .ok m' := by
    simp only [insertHeight,find,assertFreshOk rep fresh,Option.getD_some,grow,bind,Except.bind]
    exact run
  exact ⟨m',whole,linkedRepresents linked' full (shapes' ▸ shape2) bounds.1 top⟩

include lawful in
theorem containsOk (rep : Represents compare_ m order) (key : Key) :
    ∃ found, m.contains compare_ key = .ok found ∧
      (found = true ↔ ∃ e ∈ order, compare_ key e.key = 0) := by
  obtain ⟨prev,find,_⟩ := findGreateOrEqualOk lawful rep key none (by simp)
  have part : above compare_ key order ⊆ order := List.filter_subset_self ..
  rw [chainZero rep part] at find
  have first := fun e => Sorted.headLeast (a := e) (q := fun d : Entry Key => !isBefore compare_ key d.key)
    rep.linked.sorted
  have notBefore : ∀ e, compare_ key e = 0 → isBefore compare_ key e = false := by
    intro e same
    have back := lawful.zeroIff.mp same
    simp only [isBefore,decide_eq_false_iff_not]
    omega
  cases ha : above compare_ key order with
  | nil =>
    have answer : m.contains compare_ key = .ok false := by
      simp only [contains,find,ha,List.map_nil,List.head?_nil,bind,Except.bind]
    have absent : ¬ ∃ e ∈ order, compare_ key e.key = 0 := by
      intro present
      obtain ⟨e,mem,same⟩ := present
      have kept : e ∈ above compare_ key order := List.mem_filter.mpr ⟨mem,by simp [notBefore e.key same]⟩
      simp [ha] at kept
    exact ⟨false,answer,by simpa using absent⟩
  | cons e rest =>
    obtain ⟨mem,_,least⟩ := first e (by simpa only [above,List.head?_cons] using congrArg List.head? ha)
    obtain ⟨node,found,same,_⟩ := nodeOfShape (rep.full e mem).1
    have answer : m.contains compare_ key = .ok (equal compare_ key e.key) := by
      simp only [contains,find,ha,List.map_cons,List.head?_cons,found,bind,Except.bind,same]
    have stays : isBefore compare_ key e.key = false := by
      have kept : e ∈ above compare_ key order := by simp [ha]
      simpa using (List.mem_filter.mp kept).2
    have onlyFirst : ∀ d ∈ order, compare_ key d.key = 0 → compare_ key e.key = 0 := by
      intro d hd zero
      rcases least d hd (by simp [notBefore d.key zero]) with rfl | less
      · exact zero
      · have before := lawful.ltOfLtOfLe less (Int.le_of_eq (lawful.zeroIff.mp zero))
        simp [isBefore,before] at stays
    have iff : equal compare_ key e.key = true ↔ ∃ d ∈ order, compare_ key d.key = 0 := by
      rw [equal,beq_iff_eq]
      constructor
      · exact fun here => ⟨e,mem,here⟩
      · exact fun present => present.elim (fun d both => onlyFirst d both.1 both.2)
    exact ⟨equal compare_ key e.key,answer,iff⟩

/- A run of insert calls, each key with the height randomHeight gave it. -/
def insertAll (compare_ : Key → Key → Int) (zero : Key) (ops : List (Key × Nat)) :
    Except Fault (SkipList Key) := do
  let m ← SkipList.new zero
  ops.foldlM (fun m op => m.insertHeight compare_ op.1 op.2) m

/- What a list built by `ops` is: the sorted set of the inserted keys, spelt by
level 0, and above it every level as the nodes that are tall enough. -/
structure SortedSet (compare_ : Key → Key → Int) (ops : List (Key × Nat)) (m : SkipList Key)
    (order : List (Entry Key)) : Prop where
  exact : (order.map (fun e => (e.key,e.linked))).Perm ops
  nodes : ∀ e ∈ order, ∃ node, m.node e.ptr = .ok node ∧ node.key = e.key ∧ node.nexts_.length = e.linked
  distinct : (order.map Entry.ptr).Nodup
  bottom : Chain.Spells (m.link 0) head_ (order.map Entry.ptr)
  increasing : order.Pairwise (fun a b => compare_ a.key b.key < 0)
  levels : ∀ i < s_max_height_, Chain.Spells (m.link i) head_ (chain order i)
  nested : ∀ i, (chain order (i+1)).Sublist (chain order i)
  tall : ∀ i x, x ∈ chain order i ↔ ∃ e ∈ order, e.ptr = x ∧ i < e.linked
  maxHeight : m.max_height_ = order.foldr (fun e n => max e.linked n) 1
  empty : ∀ i, m.max_height_ ≤ i → i < s_max_height_ → m.next head_ i = .ok none
  found : ∀ key, ∃ found, m.contains compare_ key = .ok found ∧
    (found = true ↔ ∃ op ∈ ops, compare_ key op.1 = 0)

include lawful in
theorem representsSortedSet {ops : List (Key × Nat)} (rep : Represents compare_ m order)
    (exact : (order.map (fun e => (e.key,e.linked))).Perm ops) : SortedSet compare_ ops m order := by
  have nodes : ∀ e ∈ order, ∃ node, m.node e.ptr = .ok node ∧ node.key = e.key ∧ node.nexts_.length = e.linked :=
    fun e mem => nodeOfShape (rep.full e mem).1
  have distinct := (List.nodup_cons.mp (ptrsDistinct lawful rep.linked)).2
  have bottom := rep.linked.chains 0 (by decide)
  rw [chainZero rep (List.Subset.refl _)] at bottom
  have empty : ∀ i, m.max_height_ ≤ i → i < s_max_height_ → m.next head_ i = .ok none := by
    intro i high low
    have spells := rep.linked.chains i low
    rwa [chain,levelEmpty rep high] at spells
  have keys : ∀ key, (∃ e ∈ order, compare_ key e.key = 0) ↔ ∃ op ∈ ops, compare_ key op.1 = 0 := by
    intro key
    constructor
    · intro entry
      obtain ⟨e,mem,zero⟩ := entry
      exact ⟨_,exact.mem_iff.mp (List.mem_map_of_mem mem),zero⟩
    · intro inserted
      obtain ⟨op,mem,zero⟩ := inserted
      obtain ⟨e,he,eq⟩ := List.mem_map.mp (exact.mem_iff.mpr mem)
      subst eq
      exact ⟨e,he,zero⟩
  have found : ∀ key, ∃ found, m.contains compare_ key = .ok found ∧
      (found = true ↔ ∃ op ∈ ops, compare_ key op.1 = 0) := by
    intro key
    obtain ⟨found,run,same⟩ := containsOk lawful rep key
    exact ⟨found,run,same.trans (keys key)⟩
  exact ⟨exact,nodes,distinct,bottom,rep.linked.sorted,rep.linked.chains,chainNested order,fun _ _ => memChain,
    rep.maxHeight,empty,found⟩

theorem insertedPerm {key : Key} (height : Nat) {done : List (Key × Nat)}
    (split : order = below compare_ key order ++ above compare_ key order)
    (exact : (order.map (fun e => (e.key,e.linked))).Perm done) :
    ((inserted compare_ m order key height).map (fun e => (e.key,e.linked))).Perm
      (done ++ [(key,height)]) := by
  simp only [inserted,List.map_append,List.map_cons]
  apply List.perm_middle.trans
  rw [← List.map_append,← split]
  exact (exact.cons _).trans (List.perm_append_singleton ..).symm

include lawful in
theorem insertHeightsOk (ops : List (Key × Nat)) {done : List (Key × Nat)}
    (rep : Represents compare_ m order) (exact : (order.map (fun e => (e.key,e.linked))).Perm done)
    (heights : ∀ op ∈ ops, 1 ≤ op.2 ∧ op.2 ≤ s_max_height_)
    (fresh : (done ++ ops).Pairwise (fun a b => compare_ a.1 b.1 ≠ 0)) :
    ∃ m' order', ops.foldlM (fun (m : SkipList Key) op => m.insertHeight compare_ op.1 op.2) m = .ok m' ∧
      Represents compare_ m' order' ∧ (order'.map (fun e => (e.key,e.linked))).Perm (done ++ ops) := by
  induction ops generalizing m order done with
  | nil => exact ⟨m,order,rfl,rep,by simpa using exact⟩
  | cons op ops ih =>
    have new : ∀ e ∈ order, compare_ op.1 e.key ≠ 0 := by
      intro e mem zero
      have old := exact.mem_iff.mp (List.mem_map_of_mem mem)
      exact (List.pairwise_append.mp fresh).2.2 _ old op (by simp) (lawful.zeroIff.mp zero)
    obtain ⟨m1,step,rep1⟩ := insertHeightOk lawful rep new (heights op (by simp))
    have exact1 := insertedPerm (m := m) op.2 (orderSplits lawful rep.linked op.1) exact
    obtain ⟨m2,order2,run,rep2,exact2⟩ := ih rep1 exact1
      (fun o mem => heights o (List.mem_cons_of_mem _ mem)) (by simpa using fresh)
    have whole : (op::ops).foldlM (fun (m : SkipList Key) op => m.insertHeight compare_ op.1 op.2) m = .ok m2 := by
      simp only [List.foldlM_cons,step,bind,Except.bind]
      exact run
    exact ⟨m2,order2,whole,rep2,by simpa using exact2⟩

end Lawful

theorem insertAllRepresents (lawful : ThreeWay.Lawful compare_) (zero : Key) (ops : List (Key × Nat))
    (heights : ∀ op ∈ ops, 1 ≤ op.2 ∧ op.2 ≤ s_max_height_)
    (fresh : ops.Pairwise (fun a b => compare_ a.1 b.1 ≠ 0)) :
    ∃ m order, insertAll compare_ zero ops = .ok m ∧ Represents compare_ m order ∧
      (order.map (fun e => (e.key,e.linked))).Perm ops := by
  obtain ⟨m0,start,rep0⟩ := newRepresents compare_ zero
  obtain ⟨m,order,run,rep,exact⟩ := insertHeightsOk lawful ops rep0 (List.Perm.refl _) heights fresh
  have whole : insertAll compare_ zero ops = .ok m := by
    simp only [insertAll,start,bind,Except.bind]
    exact run
  exact ⟨m,order,whole,rep,exact⟩

/-- Every run of insert calls on fresh keys, with any heights randomHeight may
draw, ends without a fault (no unwritten prev[i] is read) in a sorted set. -/
theorem insertsBuildSortedSet (lawful : ThreeWay.Lawful compare_) (zero : Key) (ops : List (Key × Nat))
    (heights : ∀ op ∈ ops, 1 ≤ op.2 ∧ op.2 ≤ s_max_height_)
    (fresh : ops.Pairwise (fun a b => compare_ a.1 b.1 ≠ 0)) :
    ∃ m order, insertAll compare_ zero ops = .ok m ∧ SortedSet compare_ ops m order := by
  obtain ⟨m,order,run,rep,exact⟩ := insertAllRepresents lawful zero ops heights fresh
  exact ⟨m,order,run,representsSortedSet lawful rep exact⟩

theorem insertsBuildSortedSetThree : ∃ m order,
    insertAll (fun a b : Int => a - b) 0 [(5,1),(3,4),(9,12)] = .ok m ∧
    SortedSet (fun a b : Int => a - b) [(5,1),(3,4),(9,12)] m order :=
  insertsBuildSortedSet ThreeWay.differenceLawful 0 [(5,1),(3,4),(9,12)] (by decide) (by decide)

/- insert proper draws the height itself: what it makes of one key after another. -/
def drawn : Random → List Key → List (Key × Nat)
  | _, [] => []
  | rnd_, key::keys => (key,(randomHeight rnd_).1)::drawn (randomHeight rnd_).2 keys

def insertKeys (compare_ : Key → Key → Int) (zero : Key) (keys : List Key) : Except Fault (SkipList Key) := do
  let m ← SkipList.new zero
  keys.foldlM (fun m key => m.insert compare_ key) m

theorem setNextDraws {m m' : SkipList Key} {x : Ptr} {n : Nat} {y : Option Ptr} (run : m.setNext x n y = .ok m') :
    m'.rnd_ = m.rnd_ := by
  obtain ⟨node,_,last⟩ := Machine.okBind run
  split at last
  · cases last
    rfl
  · cases last

theorem growToDraws {m m' : SkipList Key} {height : Nat} {prev prev' : Prev}
    (run : m.growTo height prev = .ok (m',prev')) : m'.rnd_ = m.rnd_ := by
  unfold growTo at run
  split at run
  · obtain ⟨_,_,last⟩ := Machine.okBind run
    cases last
    rfl
  · cases run
    rfl

theorem linksDraw {m m' : SkipList Key} {x : Ptr} {prev : Prev} {levels : List Nat}
    (run : levels.foldlM (linkLevel x prev) m = .ok m') : m'.rnd_ = m.rnd_ := by
  induction levels generalizing m with
  | nil =>
    cases run
    rfl
  | cons i levels ih =>
    obtain ⟨m1,level,rest⟩ := Machine.okBind run
    obtain ⟨_,_,level⟩ := Machine.okBind level
    obtain ⟨_,_,level⟩ := Machine.okBind level
    obtain ⟨_,own,last⟩ := Machine.okBind level
    exact (ih rest).trans ((setNextDraws last).trans (setNextDraws own))

/- Only randomHeight draws. -/
theorem insertHeightDraws {m m' : SkipList Key} {key : Key} {height : Nat}
    (run : m.insertHeight compare_ key height = .ok m') : m'.rnd_ = m.rnd_ := by
  obtain ⟨_,_,rest⟩ := Machine.okBind run
  obtain ⟨_,_,rest⟩ := Machine.okBind rest
  obtain ⟨⟨m1,prev1⟩,grow,links⟩ := Machine.okBind rest
  have grown : m1.rnd_ = m.rnd_ := growToDraws grow
  exact (linksDraw links).trans grown

section Drawing

variable (lawful : ThreeWay.Lawful compare_)

include lawful in
theorem insertOk (rep : Represents compare_ m order) {key : Key} (fresh : ∀ e ∈ order, compare_ key e.key ≠ 0) :
    ∃ m', m.insert compare_ key = .ok m' ∧ m'.rnd_ = (randomHeight m.rnd_).2 ∧
      Represents compare_ m' (inserted compare_ m order key (randomHeight m.rnd_).1) := by
  have next : Represents compare_ {m with rnd_ := (randomHeight m.rnd_).2} order :=
    ⟨linkedSameNodes rep.linked rfl,rep.full,rep.maxHeight⟩
  obtain ⟨m',run,done⟩ := insertHeightOk lawful next fresh (randomHeightBounds m.rnd_)
  exact ⟨m',run,insertHeightDraws run,done⟩

include lawful in
theorem insertKeysOk (keys : List Key) {done : List (Key × Nat)} (rep : Represents compare_ m order)
    (exact : (order.map (fun e => (e.key,e.linked))).Perm done)
    (fresh : (done.map Prod.fst ++ keys).Pairwise (fun a b => compare_ a b ≠ 0)) :
    ∃ m' order', keys.foldlM (fun (m : SkipList Key) key => m.insert compare_ key) m = .ok m' ∧
      Represents compare_ m' order' ∧
      (order'.map (fun e => (e.key,e.linked))).Perm (done ++ drawn m.rnd_ keys) := by
  induction keys generalizing m order done with
  | nil => exact ⟨m,order,rfl,rep,by simpa [drawn] using exact⟩
  | cons key keys ih =>
    have new : ∀ e ∈ order, compare_ key e.key ≠ 0 := by
      intro e mem zero
      have old := List.mem_map_of_mem (f := Prod.fst) (exact.mem_iff.mp (List.mem_map_of_mem mem))
      exact (List.pairwise_append.mp fresh).2.2 _ old key (by simp) (lawful.zeroIff.mp zero)
    obtain ⟨m1,step,draws,rep1⟩ := insertOk lawful rep new
    have exact1 := insertedPerm (m := m) (randomHeight m.rnd_).1 (orderSplits lawful rep.linked key) exact
    obtain ⟨m2,order2,run,rep2,exact2⟩ := ih rep1 exact1 (by simpa using fresh)
    have whole : (key::keys).foldlM (fun (m : SkipList Key) key => m.insert compare_ key) m = .ok m2 := by
      simp only [List.foldlM_cons,step,bind,Except.bind]
      exact run
    rw [draws] at exact2
    exact ⟨m2,order2,whole,rep2,by simpa [drawn] using exact2⟩

end Drawing

/- The list that insert itself builds, with the heights it draws from the seed on. -/
theorem insertKeysSortedSet (lawful : ThreeWay.Lawful compare_) (zero : Key) (keys : List Key)
    (fresh : keys.Pairwise (fun a b => compare_ a b ≠ 0)) :
    ∃ m order, insertKeys compare_ zero keys = .ok m ∧
      SortedSet compare_ (drawn (Random.new 0xdeadbeef) keys) m order := by
  obtain ⟨m0,start,rep0⟩ := newRepresents compare_ zero
  have seed : m0.rnd_ = Random.new 0xdeadbeef := by
    rw [newIs] at start
    cases start
    rfl
  obtain ⟨m,order,run,rep,exact⟩ := insertKeysOk lawful keys rep0 (List.Perm.refl _) fresh
  rw [List.map_nil,List.nil_append,seed] at exact
  have whole : insertKeys compare_ zero keys = .ok m := by
    simp only [insertKeys,start,bind,Except.bind]
    exact run
  exact ⟨m,order,whole,representsSortedSet lawful rep exact⟩

end KVStorage.SkipList
