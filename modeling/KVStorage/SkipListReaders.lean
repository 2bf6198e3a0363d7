import KVStorage.SkipListWriter

/-! Readers beside the writer. What a reader relies on, a node it has reached
and the key of it, is not undone by any step, and its last load is made in one
state of the list; so its answer is exact for that state and misses nothing
that was linked in an earlier one. -/
namespace KVStorage.SkipList

open Support

variable {Key ι : Type} {compare_ : Key → Key → Int}
variable {m : SkipList Key} {order : List (Entry Key)}

/- The result of a search for the first node whose key has p, that ends in the
list `now`: no key linked in `began` has p and comes before it. -/
def Finds (compare_ : Key → Key → Int) (p : Key → Prop) (began now : SkipList Key) : Option Ptr → Prop
  | none => ∀ k ∈ began.linkedKeys, ¬ p k
  | some x => ∃ k, now.Holds x k ∧ p k ∧ ∀ k' ∈ began.linkedKeys, p k' → ¬ compare_ k' k < 0

def Answers (compare_ : Key → Key → Int) (began now : SkipList Key) : Return Key → Prop
  | .seek target node_ => Finds compare_ (fun k => compare_ k target ≥ 0) began now node_
  | .contains target found =>
    (found = true → ∃ k ∈ now.linkedKeys, compare_ target k = 0) ∧
    (found = false → ∀ k ∈ began.linkedKeys, compare_ target k ≠ 0)
  | .next n node_ => ∃ k, now.Holds n k ∧ Finds compare_ (fun k' => compare_ k k' < 0) began now node_

theorem holdsIff (linked : Linked compare_ m order) {x : Ptr} {k : Key} :
    m.Holds x k ↔ ∃ e ∈ order, 0 < e.linked ∧ e.ptr = x ∧ e.key = k := by
  have spells := linked.chains 0 (by decide)
  constructor
  · intro holds
    obtain ⟨l,node,here,mem,found,key⟩ := holds
    cases Chain.unique nextFunctional here spells
    obtain ⟨e,he,ptr,tall⟩ := memChain.mp mem
    obtain ⟨h,shape,_⟩ := linked.shaped e he
    rw [ptr,shapeOfNode found] at shape
    exact ⟨e,he,tall,ptr,(congrArg Prod.fst (Option.some.inj shape)).symm.trans key⟩
  · intro entry
    obtain ⟨e,he,tall,ptr,key⟩ := entry
    obtain ⟨h,shape,_⟩ := linked.shaped e he
    obtain ⟨node,found,same,_⟩ := nodeOfShape shape
    have mem : x ∈ chain order 0 := memChain.mpr ⟨e,he,ptr,tall⟩
    exact ⟨_,node,spells,mem,ptr ▸ found,same.trans key⟩

/- Any key may be inserted in a new list. -/
theorem newFresh (zero : Key) (start : SkipList.new zero = .ok m) {key : Key} :
    ∀ k ∈ m.linkedKeys, compare_ key k ≠ 0 := by
  obtain ⟨_,start',rep⟩ := newRepresents compare_ zero
  cases Except.ok.inj (start.symm.trans start')
  intro k mem
  obtain ⟨_,holds⟩ := mem
  obtain ⟨_,none,_⟩ := (holdsIff rep.linked).mp holds
  exact (List.not_mem_nil none).elim

theorem holdsGrows {m' : SkipList Key} {order' : List (Entry Key)} (linked : Linked compare_ m order)
    (linked' : Linked compare_ m' order') (grows : Grows order order') {x : Ptr} {k : Key}
    (holds : m.Holds x k) : m'.Holds x k := by
  obtain ⟨e,he,tall,ptr,key⟩ := (holdsIff linked).mp holds
  obtain ⟨d,hd,ptr',key',le⟩ := grows e he
  exact (holdsIff linked').mpr ⟨d,hd,Nat.lt_of_lt_of_le tall le,ptr'.trans ptr,key'.trans key⟩

/- An answer for a later list is one for an earlier list with fewer keys. -/
theorem findsEarlier {p : Key → Prop} {began later now : SkipList Key} {node_ : Option Ptr}
    (fewer : began.linkedKeys ⊆ later.linkedKeys) (finds : Finds compare_ p later now node_) :
    Finds compare_ p began now node_ := by
  cases node_ with
  | none => exact fun k mem => finds k (fewer mem)
  | some x =>
    obtain ⟨k,holds,passes,least⟩ := finds
    exact ⟨k,holds,passes,fun k' mem => least k' (fewer mem)⟩

theorem answersEarlier {began later now : SkipList Key} {b : Return Key}
    (fewer : began.linkedKeys ⊆ later.linkedKeys) (answers : Answers compare_ later now b) :
    Answers compare_ began now b := by
  cases b with
  | seek target node_ => exact findsEarlier fewer answers
  | contains target found => exact ⟨answers.1,fun no k mem => answers.2 no k (fewer mem)⟩
  | next n node_ =>
    obtain ⟨k,holds,finds⟩ := answers
    exact ⟨k,holds,findsEarlier fewer finds⟩

section Lawful

variable (lawful : ThreeWay.Lawful compare_)

include lawful in
theorem successorFinds (linked : Linked compare_ m order) {p : Key → Bool} {q : Key → Prop}
    (same : ∀ k, p k = false ↔ q k) : Finds compare_ q m m (successor order p 0) := by
  have sorted : (level order 0).Pairwise (fun a b => compare_ a.key b.key < 0) := linked.sorted.filter _
  have shown : ∀ k ∈ m.linkedKeys, ∃ e ∈ level order 0, e.key = k := by
    intro k mem
    obtain ⟨x,holds⟩ := mem
    obtain ⟨e,he,tall,_,key⟩ := (holdsIff linked).mp holds
    exact ⟨e,memLevel.mpr ⟨he,tall⟩,key⟩
  unfold successor
  cases first : ((level order 0).filter (fun e => !p e.key)).head? with
  | none =>
    intro k mem passes
    obtain ⟨e,he,key⟩ := shown k mem
    have out := List.filter_eq_nil_iff.mp (List.head?_eq_none_iff.mp first) e he
    rw [key,(same k).mpr passes] at out
    simp at out
  | some e =>
    obtain ⟨he,passes,least⟩ := Sorted.headLeast sorted first
    obtain ⟨mem,tall⟩ := memLevel.mp he
    have holds : m.Holds e.ptr e.key := (holdsIff linked).mpr ⟨e,mem,tall,rfl,rfl⟩
    refine ⟨e.key,holds,(same e.key).mp (by simpa using passes),?_⟩
    intro k inside passes' before
    obtain ⟨d,hd,key⟩ := shown k inside
    rw [← key] at passes' before
    rcases least d hd (by simpa using (same d.key).mpr passes') with rfl | less
    · exact lawful.irrefl before
    · exact lawful.asymm less before

include lawful in
theorem nextIs {e : Entry Key} {i : Nat} (linked : Linked compare_ m order) (mem : e ∈ order)
    (tall : i < e.linked) (low : i < s_max_height_) :
    m.next e.ptr i = .ok (successor order (fun k => decide (compare_ k e.key ≤ 0)) i) := by
  have closed : ∀ a b, compare_ a b < 0 → decide (compare_ b e.key ≤ 0) = true →
      decide (compare_ a e.key ≤ 0) = true := by
    intro a b less passes
    exact decide_eq_true (Int.le_of_lt (lawful.ltOfLtOfLe less (of_decide_eq_true passes)))
  have self : decide (compare_ e.key e.key ≤ 0) = true :=
    decide_eq_true (Int.le_of_eq (lawful.self e.key))
  obtain ⟨done,rest,here⟩ := standsAt linked closed (.inr ⟨e,mem,rfl,tall,self⟩)
  have stops : ∀ d, (level rest i).head? = some d → decide (compare_ d.key e.key ≤ 0) = false := by
    intro d head
    have inside : d ∈ rest := (memLevel.mp (List.mem_of_mem_head? head)).1
    have sorted := linked.sorted
    rw [here.split] at sorted
    have after : compare_ e.key d.key < 0 := by
      rcases here.here with ⟨_,eq⟩ | ⟨front,c,eq,ptr,_⟩
      · exact absurd eq (linked.apart e mem)
      · have hc : c ∈ done := by simp [eq]
        have same : c.key = e.key := by
          obtain ⟨_,sc,_⟩ := linked.shaped c (by rw [here.split]; exact List.mem_append_left _ hc)
          obtain ⟨_,se,_⟩ := linked.shaped e mem
          rw [ptr,se] at sc
          exact (congrArg Prod.fst (Option.some.inj sc)).symm
        rw [← same]
        exact (List.pairwise_append.mp sorted).2.2 c hc d inside
    have notLe : ¬ compare_ d.key e.key ≤ 0 := fun le => lawful.irrefl (lawful.ltOfLtOfLe after le)
    exact decide_eq_false notLe
  rw [atNext linked here low,(atStops linked closed here stops).2]

/- A search that notes no predecessors, at a node it may still stand on after
any steps of the writer. -/
structure Scanning (compare_ : Key → Key → Int) (order : List (Entry Key)) (target : Key) (s : Search) :
    Prop where
  stands : Stands order (isBefore compare_ target) s.level s.x
  low : s.level < s_max_height_
  bare : s.prev = none

theorem scanningSearching {target : Key} {s : Search} (linked : Linked compare_ m order)
    (closed : ∀ a b, compare_ a b < 0 → isBefore compare_ target b = true → isBefore compare_ target a = true)
    (scan : Scanning compare_ order target s) :
    ∃ n, Searching order (isBefore compare_ target) s_max_height_ none n s := by
  obtain ⟨done,rest,here⟩ := standsAt linked closed scan.stands
  exact ⟨_,scan.low,by simp [scan.bare],by simp [scan.bare],done,rest,here,rfl⟩

theorem searchingScanning {target : Key} {s : Search} {n : Nat}
    (state : Searching order (isBefore compare_ target) s_max_height_ none n s) :
    Scanning compare_ order target s := by
  obtain ⟨done,rest,here,_⟩ := state.here
  exact ⟨atStands here,state.below,by simpa using state.same⟩

include lawful in
theorem scanMoves {target : Key} {s : Search} (linked : Linked compare_ m order)
    (scan : Scanning compare_ order target s) :
    (∃ t, m.searchRound noCheck (m.keyIsAfterNode compare_ target) s = .ok (.again t) ∧
      Scanning compare_ order target t) ∨
    (∃ f, m.searchRound noCheck (m.keyIsAfterNode compare_ target) s = .ok (.done f) ∧
      f.next = successor order (isBefore compare_ target) 0) := by
  obtain ⟨n,state⟩ := scanningSearching linked (isBeforeClosed lawful target) scan
  rcases searchRoundTotal linked (keyGuided lawful linked target) (Nat.le_refl _) state with
    ⟨t,k,run,_,next⟩ | ⟨f,run,done⟩
  · exact .inl ⟨t,run,searchingScanning next⟩
  · exact .inr ⟨f,run,done.next⟩

def OnNode (order : List (Entry Key)) (it : Iterator) : Prop :=
  ∀ x, it.node_ = some x → ∃ e ∈ order, e.ptr = x ∧ 0 < e.linked

structure ReaderAt (compare_ : Key → Key → Int) (order : List (Entry Key)) (r : Reader Key) : Prop where
  node : OnNode order r.it
  valid : r.phase = .begin .next → r.it.valid = true
  find : ∀ kind target s, r.phase = .find kind target s → Scanning compare_ order target s

theorem scanningGrows {order' : List (Entry Key)} {target : Key} {s : Search} (grows : Grows order order')
    (scan : Scanning compare_ order target s) : Scanning compare_ order' target s := by
  refine ⟨?_,scan.low,scan.bare⟩
  rcases scan.stands with head | ⟨e,mem,ptr,tall,passes⟩
  · exact .inl head
  · obtain ⟨d,hd,ptr',key,le⟩ := grows e mem
    exact .inr ⟨d,hd,ptr'.trans ptr,Nat.lt_of_lt_of_le tall le,key ▸ passes⟩

theorem readerGrows {order' : List (Entry Key)} {r : Reader Key} (grows : Grows order order')
    (here : ReaderAt compare_ order r) : ReaderAt compare_ order' r := by
  have node : OnNode order' r.it := by
    intro x on
    obtain ⟨e,mem,ptr,tall⟩ := here.node x on
    obtain ⟨d,hd,ptr',_,le⟩ := grows e mem
    exact ⟨d,hd,ptr'.trans ptr,Nat.lt_of_lt_of_le tall le⟩
  exact ⟨node,here.valid,fun kind t s at_ => scanningGrows grows (here.find kind t s at_)⟩

end Lawful
end KVStorage.SkipList
