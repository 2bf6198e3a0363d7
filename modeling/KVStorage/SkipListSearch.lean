import KVStorage.SkipListChains

/-! The three searches. One round either moves right onto a node that passes or
stops at the predecessor of its level; the loop leaves with the predecessor and
the successor of level 0, having noted the predecessor of every level above. -/
namespace KVStorage.SkipList

open Support

variable {Key : Type} {compare_ : Key → Key → Int}
variable {m : SkipList Key} {order : List (Entry Key)} {p : Key → Bool}
variable {check : Ptr → Except Fault Unit} {right : Option Ptr → Except Fault Bool}

theorem standsChecks {i x} (guided : Guided order p compare_ check right) (stands : Stands order p i x) :
    check x = .ok () := by
  rcases stands with rfl | ⟨e,mem,rfl,_,passes⟩
  · exact guided.headChecks
  · exact guided.checks e mem passes

theorem roundCases {s : Search} {done rest} (linked : Linked compare_ m order)
    (guided : Guided order p compare_ check right) (here : At order p s.level s.x done rest)
    (low : s.level < s_max_height_) :
    (∃ e done' rest', e ∈ order ∧ s.level < e.linked ∧ At order p s.level e.ptr done' rest' ∧
      rest'.length < rest.length ∧
      m.searchRound check right s = .ok (.again {s with x := e.ptr})) ∨
    (s.x = predecessor order p s.level ∧
      m.searchRound check right s = advance s (successor order p s.level) false) := by
  have checked := standsChecks guided (atStands here)
  have loaded := atNext linked here low
  have stops : (∀ e, (level rest s.level).head? = some e → p e.key = false) →
      right (chain rest s.level).head? = .ok false →
      s.x = predecessor order p s.level ∧
        m.searchRound check right s = advance s (successor order p s.level) false := by
    intro fails stay
    obtain ⟨pred,succ⟩ := atStops linked guided.closed here fails
    have turned : m.searchRound check right s = advance s (successor order p s.level) false := by
      rw [succ] at loaded stay
      simp only [searchRound,checked,loaded,stay,bind,Except.bind]
    exact ⟨pred,turned⟩
  cases first : level rest s.level with
  | nil =>
    have stay : right (chain rest s.level).head? = .ok false := by simpa [chain,first] using guided.null
    exact .inr (stops (by simp [first]) stay)
  | cons e later =>
    have mem : e ∈ order := by
      have inside : e ∈ level rest s.level := by simp [first]
      rw [here.split]
      exact List.mem_append_right _ (memLevel.mp inside).1
    have goes : right (chain rest s.level).head? = .ok (p e.key) := by
      simpa [chain,first] using guided.goes e mem
    cases passes : p e.key with
    | false =>
      have fails : ∀ d, (level rest s.level).head? = some d → p d.key = false := by
        intro d hd
        have same : e = d := by simpa [first] using hd
        rw [← same,passes]
      exact .inr (stops fails (by rw [goes,passes]))
    | true =>
      obtain ⟨_,tall,done',rest',moved,less⟩ := atRight linked guided.closed here first passes
      have next : (chain rest s.level).head? = some e.ptr := by simp [chain,first]
      have again : m.searchRound check right s = .ok (.again {s with x := e.ptr}) := by
        rw [next] at loaded goes
        simp only [searchRound,checked,loaded,goes,passes,bind,Except.bind,advance,if_true]
      exact .inl ⟨e,done',rest',mem,tall,moved,less,again⟩

/- The entries of a caller's prev from level `low` up to `top`. -/
def Noted (order : List (Entry Key)) (p : Key → Bool) (low top : Nat) (prev : Prev) : Prop :=
  prev.length = s_max_height_ ∧
  ∀ j, low ≤ j → j < top → prev[j]? = some (some (predecessor order p j))

theorem writeLevel {low top : Nat} {prev : Prev} (noted : Noted order p (low+1) top prev)
    (inside : low < s_max_height_) :
    ∃ prev', prev.write low (predecessor order p low) = .ok prev' ∧ Noted order p low top prev' := by
  have bound : low < prev.length := by rw [noted.1]; exact inside
  have wrote : prev.write low (predecessor order p low) = .ok (prev.set low (some (predecessor order p low))) := by
    simp only [Prev.write,if_pos bound]
  have size : (prev.set low (some (predecessor order p low))).length = s_max_height_ := by
    rw [List.length_set]
    exact noted.1
  have entries : ∀ j, low ≤ j → j < top →
      (prev.set low (some (predecessor order p low)))[j]? = some (some (predecessor order p j)) := by
    intro j ge lt
    by_cases same : j = low
    · subst j
      exact List.getElem?_set_self bound
    · rw [List.getElem?_set_ne (Ne.symm same)]
      exact noted.2 j (by omega) lt
  exact ⟨_,wrote,size,entries⟩

theorem noteLevel {low top : Nat} {prev : Option Prev}
    (noted : ∀ q, prev = some q → Noted order p (low+1) top q) (inside : low < s_max_height_) :
    ∃ prev', note prev low (predecessor order p low) = .ok prev' ∧
      (∀ q, prev' = some q → Noted order p low top q) ∧ prev'.isSome = prev.isSome := by
  cases prev with
  | none => exact ⟨none,rfl,by simp,rfl⟩
  | some prev =>
    obtain ⟨prev',hw,kept⟩ := writeLevel (noted prev rfl) inside
    have wrote : note (some prev) low (predecessor order p low) = .ok (some prev') := by
      simp only [note,hw]
      rfl
    exact ⟨some prev',wrote,fun q eq => Option.some.inj eq ▸ kept,rfl⟩

structure Searching (order : List (Entry Key)) (p : Key → Bool) (top : Nat) (given : Option Prev)
    (n : Nat) (s : Search) : Prop where
  below : s.level < top
  noted : ∀ prev, s.prev = some prev → Noted order p (s.level+1) top prev
  same : s.prev.isSome = given.isSome
  here : ∃ done rest, At order p s.level s.x done rest ∧ n = s.level + rest.length

structure Finished (order : List (Entry Key)) (p : Key → Bool) (top : Nat) (given : Option Prev)
    (f : Found) : Prop where
  x : f.x = predecessor order p 0
  next : f.next = successor order p 0
  noted : ∀ prev, f.prev = some prev → Noted order p 0 top prev
  same : f.prev.isSome = given.isSome

theorem searchRoundTotal {top given n} {s : Search} (linked : Linked compare_ m order)
    (guided : Guided order p compare_ check right) (low : top ≤ s_max_height_)
    (state : Searching order p top given n s) :
    (∃ t k, m.searchRound check right s = .ok (.again t) ∧ k < n ∧ Searching order p top given k t) ∨
    (∃ f, m.searchRound check right s = .ok (.done f) ∧ Finished order p top given f) := by
  obtain ⟨done,rest,here,size⟩ := state.here
  have inside : s.level < s_max_height_ := Nat.lt_of_lt_of_le state.below low
  rcases roundCases linked guided here inside with ⟨e,done',rest',_,_,moved,less,eq⟩ | ⟨pred,eq⟩
  · have next : Searching order p top given (s.level+rest'.length) {s with x := e.ptr} :=
      ⟨state.below,state.noted,state.same,done',rest',moved,rfl⟩
    exact .inl ⟨_,s.level+rest'.length,eq,by omega,next⟩
  · obtain ⟨prev',wrote,noted,some⟩ := noteLevel state.noted inside
    rw [← pred] at wrote
    have same := some.trans state.same
    by_cases bottom : s.level = 0
    · rw [bottom] at pred noted eq wrote
      have leaves : m.searchRound check right s = .ok (.done ⟨s.x,successor order p 0,prev'⟩) := by
        rw [eq]
        simp only [advance,bottom,wrote,bind,Except.bind,if_true,Bool.false_eq_true,if_false]
      exact .inr ⟨_,leaves,pred,rfl,noted,same⟩
    · have lowers : m.searchRound check right s = .ok (.again ⟨s.x,s.level-1,prev'⟩) := by
        rw [eq]
        simp only [advance,wrote,bind,Except.bind,if_neg bottom,Bool.false_eq_true,if_false]
      have up : s.level - 1 + 1 = s.level := by omega
      have standing := lowerLevel here (Nat.sub_le s.level 1)
      have next : Searching order p top given (s.level-1+rest.length) ⟨s.x,s.level-1,prev'⟩ :=
        ⟨Nat.lt_of_le_of_lt (Nat.sub_le ..) state.below,by rw [up]; exact noted,same,done,rest,standing,rfl⟩
      exact .inl ⟨_,_,lowers,by omega,next⟩

theorem searchStarts (height : 1 ≤ m.max_height_) (given : Option Prev)
    (sized : ∀ prev, given = some prev → prev.length = s_max_height_) :
    Searching order p m.max_height_ given (m.max_height_-1+order.length) ⟨head_,m.max_height_-1,given⟩ := by
  have noted : ∀ prev, given = some prev → Noted order p (m.max_height_-1+1) m.max_height_ prev :=
    fun prev eq => ⟨sized prev eq,fun j ge lt => by omega⟩
  exact ⟨by simp only; omega,noted,rfl,[],order,⟨rfl,by simp,.inl ⟨rfl,rfl⟩⟩,rfl⟩

theorem searchFinds (lawful : ThreeWay.Lawful compare_) (linked : Linked compare_ m order)
    (guided : Guided order p compare_ check right)
    (height : 1 ≤ m.max_height_ ∧ m.max_height_ ≤ s_max_height_) (given : Option Prev)
    (sized : ∀ prev, given = some prev → prev.length = s_max_height_) :
    ∃ f, m.search check right given = .ok f ∧ Finished order p m.max_height_ given f := by
  have short := orderShort lawful linked
  have enough : m.max_height_-1+order.length < m.rounds := by
    simp only [rounds]
    omega
  exact Loop.total (fun n s => searchRoundTotal linked guided height.2) (searchStarts height.1 given sized) enough

/- A round goes down one of max_height_ levels or passes one of the entries. -/
theorem searchSettles (lawful : ThreeWay.Lawful compare_) (linked : Linked compare_ m order)
    (guided : Guided order p compare_ check right)
    (height : 1 ≤ m.max_height_ ∧ m.max_height_ ≤ s_max_height_) (given : Option Prev)
    (sized : ∀ prev, given = some prev → prev.length = s_max_height_) {limit : Nat}
    (enough : m.max_height_+order.length ≤ limit) :
    Loop.run (m.searchRound check right) .rounds limit ⟨head_,m.getMaxHeight-1,given⟩ =
      m.search check right given := by
  have short := orderShort lawful linked
  have within : m.max_height_+order.length ≤ m.rounds := by
    simp only [rounds]
    omega
  have rounds : m.max_height_-1+order.length < m.max_height_+order.length := by omega
  obtain ⟨f,left,_⟩ : ∃ f, Loop.run (m.searchRound check right) Fault.rounds (m.max_height_+order.length)
      ⟨head_,m.max_height_-1,given⟩ = .ok f ∧ Finished order p m.max_height_ given f :=
    Loop.total (fun n s => searchRoundTotal linked guided height.2) (searchStarts height.1 given sized) rounds
  exact (Loop.more left enough).trans (Loop.more left within).symm

end KVStorage.SkipList
