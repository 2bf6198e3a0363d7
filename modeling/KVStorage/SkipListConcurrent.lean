import KVStorage.SkipListReaders

/-! One writer and any number of readers, in any interleaving. No step faults,
every answer is right, and a traversal by seek and next visits in increasing
order all that was linked when it began. -/
namespace KVStorage.SkipList

open Support

variable {Key ι : Type} {compare_ : Key → Key → Int}
variable {m : SkipList Key} {order : List (Entry Key)}

/- The target of a seek that has not returned. -/
def Reader.seeking (r : Reader Key) : Option Key :=
  match r.phase with
  | .begin (.find .seek target) | .find .seek target _ => some target
  | _ => none

/- What a step, with what it returns, does to the iterator. -/
def Ends (r r' : Reader Key) : Option (Return Key) → Prop
  | none => r'.it = r.it ∧ r'.seeking = r.seeking
  | some (.seek target node_) => r.seeking = some target ∧ r'.seeking = none ∧ r'.it = ⟨node_⟩
  | some (.contains _ _) => r.seeking = none ∧ r'.seeking = none ∧ r'.it = r.it
  | some (.next n node_) =>
    r.seeking = none ∧ r'.seeking = none ∧ r.it.node_ = some n ∧ r'.it = ⟨node_⟩

structure ReaderMoved (compare_ : Key → Key → Int) (m : SkipList Key) (order : List (Entry Key))
    (r r' : Reader Key) (back : Option (Return Key)) : Prop where
  run : r.step compare_ m = .ok (r',back)
  here : ReaderAt compare_ order r'
  answer : ∀ b, back = some b → Answers compare_ m m b
  ends : Ends r r' back

theorem successorOnNode (order : List (Entry Key)) (p : Key → Bool) : OnNode order ⟨successor order p 0⟩ := by
  intro x on
  obtain ⟨e,head,ptr⟩ := Option.map_eq_some_iff.mp on
  obtain ⟨mem,tall⟩ := memLevel.mp (List.mem_filter.mp (List.mem_of_mem_head? head)).1
  exact ⟨e,mem,ptr,tall⟩

theorem idleAt {it : Iterator} (node : OnNode order it) : ReaderAt compare_ order ⟨.idle,it⟩ :=
  ⟨node,by simp,by simp⟩

section Lawful

variable (lawful : ThreeWay.Lawful compare_)

include lawful in
theorem seekFinds (linked : Linked compare_ m order) (target : Key) :
    Finds compare_ (fun k => compare_ k target ≥ 0) m m (successor order (isBefore compare_ target) 0) :=
  successorFinds lawful linked (fun k => by simp [isBefore])

include lawful in
theorem nextFinds (linked : Linked compare_ m order) (key : Key) :
    Finds compare_ (fun k => compare_ key k < 0) m m
      (successor order (fun k => decide (compare_ k key ≤ 0)) 0) := by
  refine successorFinds lawful linked ?_
  intro k
  have flip := lawful.negIff (a := key) (b := k)
  simp only [decide_eq_false_iff_not,Int.not_le]
  omega

include lawful in
theorem isEqualAnswers (linked : Linked compare_ m order) (target : Key) :
    ∃ found, isEqual compare_ m target (successor order (isBefore compare_ target) 0) = .ok found ∧
      Answers compare_ m m (.contains target found) := by
  have finds := seekFinds lawful linked target
  cases hs : successor order (isBefore compare_ target) 0 with
  | none =>
    rw [hs] at finds
    refine ⟨false,rfl,by simp,?_⟩
    intro _ k mem same
    have back := lawful.zeroIff.mp same
    exact finds k mem (by omega)
  | some x =>
    rw [hs] at finds
    obtain ⟨k,holds,after,least⟩ := finds
    obtain ⟨_,node,_,_,found,key⟩ := id holds
    refine ⟨equal compare_ target k,by simp only [isEqual,found,bind,Except.bind,key],?_,?_⟩
    · intro yes
      exact ⟨k,⟨x,holds⟩,by simpa [equal] using yes⟩
    · intro no k' mem same
      have back := lawful.zeroIff.mp same
      have notLess := least k' mem (by omega)
      have le : compare_ k k' ≤ 0 := lawful.nonposIff.mpr (Int.not_lt.mp notLess)
      have meet : compare_ k target = 0 :=
        Int.le_antisymm (lawful.trans le (Int.le_of_eq back)) after
      have yes := lawful.zeroIff.mp meet
      simp [equal,yes] at no

theorem findBegins {it : Iterator} {kind : Lookup} {target : Key} (steady : Steady compare_ m order)
    (node : OnNode order it) : ∃ r' back, ReaderMoved compare_ m order ⟨.begin (.find kind target),it⟩ r' back := by
  have height := steady.height
  have low : m.getMaxHeight-1 < s_max_height_ := by
    simp only [getMaxHeight]
    omega
  have scan : ∀ k t s, Reader.Phase.find kind target ⟨head_,m.getMaxHeight-1,none⟩ = .find k t s →
      Scanning compare_ order t s := by
    intro k t s eq
    cases eq
    exact ⟨.inl rfl,low,rfl⟩
  have seeking : (⟨.find kind target ⟨head_,m.getMaxHeight-1,none⟩,it⟩ : Reader Key).seeking =
      (⟨.begin (.find kind target),it⟩ : Reader Key).seeking := by
    cases kind with
    | seek => rfl
    | contains => rfl
  exact ⟨_,none,rfl,⟨node,by simp,scan⟩,by simp,rfl,seeking⟩

include lawful in
theorem nextMoves {it : Iterator} (linked : Linked compare_ m order) (node : OnNode order it)
    (valid : it.valid = true) : ∃ r' back, ReaderMoved compare_ m order ⟨.begin .next,it⟩ r' back := by
  obtain ⟨n,on⟩ := Option.isSome_iff_exists.mp valid
  obtain ⟨e,mem,ptr,tall⟩ := node n on
  have load := nextIs lawful linked mem tall (by decide)
  have finds := nextFinds lawful linked e.key
  have reached := successorOnNode order (fun k => decide (compare_ k e.key ≤ 0))
  generalize successor order (fun k => decide (compare_ k e.key ≤ 0)) 0 = node_ at load finds reached
  rw [ptr] at load
  have holds : m.Holds n e.key := (holdsIff linked).mpr ⟨e,mem,tall,ptr,rfl⟩
  have run : (⟨.begin .next,it⟩ : Reader Key).step compare_ m = .ok (⟨.idle,⟨node_⟩⟩,some (.next n node_)) := by
    simp only [Reader.step,on,load,bind,Except.bind]
  have answer : ∀ b, some (Return.next n node_) = some b → Answers compare_ m m b := by
    intro b eq
    cases Option.some.inj eq
    exact ⟨e.key,holds,finds⟩
  exact ⟨_,_,run,idleAt reached,answer,rfl,rfl,on,rfl⟩

include lawful in
theorem foundMoves {it : Iterator} {kind : Lookup} {target : Key} {s : Search} {f : Found}
    (linked : Linked compare_ m order) (node : OnNode order it)
    (round : m.searchRound noCheck (m.keyIsAfterNode compare_ target) s = .ok (.done f))
    (found : f.next = successor order (isBefore compare_ target) 0) :
    ∃ r' back, ReaderMoved compare_ m order ⟨.find kind target s,it⟩ r' back := by
  cases kind with
  | seek =>
    have run : (⟨.find .seek target s,it⟩ : Reader Key).step compare_ m =
        .ok (⟨.idle,⟨f.next⟩⟩,some (.seek target f.next)) := by
      simp only [Reader.step,round,Reader.found,bind,Except.bind]
    have reached : OnNode order ⟨f.next⟩ := found ▸ successorOnNode order _
    have answer : ∀ b, some (Return.seek target f.next) = some b → Answers compare_ m m b := by
      intro b eq
      cases Option.some.inj eq
      exact found ▸ seekFinds lawful linked target
    exact ⟨_,_,run,idleAt reached,answer,rfl,rfl,rfl⟩
  | contains =>
    obtain ⟨yes,test,answers⟩ := isEqualAnswers lawful linked target
    have run : (⟨.find .contains target s,it⟩ : Reader Key).step compare_ m =
        .ok (⟨.idle,it⟩,some (.contains target yes)) := by
      simp only [Reader.step,round,Reader.found,found,test,bind,Except.bind]
    have answer : ∀ b, some (Return.contains target yes) = some b → Answers compare_ m m b := by
      intro b eq
      cases Option.some.inj eq
      exact answers
    exact ⟨_,_,run,idleAt node,answer,rfl,rfl,rfl⟩

include lawful in
theorem findSteps {it : Iterator} {kind : Lookup} {target : Key} {s : Search}
    (linked : Linked compare_ m order) (node : OnNode order it) (scan : Scanning compare_ order target s) :
    ∃ r' back, ReaderMoved compare_ m order ⟨.find kind target s,it⟩ r' back := by
  rcases scanMoves lawful linked scan with ⟨t,round,next⟩ | ⟨f,round,found⟩
  · have run : (⟨.find kind target s,it⟩ : Reader Key).step compare_ m =
        .ok (⟨.find kind target t,it⟩,none) := by
      simp only [Reader.step,round,bind,Except.bind]
    have kept : ∀ k t' s', Reader.Phase.find kind target t = .find k t' s' →
        Scanning compare_ order t' s' := by
      intro k t' s' eq
      cases eq
      exact next
    have seeking : (⟨.find kind target t,it⟩ : Reader Key).seeking =
        (⟨.find kind target s,it⟩ : Reader Key).seeking := by
      cases kind with
      | seek => rfl
      | contains => rfl
    exact ⟨_,none,run,⟨node,by simp,kept⟩,by simp,rfl,seeking⟩
  · exact foundMoves lawful linked node round found

include lawful in
theorem readerMoves {r : Reader Key} (steady : Steady compare_ m order) (here : ReaderAt compare_ order r) :
    ∃ r' back, ReaderMoved compare_ m order r r' back := by
  obtain ⟨phase,it⟩ := r
  cases phase with
  | idle => exact ⟨_,none,rfl,here,by simp,rfl,rfl⟩
  | begin q =>
    cases q with
    | find kind target => exact findBegins steady here.node
    | next => exact nextMoves lawful steady.linked here.node (here.valid rfl)
  | find kind target s => exact findSteps lawful steady.linked here.node (here.find kind target s rfl)

/- All threads at once. -/
structure Together (compare_ : Key → Key → Int) (order : List (Entry Key)) (s : Threads Key ι) : Prop where
  steady : Steady compare_ s.list order
  writer : WriterAt compare_ s.list order s.writer
  readers : ∀ i, ReaderAt compare_ order (s.readers i)

variable [DecidableEq ι] {s t : Threads Key ι} {e : Event Key ι}

theorem setReader {order : List (Entry Key)} (all : Together compare_ order s) {i : ι} {r : Reader Key}
    (here : ReaderAt compare_ order r) : Together compare_ order (s.set i r) := by
  have readers : ∀ j, ReaderAt compare_ order ((s.set i r).readers j) := by
    intro j
    by_cases same : j = i
    · subst j
      simpa [Threads.set] using here
    · simpa [Threads.set,same] using all.readers j
  exact ⟨all.steady,all.writer,readers⟩

include lawful in
theorem stepTogether (all : Together compare_ order s) (step : Threads.Step compare_ s e t) :
    ∃ order', Together compare_ order' t ∧ Grows order order' := by
  cases step with
  | insert idle fresh one low =>
    have rep : Represents compare_ s.list order := by
      have here := all.writer
      rwa [idle] at here
    have new : ∀ d ∈ order, compare_ _ d.key ≠ 0 := fun d mem =>
      fresh d.key ⟨d.ptr,(holdsIff rep.linked).mpr ⟨d,mem,(rep.full d mem).2,rfl,rfl⟩⟩
    exact ⟨order,⟨all.steady,⟨rep,new,one,low⟩,all.readers⟩,growsSelf order⟩
  | write ok =>
    obtain ⟨m',w',order',run,steady,here,grows⟩ := writerMoves lawful all.steady all.writer
    cases Except.ok.inj (ok.symm.trans run)
    exact ⟨order',⟨steady,here,fun i => readerGrows grows (all.readers i)⟩,grows⟩
  | call idle valid =>
    rename_i i q
    have old := all.readers i
    have here : ReaderAt compare_ order {s.readers i with phase := .begin q} := by
      refine ⟨old.node,?_,by simp⟩
      intro eq
      cases eq
      exact valid rfl
    exact ⟨order,setReader all here,growsSelf order⟩
  | read ok =>
    rename_i i r back
    obtain ⟨r',back',moved⟩ := readerMoves lawful all.steady (all.readers i)
    cases Except.ok.inj (ok.symm.trans moved.run)
    exact ⟨order,setReader all moved.here,growsSelf order⟩

include lawful in
theorem runTogether {es : List (Event Key ι)} (all : Together compare_ order s)
    (run : Machine.Run (Threads.Step compare_) s es t) :
    ∃ order', Together compare_ order' t ∧ Grows order order' := by
  induction run generalizing order with
  | nil => exact ⟨order,all,growsSelf order⟩
  | cons head tail ih =>
    obtain ⟨order1,all1,grows1⟩ := stepTogether lawful all head
    obtain ⟨order2,all2,grows2⟩ := ih all1
    exact ⟨order2,all2,growsTrans grows1 grows2⟩

end Lawful
end KVStorage.SkipList
