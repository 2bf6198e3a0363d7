import KVStorage.SkipListLinearizable

/-! How long calls last. Each round of a search goes down a level or past a node, and
no store of the writer brings a search back, so whatever the other threads do a call
has made no more steps than there are levels and nodes. -/
namespace KVStorage.SkipList

open Support

variable {Key ι : Type} {compare_ : Key → Key → Int}
variable {m m' : SkipList Key} {order order' : List (Entry Key)}

/- A search in its n-th step: each step but its first went down a level or past an
entry. -/
def Passed (order : List (Entry Key)) (p : Key → Bool) (s : Search) (n : Nat) : Prop :=
  ∃ done rest, At order p s.level s.x done rest ∧ n + s.level ≤ s_max_height_ + done.length

section Lawful

variable (lawful : ThreeWay.Lawful compare_)

include lawful in
theorem growsLength (linked : Linked compare_ m order) (grows : Grows order order') :
    order.length ≤ order'.length := by
  have distinct := (List.nodup_cons.mp (ptrsDistinct lawful linked)).2
  have inside : order.map Entry.ptr ⊆ order'.map Entry.ptr := by
    intro x mem
    obtain ⟨e,he,rfl⟩ := List.mem_map.mp mem
    obtain ⟨d,hd,ptr,_⟩ := grows e he
    exact List.mem_map.mpr ⟨d,hd,ptr⟩
  simpa using (List.subperm_of_subset distinct inside).length_le

/- A search has passed all entries up to the one it stands on. -/
include lawful in
theorem passedUpTo {p : Key → Bool} {i x done rest} {e d : Entry Key} (linked : Linked compare_ m order)
    (here : At order p i x done rest) (he : e ∈ order) (ptr : e.ptr = x) (hd : d ∈ order)
    (le : compare_ d.key e.key ≤ 0) : d ∈ done := by
  rcases here.here with ⟨_,head⟩ | ⟨front,l,ends,same,_⟩
  · exact absurd (ptr.trans head) (linked.apart e he)
  · have sorted := linked.sorted
    rw [here.split] at hd sorted
    have last : l ∈ done := by simp [ends]
    have key : l.key = e.key := by
      obtain ⟨_,sl,_⟩ := linked.shaped l (by rw [here.split]; exact List.mem_append_left _ last)
      obtain ⟨_,se,_⟩ := linked.shaped e he
      rw [same,← ptr,se] at sl
      exact (congrArg Prod.fst (Option.some.inj sl)).symm
    rcases List.mem_append.mp hd with before | after
    · exact before
    · have less := (List.pairwise_append.mp sorted).2.2 l last d after
      rw [key] at less
      exact absurd (lawful.ltOfLtOfLe less le) lawful.irrefl

include lawful in
theorem doneGrows {p : Key → Bool} {i x done rest done' rest'} (linked : Linked compare_ m order)
    (linked' : Linked compare_ m' order') (grows : Grows order order') (here : At order p i x done rest)
    (here' : At order' p i x done' rest') : done.length ≤ done'.length := by
  rcases here.here with ⟨rfl,_⟩ | ⟨front,l,ends,ptr,_⟩
  · exact Nat.zero_le _
  · have mine : ∀ e ∈ done, e ∈ order := fun e he => by rw [here.split]; exact List.mem_append_left _ he
    have upTo : ∀ e ∈ done, compare_ e.key l.key ≤ 0 := by
      have sorted := linked.sorted
      rw [here.split,ends] at sorted
      have before := (List.pairwise_append.mp (List.pairwise_append.mp sorted).1).2.2
      intro e he
      rw [ends] at he
      rcases List.mem_append.mp he with early | last
      · exact Int.le_of_lt (before e early l (by simp))
      · rw [List.mem_singleton.mp last,lawful.self]
    have distinct : (done.map Entry.ptr).Nodup := by
      have whole := (List.nodup_cons.mp (ptrsDistinct lawful linked)).2
      rw [here.split,List.map_append] at whole
      exact whole.of_append_left
    have inside : done.map Entry.ptr ⊆ done'.map Entry.ptr := by
      intro y mem
      obtain ⟨e,he,rfl⟩ := List.mem_map.mp mem
      obtain ⟨d,hd,ptrD,keyD,_⟩ := grows e (mine e he)
      obtain ⟨c,hc,ptrC,keyC,_⟩ := grows l (mine l (by simp [ends]))
      have le : compare_ d.key c.key ≤ 0 := by
        rw [keyD,keyC]
        exact upTo e he
      exact List.mem_map.mpr ⟨d,passedUpTo lawful linked' here' hc (ptrC.trans ptr) hd le,ptrD⟩
    simpa using (List.subperm_of_subset distinct inside).length_le

include lawful in
theorem passedGrows {p : Key → Bool} {s : Search} {n : Nat} (linked : Linked compare_ m order)
    (linked' : Linked compare_ m' order') (closed : ∀ a b, compare_ a b < 0 → p b = true → p a = true)
    (grows : Grows order order') (passed : Passed order p s n) : Passed order' p s n := by
  obtain ⟨done,rest,here,count⟩ := passed
  obtain ⟨done',rest',here'⟩ := standsAt linked' closed (standsGrows grows (atStands here))
  have more := doneGrows lawful linked linked' grows here here'
  exact ⟨done',rest',here',by omega⟩

theorem passedStart {p : Key → Bool} {prev : Option Prev} (height : 1 ≤ m.max_height_ ∧ m.max_height_ ≤ s_max_height_) :
    Passed order p ⟨head_,m.getMaxHeight-1,prev⟩ 1 := by
  refine ⟨[],order,⟨rfl,by simp,.inl ⟨rfl,rfl⟩⟩,?_⟩
  simp only [getMaxHeight,List.length_nil]
  omega

theorem passedAgain {p : Key → Bool} {check : Ptr → Except Fault Unit} {right : Option Ptr → Except Fault Bool}
    {top k n : Nat} {given : Option Prev} {s t : Search} (linked : Linked compare_ m order)
    (guided : Guided order p compare_ check right) (low : top ≤ s_max_height_)
    (state : Searching order p top given k s) (passed : Passed order p s n)
    (round : m.searchRound check right s = .ok (.again t)) : Passed order p t (n+1) := by
  obtain ⟨done,rest,here,count⟩ := passed
  have here' : Searching order p top given (s.level+rest.length) s :=
    ⟨state.below,state.noted,state.same,done,rest,here,rfl⟩
  rcases searchRoundTotal linked guided low here' with ⟨u,j,run,less,next⟩ | ⟨f,run,_⟩
  · cases Except.ok.inj (round.symm.trans run)
    obtain ⟨done',rest',there,rfl⟩ := next.here
    have whole : done.length + rest.length = done'.length + rest'.length := by
      rw [← List.length_append,← List.length_append,← here.split,there.split]
    exact ⟨done',rest',there,by omega⟩
  · cases Except.ok.inj (round.symm.trans run)

theorem passedBound {p : Key → Bool} {s : Search} {n : Nat} (passed : Passed order p s n) :
    n ≤ s_max_height_ + order.length := by
  obtain ⟨done,rest,here,count⟩ := passed
  rw [here.split,List.length_append]
  omega

/- The reader's steps since it began a call that has not returned. -/
def Caller.Spent (compare_ : Key → Key → Int) (order : List (Entry Key)) (c : Caller Key) (n : Nat) : Prop :=
  match c.phase with
  | .idle => False
  | .begin _ => n = 0
  | .search w s => Passed order (w.passes compare_) s n

theorem endsAnswers {it : Iterator} {c : Caller Key} : Caller.ends m it ≠ .ok (c,none) := by
  intro ends
  unfold Caller.ends at ends
  split at ends
  · obtain ⟨_,_,last⟩ := Machine.okBind ends
    cases Except.ok.inj last
  · cases Except.ok.inj ends

theorem foundAnswers {c c' : Caller Key} {f : Found} (w : Wanted Key) :
    c.found compare_ m f w ≠ .ok (c',none) := by
  intro found
  cases w with
  | contains key =>
    obtain ⟨_,_,last⟩ := Machine.okBind found
    cases Except.ok.inj last
  | seek | less | last => exact endsAnswers found

include lawful in
theorem callerSpends {c c' : Caller Key} {n : Nat} (steady : Steady compare_ m order) (here : CallerAt compare_ order c)
    (run : c.step compare_ m = .ok (c',none)) (spent : c.Spent compare_ order n) :
    c'.Spent compare_ order (n+1) := by
  obtain ⟨phase,it⟩ := c
  cases phase with
  | idle => exact spent.elim
  | begin q =>
    cases show n = 0 from spent
    cases q with
    | contains | seek | seekToLast =>
      cases Except.ok.inj run
      exact passedStart steady.height
    | seekToFirst | next =>
      obtain ⟨_,_,ends⟩ := Machine.okBind run
      exact absurd ends endsAnswers
    | prev =>
      obtain ⟨x,on⟩ := Option.isSome_iff_exists.mp (here.valid (.inr rfl))
      simp only at on
      simp only [Caller.step,Caller.begins,on] at run
      obtain ⟨_,_,last⟩ := Machine.okBind run
      cases Except.ok.inj last
      exact passedStart steady.height
  | search w s =>
    obtain ⟨round,ran,rest⟩ := Machine.okBind run
    cases round with
    | again t =>
      cases Except.ok.inj rest
      obtain ⟨_,state⟩ := huntingSearching lawful steady.linked (here.search w s rfl)
      exact passedAgain steady.linked (wantedGuided lawful steady.linked w) (Nat.le_refl _) state spent ran
    | done f => exact absurd rest (foundAnswers w)

include lawful in
theorem callerSpentGrows {c : Caller Key} {n : Nat} (linked : Linked compare_ m order)
    (linked' : Linked compare_ m' order') (grows : Grows order order') (spent : c.Spent compare_ order n) :
    c.Spent compare_ order' n := by
  obtain ⟨phase,it⟩ := c
  cases phase with
  | idle | begin => exact spent
  | search w s => exact passedGrows lawful linked linked' (wantedGuided lawful linked w).closed grows spent

theorem callerSpentBound {c : Caller Key} {n : Nat} (spent : c.Spent compare_ order n) :
    n ≤ s_max_height_ + order.length := by
  obtain ⟨phase,it⟩ := c
  cases phase with
  | idle => exact spent.elim
  | begin q =>
    cases show n = 0 from spent
    exact Nat.zero_le _
  | search w s => exact passedBound spent

/- The writer's steps since it began an insert that has not returned: its search,
the store of max_height_, the new node, and three steps for each level. -/
def Writer.Spent (compare_ : Key → Key → Int) (order : List (Entry Key)) (n : Nat) : Writer Key → Prop
  | .idle => False
  | .begin _ => n = 0
  | .find op s => Passed order (isBefore compare_ op.key) s n
  | .compareHeight _ _ => n ≤ s_max_height_ + order.length + 1
  | .fillPrev _ _ => n ≤ s_max_height_ + order.length + 2
  | .storeMaxHeight _ _ => n ≤ s_max_height_ + order.length + 3
  | .newNode _ _ => n ≤ s_max_height_ + order.length + 4
  | .loadNext _ _ _ i => n ≤ s_max_height_ + order.length + 5 + 3*i
  | .storeOwn _ _ _ i _ => n ≤ s_max_height_ + order.length + 6 + 3*i
  | .storePrev _ _ _ i => n ≤ s_max_height_ + order.length + 7 + 3*i

include lawful in
theorem findSpends {op : Insertion Key} {s : Search} {w' : Writer Key} {n : Nat}
    (here : WriterAt compare_ m order (.find op s)) (run : (Writer.find op s).step compare_ m = .ok (m',w'))
    (spent : Passed order (isBefore compare_ op.key) s n) :
    w'.Spent compare_ order (n+1) := by
  obtain ⟨rep,_,_,state⟩ := here
  obtain ⟨round,ran,rest⟩ := Machine.okBind run
  cases round with
  | again t =>
    cases Except.ok.inj rest
    exact passedAgain rep.linked (keyGuided lawful rep.linked op.key) (representsHeight rep).2 state spent ran
  | done f =>
    obtain ⟨_,_,last⟩ := Machine.okBind rest
    cases Except.ok.inj last
    exact Nat.succ_le_succ (passedBound spent)

include lawful in
theorem writerSpends {w w' : Writer Key} {n : Nat} (steady : Steady compare_ m order)
    (here : WriterAt compare_ m order w) (run : w.step compare_ m = .ok (m',w')) (going : w' ≠ .idle)
    (spent : w.Spent compare_ order n) : w'.Spent compare_ order (n+1) := by
  cases w with
  | idle => exact spent.elim
  | begin op =>
    cases show n = 0 from spent
    cases Except.ok.inj run
    exact passedStart steady.height
  | find op s => exact findSpends lawful here run spent
  | compareHeight op prev =>
    simp only [Writer.step] at run
    simp only [Writer.Spent] at spent
    split at run <;> cases Except.ok.inj run <;> simp only [Writer.Spent] <;> omega
  | fillPrev op prev =>
    obtain ⟨_,_,last⟩ := Machine.okBind run
    cases Except.ok.inj last
    exact Nat.succ_le_succ spent
  | storeMaxHeight op prev =>
    cases Except.ok.inj run
    exact Nat.succ_le_succ spent
  | newNode op prev =>
    cases Except.ok.inj run
    rcases linkFromPending op prev m.nodes.length 0 with ⟨_,more⟩ | ⟨_,stop⟩
    · rw [more]
      exact Nat.succ_le_succ spent
    · exact absurd stop going
  | loadNext op prev x i =>
    obtain ⟨_,_,rest⟩ := Machine.okBind run
    obtain ⟨_,_,last⟩ := Machine.okBind rest
    cases Except.ok.inj last
    simp only [Writer.Spent] at spent ⊢
    omega
  | storeOwn op prev x i after =>
    obtain ⟨_,_,last⟩ := Machine.okBind run
    cases Except.ok.inj last
    simp only [Writer.Spent] at spent ⊢
    omega
  | storePrev op prev x i =>
    obtain ⟨_,_,rest⟩ := Machine.okBind run
    obtain ⟨_,_,last⟩ := Machine.okBind rest
    cases Except.ok.inj last
    rcases linkFromPending op prev x (i+1) with ⟨_,more⟩ | ⟨_,stop⟩
    · rw [more]
      simp only [Writer.Spent] at spent ⊢
      omega
    · exact absurd stop going

include lawful in
theorem writerSpentGrows {w : Writer Key} {n : Nat} (linked : Linked compare_ m order)
    (linked' : Linked compare_ m' order') (grows : Grows order order') (spent : w.Spent compare_ order n) :
    w.Spent compare_ order' n := by
  have longer := growsLength lawful linked grows
  cases w with
  | idle | begin => exact spent
  | find op s => exact passedGrows lawful linked linked' (isBeforeClosed lawful op.key) grows spent
  | compareHeight | fillPrev | storeMaxHeight | newNode | loadNext | storeOwn | storePrev =>
    simp only [Writer.Spent] at spent ⊢
    omega

theorem writerSpentBound {w : Writer Key} {n : Nat} (steady : Steady compare_ m order)
    (here : WriterAt compare_ m order w) (spent : w.Spent compare_ order n) :
    n ≤ 4*s_max_height_ + order.length + 4 := by
  have low : ∀ {a b op prev x i}, Linking m order a b op prev x i → i < s_max_height_ := by
    intro a b op prev x i linking
    have linked := steady.linked
    rw [linking.place] at linked
    exact Nat.lt_of_lt_of_le linking.level (heightLow linked (e := ⟨x,op.key,i⟩) (by simp) linking.shape)
  cases w with
  | idle => exact spent.elim
  | begin op =>
    cases show n = 0 from spent
    exact Nat.zero_le _
  | find op s =>
    have bound := passedBound spent
    omega
  | compareHeight | fillPrev | storeMaxHeight | newNode =>
    simp only [Writer.Spent] at spent
    have one : 1 ≤ s_max_height_ := by decide
    omega
  | loadNext op prev x i =>
    obtain ⟨_,_,linking⟩ := here
    have inside := low linking
    simp only [Writer.Spent] at spent
    omega
  | storeOwn op prev x i after | storePrev op prev x i =>
    obtain ⟨_,_,linking,_⟩ := here
    have inside := low linking
    simp only [Writer.Spent] at spent
    omega

end Lawful

theorem standsPassed {p : Key → Bool} {s : Search} (linked : Linked compare_ m order)
    (closed : ∀ a b, compare_ a b < 0 → p b = true → p a = true) (stands : Stands order p s.level s.x)
    (low : s.level < s_max_height_) : Passed order p s 0 := by
  obtain ⟨done,rest,here⟩ := standsAt linked closed stands
  exact ⟨done,rest,here,by omega⟩

theorem callerBegun (lawful : ThreeWay.Lawful compare_) {c : Caller Key} (linked : Linked compare_ m order)
    (here : CallerAt compare_ order c) (busy : c.phase ≠ .idle) : c.Spent compare_ order 0 := by
  obtain ⟨phase,it⟩ := c
  cases phase with
  | idle => exact absurd rfl busy
  | begin q => exact rfl
  | search w s =>
    have hunting := here.search w s rfl
    exact standsPassed linked (wantedGuided lawful linked w).closed hunting.stands hunting.low

theorem writerBegun {w : Writer Key} (steady : Steady compare_ m order)
    (here : WriterAt compare_ m order w) (busy : w ≠ .idle) : w.Spent compare_ order 0 := by
  cases w with
  | idle => exact absurd rfl busy
  | begin op => exact rfl
  | find op s =>
    obtain ⟨_,_,n,state⟩ := here
    obtain ⟨done,rest,there,_⟩ := state.here
    have below := state.below
    have low := steady.height.2
    exact ⟨done,rest,there,by omega⟩
  | compareHeight | fillPrev | storeMaxHeight | newNode | loadNext | storeOwn | storePrev => exact Nat.zero_le _

/- The nodes that the writer's call is yet to allocate. -/
def Writer.allocates : Writer Key → Nat
  | .begin _ | .find _ _ | .compareHeight _ _ | .fillPrev _ _ | .storeMaxHeight _ _ | .newNode _ _ => 1
  | .idle | .loadNext _ _ _ _ | .storeOwn _ _ _ _ _ | .storePrev _ _ _ _ => 0

theorem setNextLength {x : Ptr} {n : Nat} {y : Option Ptr} (run : m.setNext x n y = .ok m') :
    m'.nodes.length = m.nodes.length := by
  simpa [shapes] using congrArg List.length (setNextStored run).shapes

theorem linkFromAllocates (op : Insertion Key) (prev : Prev) (x : Ptr) (i : Nat) :
    (linkFrom op prev x i).allocates = 0 := by
  rcases linkFromPending op prev x i with ⟨_,eq⟩ | ⟨_,eq⟩ <;> rw [eq] <;> rfl

theorem stepAllocates {w w' : Writer Key} (run : w.step compare_ m = .ok (m',w')) :
    m'.nodes.length + w'.allocates ≤ m.nodes.length + w.allocates := by
  cases w with
  | idle | begin | storeMaxHeight =>
    cases Except.ok.inj run
    exact Nat.le_refl _
  | find op s =>
    obtain ⟨round,_,rest⟩ := Machine.okBind run
    cases round with
    | again t =>
      cases Except.ok.inj rest
      exact Nat.le_refl _
    | done f =>
      obtain ⟨_,_,last⟩ := Machine.okBind rest
      cases Except.ok.inj last
      exact Nat.le_refl _
  | compareHeight op prev =>
    simp only [Writer.step] at run
    split at run <;> cases Except.ok.inj run <;> exact Nat.le_refl _
  | fillPrev op prev =>
    obtain ⟨_,_,last⟩ := Machine.okBind run
    cases Except.ok.inj last
    exact Nat.le_refl _
  | newNode op prev =>
    cases Except.ok.inj run
    rw [linkFromAllocates]
    exact Nat.le_of_eq (List.length_append ..)
  | loadNext op prev x i =>
    obtain ⟨_,_,rest⟩ := Machine.okBind run
    obtain ⟨_,_,last⟩ := Machine.okBind rest
    cases Except.ok.inj last
    exact Nat.le_refl _
  | storeOwn op prev x i after =>
    obtain ⟨_,store,last⟩ := Machine.okBind run
    cases Except.ok.inj last
    exact Nat.le_of_eq (setNextLength store)
  | storePrev op prev x i =>
    obtain ⟨_,_,rest⟩ := Machine.okBind run
    obtain ⟨_,store,last⟩ := Machine.okBind rest
    cases Except.ok.inj last
    rw [linkFromAllocates]
    exact Nat.le_of_eq (setNextLength store)

namespace Callers

/- The thread `none` inserts, thread `some i` reads. -/
def Event.steps [DecidableEq ι] (p : Option ι) : Event Key ι → Bool
  | .write _ => decide (p = none)
  | .read i _ => decide (p = some i)
  | _ => false

/- A step that lets no call of thread p return. -/
def Event.keeps (p : Option ι) (e : Event Key ι) : Prop := ∀ r, e.mark ≠ some (.back p r)

/- All threads at once. -/
structure Standing (compare_ : Key → Key → Int) (order : List (Entry Key)) (s : Callers Key ι) : Prop where
  steady : Steady compare_ s.list order
  writer : WriterAt compare_ s.list order s.writer
  callers : ∀ i, CallerAt compare_ order (s.callers i)
  placed : ∀ i, ∃ position, Placed (level order 0) (s.callers i).it position

def Spent (compare_ : Key → Key → Int) (order : List (Entry Key)) (s : Callers Key ι) (n : Nat) : Option ι → Prop
  | none => s.writer.Spent compare_ order n
  | some i => (s.callers i).Spent compare_ order n

variable [DecidableEq ι] {s t : Callers Key ι} {e : Event Key ι}

theorem setStanding (all : Standing compare_ order s) {i : ι} {c : Caller Key} {position : Option Key}
    (here : CallerAt compare_ order c) (placed : Placed (level order 0) c.it position) :
    Standing compare_ order (s.set i c) := by
  have readers : ∀ j, CallerAt compare_ order ((s.set i c).callers j) ∧
      ∃ position, Placed (level order 0) ((s.set i c).callers j).it position := by
    intro j
    by_cases same : j = i
    · subst j
      simpa [Callers.set] using ⟨here,position,placed⟩
    · simpa [Callers.set,same] using ⟨all.callers j,all.placed j⟩
  exact ⟨all.steady,all.writer,fun j => (readers j).1,fun j => (readers j).2⟩

theorem readerSteps (lawful : ThreeWay.Lawful compare_) (all : Standing compare_ order s) (i : ι) :
    ∃ (a : OrderedCursor.State Key ι) (c : Caller Key) (back : Option (Answer Key)),
      Placed (level order 0) (s.callers i).it (a.position i) ∧
      CallerMoved compare_ s.list order a i (s.callers i) c back := by
  choose position placed using all.placed
  let a : OrderedCursor.State Key ι := ⟨keysOf (level order 0),position⟩
  obtain ⟨c,back,moved⟩ := callerMoves (a := a) lawful all.steady rfl (placed i) (all.callers i)
  exact ⟨a,c,back,placed i,moved⟩

theorem stepStanding (lawful : ThreeWay.Lawful compare_) (all : Standing compare_ order s)
    (step : Step compare_ s e t) : ∃ order', Standing compare_ order' t ∧ Grows order order' := by
  cases step with
  | insert idle fresh one low =>
    have here := insertAccepted all.writer idle fresh one low
    exact ⟨order,⟨all.steady,here,all.callers,all.placed⟩,growsSelf order⟩
  | write ok =>
    obtain ⟨_,_,order',run,steady,here,grows⟩ := writerMoves lawful all.steady all.writer
    cases Except.ok.inj (ok.symm.trans run)
    exact ⟨order',⟨steady,here,fun i => callerGrows grows (all.callers i),
      fun i => (all.placed i).imp fun _ => placedGrows grows⟩,grows⟩
  | call idle valid =>
    rename_i i q
    obtain ⟨_,placed⟩ := all.placed i
    exact ⟨order,setStanding all (calledAt valid) placed,growsSelf order⟩
  | read ok =>
    rename_i i c back
    obtain ⟨_,_,_,placed,moved⟩ := readerSteps lawful all i
    cases Except.ok.inj (ok.symm.trans moved.run)
    cases back with
    | none => exact ⟨order,setStanding all moved.here ((moved.silent rfl).1 ▸ placed),growsSelf order⟩
    | some r =>
      obtain ⟨_,_,_,_,_,there⟩ := moved.takes r rfl
      exact ⟨order,setStanding all moved.here there,growsSelf order⟩

theorem stepSpent (lawful : ThreeWay.Lawful compare_) {p : Option ι} {n : Nat} (all : Standing compare_ order s)
    (spent : s.Spent compare_ order n p) (keeps : e.keeps p) (step : Step compare_ s e t) :
    t.Spent compare_ order (n + (e.steps p).toNat) p := by
  cases step with
  | insert idle =>
    cases p with
    | none => exact (show Writer.Spent compare_ order n .idle from idle ▸ spent).elim
    | some i => exact spent
  | write ok =>
    cases p with
    | none =>
      rename_i list writer
      have going : writer ≠ .idle := by
        intro rests
        cases w : s.writer with
        | idle =>
          simp only [Spent,w] at spent
          exact spent
        | _ => exact keeps .inserted (by simp [Event.mark,Writer.returns,w,rests])
      exact writerSpends lawful all.steady all.writer ok going spent
    | some i => exact spent
  | call idle valid =>
    rename_i i q
    cases p with
    | none => exact spent
    | some j =>
      by_cases same : j = i
      · subst j
        simp only [Spent,Caller.Spent,idle] at spent
      · simpa [Spent,Callers.set,Event.steps,same] using spent
  | read ok =>
    rename_i i c back
    cases p with
    | none => exact spent
    | some j =>
      by_cases same : j = i
      · subst j
        cases back with
        | some r => exact absurd rfl (keeps r)
        | none =>
          have next := callerSpends lawful all.steady (all.callers i) ok spent
          simpa [Spent,Callers.set,Event.steps] using next
      · simpa [Spent,Callers.set,Event.steps,same] using spent

omit [DecidableEq ι] in
theorem spentGrows (lawful : ThreeWay.Lawful compare_) {p : Option ι} {n : Nat} (linked : Linked compare_ m order)
    (linked' : Linked compare_ m' order') (grows : Grows order order') (spent : s.Spent compare_ order n p) :
    s.Spent compare_ order' n p := by
  cases p with
  | none => exact writerSpentGrows lawful linked linked' grows spent
  | some i => exact callerSpentGrows lawful linked linked' grows spent

theorem stepSpends (lawful : ThreeWay.Lawful compare_) {p : Option ι} {n : Nat} (all : Standing compare_ order s)
    (spent : s.Spent compare_ order n p) (keeps : e.keeps p) (step : Step compare_ s e t) :
    ∃ order', Standing compare_ order' t ∧ t.Spent compare_ order' (n + (e.steps p).toNat) p := by
  obtain ⟨order',all',grows⟩ := stepStanding lawful all step
  have next := stepSpent lawful all spent keeps step
  exact ⟨order',all',spentGrows lawful all.steady.linked all'.steady.linked grows next⟩

/- A thread's steps in a run in which its call does not return. -/
theorem runSpends (lawful : ThreeWay.Lawful compare_) {p : Option ι} {n : Nat} {es : List (Event Key ι)}
    (all : Standing compare_ order s) (spent : s.Spent compare_ order n p) (keeps : ∀ e ∈ es, e.keeps p)
    (run : Machine.Run (Step compare_) s es t) :
    ∃ order', Standing compare_ order' t ∧ t.Spent compare_ order' (n + es.countP (Event.steps p)) p := by
  have forward : ∀ (s : Callers Key ι) e t n, (∃ order, Standing compare_ order s ∧ s.Spent compare_ order n p) →
      e.keeps p → Step compare_ s e t →
      ∃ order, Standing compare_ order t ∧ t.Spent compare_ order (n + (e.steps p).toNat) p :=
    fun _ _ _ _ here keeps step => here.elim fun _ both => stepSpends lawful both.1 both.2 keeps step
  exact Machine.countedRun forward ⟨order,all,spent⟩ keeps run

theorem runStanding (lawful : ThreeWay.Lawful compare_) {es : List (Event Key ι)} (all : Standing compare_ order s)
    (run : Machine.Run (Step compare_) s es t) : ∃ order', Standing compare_ order' t := by
  induction run generalizing order with
  | nil => exact ⟨order,all⟩
  | cons head tail ih =>
    obtain ⟨_,next,_⟩ := stepStanding lawful all head
    exact ih next

omit [DecidableEq ι] in
theorem spentBound {p : Option ι} {n : Nat} (all : Standing compare_ order s) (spent : s.Spent compare_ order n p) :
    n ≤ 4*s_max_height_ + order.length + 4 := by
  cases p with
  | none => exact writerSpentBound all.steady all.writer spent
  | some i =>
    have bound := callerSpentBound spent
    omega

/- A call of thread p has not returned. -/
def Busy (s : Callers Key ι) : Option ι → Prop
  | none => s.writer ≠ .idle
  | some i => (s.callers i).phase ≠ .idle

omit [DecidableEq ι] in
theorem busySpent (lawful : ThreeWay.Lawful compare_) {p : Option ι} (all : Standing compare_ order s)
    (busy : s.Busy p) : s.Spent compare_ order 0 p := by
  cases p with
  | none => exact writerBegun all.steady all.writer busy
  | some i => exact callerBegun lawful all.steady.linked (all.callers i) busy

/- A thread can make its next step, and no step of a thread with a call allocates
more than the writer's call was yet to. -/
theorem threadMoves (lawful : ThreeWay.Lawful compare_) (all : Standing compare_ order s) (p : Option ι) :
    ∃ e t, Step compare_ s e t ∧ e.steps p = true ∧
      t.list.nodes.length + t.writer.allocates ≤ s.list.nodes.length + s.writer.allocates := by
  cases p with
  | none =>
    obtain ⟨_,_,_,run,_⟩ := writerMoves lawful all.steady all.writer
    exact ⟨_,_,.write run,by simp [Event.steps],stepAllocates run⟩
  | some i =>
    obtain ⟨_,_,_,_,moved⟩ := readerSteps lawful all i
    exact ⟨_,_,.read moved.run,by simp [Event.steps],Nat.le_refl _⟩

/- Thread p is n steps into a call, and the list has no more than so many nodes once
the writer's call is done. -/
def SpentWithin (compare_ : Key → Key → Int) (room : Nat) (p : Option ι) (s : Callers Key ι) (n : Nat) : Prop :=
  ∃ order, Standing compare_ order s ∧ s.Spent compare_ order n p ∧
    s.list.nodes.length + s.writer.allocates ≤ room

/- A thread that nobody interrupts ends its call. -/
theorem threadEnds (lawful : ThreeWay.Lawful compare_) {p : Option ι} (all : Standing compare_ order s)
    (busy : s.Busy p) :
    ∃ es e t, Machine.Run (Step compare_) s (es ++ [e]) t ∧ (∀ d ∈ es ++ [e], d.steps p = true) ∧ ¬ e.keeps p := by
  let room := s.list.nodes.length + s.writer.allocates
  have moves : ∀ (t : Callers Key ι) n, SpentWithin compare_ room p t n →
      ∃ e u, Step compare_ t e u ∧ e.steps p = true ∧ (¬ e.keeps p ∨ SpentWithin compare_ room p u (n+1)) := by
    intro t n here
    obtain ⟨order,all,spent,within⟩ := here
    obtain ⟨e,u,step,own,less⟩ := threadMoves lawful all p
    refine ⟨e,u,step,own,?_⟩
    by_cases keeps : e.keeps p
    · obtain ⟨order',all',next⟩ := stepSpends lawful all spent keeps step
      rw [own] at next
      exact .inr ⟨order',all',next,Nat.le_trans less within⟩
    · exact .inl keeps
  have bounded : ∀ (t : Callers Key ι) n, SpentWithin compare_ room p t n → n ≤ 4*s_max_height_ + room + 4 := by
    intro t n here
    obtain ⟨order,all,spent,within⟩ := here
    have bound := spentBound all spent
    have short := orderShort lawful all.steady.linked
    omega
  exact Machine.boundedEnds moves bounded ⟨order,all,busySpent lawful all busy,Nat.le_refl _⟩

/- What holds of a state and of all runs on from it: a thread that is let run ends
its call, and however the threads take turns its call is bounded. -/
structure Progresses (compare_ : Key → Key → Int) (began : Callers Key ι) : Prop where
  ends : ∀ p, began.Busy p → ∃ es e t, Machine.Run (Step compare_) began (es ++ [e]) t ∧
    (∀ d ∈ es ++ [e], d.steps p = true) ∧ ¬ e.keeps p
  inserts : ∀ op es s, Machine.Run (Step compare_) began (.insert op::es) s → (∀ e ∈ es, e.keeps none) →
    es.countP (Event.steps none) < 4*s_max_height_ + 4 + s.list.nodes.length
  reads : ∀ i q es s, Machine.Run (Step compare_) began (.call i q::es) s → (∀ e ∈ es, e.keeps (some i)) →
    es.countP (Event.steps (some i)) < s_max_height_ + s.list.nodes.length

theorem standingProgresses (lawful : ThreeWay.Lawful compare_) {began : Callers Key ι}
    (all : Standing compare_ order began) : Progresses compare_ began := by
  refine ⟨fun p => threadEnds lawful all,?_,?_⟩
  · intro op es s run keeps
    cases run with
    | cons head tail =>
      obtain ⟨_,all',_⟩ := stepStanding lawful all head
      cases head with
      | insert idle =>
        obtain ⟨_,last,spent⟩ := runSpends (p := none) (n := 0) lawful all' rfl keeps tail
        have bound := writerSpentBound last.steady last.writer spent
        have short := orderShort lawful last.steady.linked
        omega
  · intro i q es s run keeps
    cases run with
    | cons head tail =>
      obtain ⟨order',all',_⟩ := stepStanding lawful all head
      cases head with
      | call idle valid =>
        have start : (began.set i {began.callers i with phase := .begin q}).Spent compare_ order' 0 (some i) := by
          simp [Spent,Callers.set,Caller.Spent]
        obtain ⟨_,last,spent⟩ := runSpends lawful all' start keeps tail
        have bound := callerSpentBound spent
        have short := orderShort lawful last.steady.linked
        omega

end Callers

/-- Every call ends, in any interleaving of one writer and any number of readers. From
every state a thread that has called can end its call by steps of its own. A call of
contains or of the iterator that has not returned has made fewer steps than there are
levels and nodes, and an insert a fixed number more: no reader goes on for ever, unless
nodes are inserted before it without end. -/
theorem callsEnd [DecidableEq ι] (lawful : ThreeWay.Lawful compare_) (zero : Key) :
    ∃ s0 : Callers Key ι, Callers.new zero = .ok s0 ∧
      ∀ es began, Machine.Run (Callers.Step compare_) s0 es began → Callers.Progresses compare_ began := by
  obtain ⟨m,start,rep⟩ := newRepresents compare_ zero
  let s0 : Callers Key ι := ⟨m,.idle,fun _ => ⟨.idle,Iterator.new⟩⟩
  have fresh : Callers.new zero = .ok s0 := by
    simp only [Callers.new,start,bind,Except.bind]
    rfl
  have all : Callers.Standing compare_ [] s0 :=
    ⟨representsSteady rep,rep,fun _ => idleCaller _,fun _ => ⟨none,.inl ⟨rfl,rfl⟩⟩⟩
  refine ⟨s0,fresh,?_⟩
  intro es began run
  obtain ⟨_,here⟩ := Callers.runStanding lawful all run
  exact Callers.standingProgresses lawful here

theorem callsEndInt : ∃ s0 began, Callers.new (0 : Int) = .ok s0 ∧
    Machine.Run (Callers.Step (fun a b => a - b)) s0 (overlapping ++ [.call (0 : Nat) .next]) began ∧
    began.Busy (some 0) ∧ Callers.Progresses (fun a b => a - b) began := by
  obtain ⟨s0,start,runs⟩ := callsEnd (ι := Nat) ThreeWay.differenceLawful 0
  obtain ⟨s1,start',s,run,shows⟩ := overlappingRuns
  cases Except.ok.inj (start.symm.trans start')
  have idle : (s.callers 0).phase = .idle := by rw [shows]
  have valid : (s.callers 0).it.valid = true := by rw [shows]; rfl
  have longer := Machine.runSnoc run (.call (q := .next) idle (fun _ => valid))
  exact ⟨s0,_,start,longer,by simp [Callers.Busy,Callers.set],runs _ _ longer⟩

end KVStorage.SkipList
