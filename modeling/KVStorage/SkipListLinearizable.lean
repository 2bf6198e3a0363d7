import KVStorage.SkipListAcquire
import KVStorage.SkipListCalls

/-! The list is linearizable: an insertion takes effect where the writer links its
node on level 0, any other call where it makes its last load. -/
namespace KVStorage.SkipList

open Support

variable {Key ι : Type} {compare_ : Key → Key → Int}
variable {m m' : SkipList Key} {order : List (Entry Key)}

theorem linkedKeysOf (linked : Linked compare_ m order) : m.linkedKeys = keysOf (level order 0) := by
  ext k
  constructor
  · intro mem
    obtain ⟨x,holds⟩ := mem
    obtain ⟨e,he,tall,_,key⟩ := (holdsIff linked).mp holds
    exact ⟨e,memLevel.mpr ⟨he,tall⟩,key⟩
  · intro mem
    obtain ⟨e,he,key⟩ := mem
    obtain ⟨inside,tall⟩ := memLevel.mp he
    exact ⟨e.ptr,(holdsIff linked).mpr ⟨e,inside,tall,rfl,key⟩⟩

theorem keysSame {a b : List (Entry Key)} {x : Ptr} {key : Key} :
    keysOf (level (a ++ ⟨x,key,0⟩::b) 0) = keysOf (level (a ++ b) 0) := by
  simp [levelAppend,levelCons]

theorem keysMore {a b : List (Entry Key)} {x : Ptr} {key : Key} (n : Nat) :
    keysOf (level (a ++ ⟨x,key,n+1⟩::b) 0) = Insert.insert key (keysOf (level (a ++ b) 0)) := by
  ext k
  simp only [keysOf,levelAppend,levelCons,Nat.zero_lt_succ,if_true,Set.mem_ofPred_eq,Set.mem_insert_iff,memSplice]
  constructor
  · intro entry
    obtain ⟨e,rfl | mem,eq⟩ := entry
    · exact .inl eq.symm
    · exact .inr ⟨e,mem,eq⟩
  · intro entry
    rcases entry with rfl | ⟨e,mem,eq⟩
    · exact ⟨_,.inl rfl,rfl⟩
    · exact ⟨e,.inr mem,eq⟩

theorem apartInSplice (lawful : ThreeWay.Lawful compare_) {a b : List (Entry Key)} {d e : Entry Key}
    (sorted : (a ++ d::b).Pairwise (fun a b => compare_ a.key b.key < 0)) (mem : e ∈ a ++ b) :
    compare_ d.key e.key ≠ 0 := by
  obtain ⟨_,later,across⟩ := List.pairwise_append.mp sorted
  rcases List.mem_append.mp mem with before | after
  · have less := lawful.negIff.mp (across e before d List.mem_cons_self)
    exact Int.ne_of_gt less
  · exact Int.ne_of_lt ((List.pairwise_cons.mp later).1 e after)

theorem storePrevLinks (lawful : ThreeWay.Lawful compare_) {w' : Writer Key} {op : Insertion Key} {prev : Prev}
    {x : Ptr} {i : Nat} {a b : List (Entry Key)} (steady : Steady compare_ m order)
    (linking : Linking m order a b op prev x i) (out : m.link i x (chain b i).head?)
    (run : (Writer.storePrev op prev x i).step compare_ m = .ok (m',w')) :
    Linked compare_ m' (a ++ ⟨x,op.key,i+1⟩::b) := by
  have linked := steady.linked
  rw [linking.place] at linked
  have low := heightLow linked (e := ⟨x,op.key,i⟩) (by simp) linking.shape
  obtain ⟨m1,store,_,linked'⟩ := predecessorStores lawful linked rfl linking.shape linking.level
    (Nat.lt_of_lt_of_le linking.level low) out
  simp only [Writer.step,linking.reads i linking.level,store,bind,Except.bind] at run
  cases Except.ok.inj run
  exact linked'

/- Only the store that links a node on level 0 changes the keys, by a key that is
not among them. -/
theorem writerLinks (lawful : ThreeWay.Lawful compare_) {w w' : Writer Key} (steady : Steady compare_ m order)
    (here : WriterAt compare_ m order w) (run : w.step compare_ m = .ok (m',w')) :
    (w.links = none ∧ m'.linkedKeys = m.linkedKeys) ∨
    (∃ op, w.links = some op ∧ m'.linkedKeys = Insert.insert op.key m.linkedKeys ∧
      ∀ k ∈ m.linkedKeys, compare_ op.key k ≠ 0) := by
  cases w with
  | idle | begin | find | compareHeight | fillPrev | loadNext =>
    exact .inl ⟨rfl,by rw [stepStores run rfl]⟩
  | storeMaxHeight op prev =>
    cases Except.ok.inj run
    have linked : Linked compare_ {m with max_height_ := op.height} order := linkedSameNodes steady.linked rfl
    exact .inl ⟨rfl,(linkedKeysOf linked).trans (linkedKeysOf steady.linked).symm⟩
  | newNode op prev =>
    cases Except.ok.inj run
    have accepted := here.2.1
    have linked := allocated lawful steady.linked accepted.fresh op.height accepted.low
    have keys := linkedKeysOf linked
    rw [keysSame,← orderSplits lawful steady.linked op.key] at keys
    exact .inl ⟨rfl,keys.trans (linkedKeysOf steady.linked).symm⟩
  | storeOwn op prev x i after =>
    obtain ⟨a,b,linking,_⟩ := here
    have linked := steady.linked
    rw [linking.place] at linked
    obtain ⟨m1,store,_,linked'⟩ := ownStores lawful linked rfl linking.shape linking.level after
    simp only [Writer.step,store,bind,Except.bind] at run
    cases Except.ok.inj run
    exact .inl ⟨rfl,by rw [linkedKeysOf linked,linkedKeysOf linked']⟩
  | storePrev op prev x i =>
    obtain ⟨a,b,linking,out⟩ := here
    have linked' := storePrevLinks lawful steady linking out run
    have place := linking.place
    cases i with
    | zero =>
      refine .inr ⟨op,rfl,?_,?_⟩
      · rw [linkedKeysOf steady.linked,linkedKeysOf linked',place,keysSame,keysMore]
      · intro k mem
        rw [linkedKeysOf steady.linked,place,keysSame] at mem
        obtain ⟨e,he,rfl⟩ := mem
        have sorted := steady.linked.sorted
        rw [place] at sorted
        exact apartInSplice lawful sorted (memLevel.mp he).1
    | succ i =>
      refine .inl ⟨rfl,?_⟩
      rw [linkedKeysOf steady.linked,linkedKeysOf linked',place,keysMore,keysMore]

/- How far the writer's call is, for the atomic machine. -/
def Writer.pending : Writer Key → Linearizable.Phase (Request Key) (Answer Key)
  | .idle => .idle
  | .begin op | .find op _ | .compareHeight op _ | .fillPrev op _ | .storeMaxHeight op _ | .newNode op _ =>
    .called (.insert op)
  | .loadNext op _ _ i | .storeOwn op _ _ i _ | .storePrev op _ _ i =>
    if i = 0 then .called (.insert op) else .done .inserted

theorem linkFromPending (op : Insertion Key) (prev : Prev) (x : Ptr) (i : Nat) :
    (i < op.height ∧ linkFrom op prev x i = .loadNext op prev x i) ∨
    (op.height ≤ i ∧ linkFrom op prev x i = .idle) := by
  by_cases more : i < op.height
  · exact .inl ⟨more,if_pos more⟩
  · exact .inr ⟨Nat.not_lt.mp more,if_neg more⟩

/- The steps that link nothing on level 0 end no call but one that has taken effect. -/
theorem quietPending {w w' : Writer Key} (here : WriterAt compare_ m order w) (run : w.step compare_ m = .ok (m',w'))
    (quiet : w.links = none) : (w.returns w' = false ∧ w'.pending = w.pending) ∨
      (w.returns w' = true ∧ w.pending = .done .inserted ∧ w' = .idle) := by
  cases w with
  | idle | begin | storeMaxHeight =>
    cases Except.ok.inj run
    exact .inl ⟨rfl,rfl⟩
  | find op s =>
    obtain ⟨round,_,rest⟩ := Machine.okBind run
    cases round with
    | again t =>
      cases Except.ok.inj rest
      exact .inl ⟨rfl,rfl⟩
    | done f =>
      obtain ⟨_,_,last⟩ := Machine.okBind rest
      cases Except.ok.inj last
      exact .inl ⟨rfl,rfl⟩
  | compareHeight op prev =>
    simp only [Writer.step] at run
    split at run <;> cases Except.ok.inj run <;> exact .inl ⟨rfl,rfl⟩
  | fillPrev op prev =>
    obtain ⟨_,_,last⟩ := Machine.okBind run
    cases Except.ok.inj last
    exact .inl ⟨rfl,rfl⟩
  | newNode op prev =>
    have one : 0 < op.height := here.2.1.one
    cases Except.ok.inj run
    rw [linkFrom,if_pos one]
    exact .inl ⟨rfl,rfl⟩
  | loadNext op prev x i =>
    obtain ⟨_,_,rest⟩ := Machine.okBind run
    obtain ⟨_,_,last⟩ := Machine.okBind rest
    cases Except.ok.inj last
    exact .inl ⟨rfl,rfl⟩
  | storeOwn op prev x i after =>
    obtain ⟨_,_,last⟩ := Machine.okBind run
    cases Except.ok.inj last
    exact .inl ⟨rfl,rfl⟩
  | storePrev op prev x i =>
    cases i with
    | zero => contradiction
    | succ i =>
      obtain ⟨_,_,rest⟩ := Machine.okBind run
      obtain ⟨_,_,last⟩ := Machine.okBind rest
      cases Except.ok.inj last
      rcases linkFromPending op prev x (i+1+1) with ⟨_,more⟩ | ⟨_,stop⟩
      · rw [more]
        exact .inl ⟨rfl,rfl⟩
      · rw [stop]
        exact .inr ⟨rfl,rfl,rfl⟩

theorem linksPending {w w' : Writer Key} {op : Insertion Key} (run : w.step compare_ m = .ok (m',w'))
    (links : w.links = some op) : w.pending = .called (.insert op) ∧
      ((w.returns w' = false ∧ w'.pending = .done .inserted) ∨ (w.returns w' = true ∧ w' = .idle)) := by
  cases w with
  | storePrev op' prev x i =>
    cases i with
    | succ i => contradiction
    | zero =>
      cases Option.some.inj links
      obtain ⟨_,_,rest⟩ := Machine.okBind run
      obtain ⟨_,_,last⟩ := Machine.okBind rest
      cases Except.ok.inj last
      rcases linkFromPending op prev x (0+1) with ⟨_,more⟩ | ⟨_,stop⟩
      · rw [more]
        exact ⟨rfl,.inl ⟨rfl,rfl⟩⟩
      · rw [stop]
        exact ⟨rfl,.inr ⟨rfl,rfl⟩⟩
  | _ => contradiction

/- Where a reader can be between two of its steps. -/

def Wanted.passes (compare_ : Key → Key → Int) : Wanted Key → Key → Bool
  | .contains key | .seek key | .less key => isBefore compare_ key
  | .last => fun _ => true

structure Hunting (compare_ : Key → Key → Int) (order : List (Entry Key)) (w : Wanted Key) (s : Search) : Prop where
  stands : Stands order (w.passes compare_) s.level s.x
  low : s.level < s_max_height_
  bare : s.prev = none

structure CallerAt (compare_ : Key → Key → Int) (order : List (Entry Key)) (c : Caller Key) : Prop where
  valid : c.phase = .begin .next ∨ c.phase = .begin .prev → c.it.valid = true
  search : ∀ w s, c.phase = .search w s → Hunting compare_ order w s
  less : ∀ key s, c.phase = .search (.less key) s → ∃ e ∈ order, 0 < e.linked ∧ c.it.node_ = some e.ptr ∧ e.key = key

def Caller.pending (c : Caller Key) : Linearizable.Phase (Request Key) (Answer Key) :=
  match c.phase with
  | .idle => .idle
  | .begin q => .called (.ask q)
  | .search w _ => .called (.ask w.ask)

theorem pendingAsked {c : Caller Key} {q : Ask Key} (pending : c.pending = .called (.ask q)) : c.asked = some q := by
  obtain ⟨phase,it⟩ := c
  cases phase with
  | idle => cases pending
  | begin q' | search w s =>
    cases pending
    rfl

theorem wantedGuided (lawful : ThreeWay.Lawful compare_) (linked : Linked compare_ m order) (w : Wanted Key) :
    Guided order (w.passes compare_) compare_ (w.check compare_ m) (w.right compare_ m) := by
  cases w with
  | contains key | seek key => exact keyGuided lawful linked key
  | less key => exact lessGuided lawful linked key
  | last => exact lastGuided order

theorem huntingSearching (lawful : ThreeWay.Lawful compare_) (linked : Linked compare_ m order) {w : Wanted Key}
    {s : Search} (hunting : Hunting compare_ order w s) :
    ∃ n, Searching order (w.passes compare_) s_max_height_ none n s := by
  obtain ⟨done,rest,here⟩ := standsAt linked (wantedGuided lawful linked w).closed hunting.stands
  exact ⟨_,hunting.low,by simp [hunting.bare],by simp [hunting.bare],done,rest,here,rfl⟩

/- One round of a search that notes no predecessors. -/
theorem huntMoves (lawful : ThreeWay.Lawful compare_) (linked : Linked compare_ m order) {w : Wanted Key} {s : Search}
    (hunting : Hunting compare_ order w s) :
    (∃ t, m.searchRound (w.check compare_ m) (w.right compare_ m) s = .ok (.again t) ∧
      Hunting compare_ order w t) ∨
    (∃ f, m.searchRound (w.check compare_ m) (w.right compare_ m) s = .ok (.done f) ∧
      f.x = predecessor order (w.passes compare_) 0 ∧ f.next = successor order (w.passes compare_) 0) := by
  obtain ⟨_,state⟩ := huntingSearching lawful linked hunting
  rcases searchRoundTotal linked (wantedGuided lawful linked w) (Nat.le_refl _) state with
    ⟨t,k,run,_,next⟩ | ⟨f,run,found⟩
  · obtain ⟨_,_,there,_⟩ := next.here
    exact .inl ⟨t,run,atStands there,next.below,by simpa using next.same⟩
  · exact .inr ⟨f,run,found.x,found.next⟩

theorem standsGrows {order' : List (Entry Key)} {p : Key → Bool} {i : Nat} {x : Ptr} (grows : Grows order order')
    (stands : Stands order p i x) : Stands order' p i x := by
  rcases stands with head | ⟨e,mem,ptr,tall,passes⟩
  · exact .inl head
  · obtain ⟨d,hd,ptr',key,le⟩ := grows e mem
    exact .inr ⟨d,hd,ptr'.trans ptr,Nat.lt_of_lt_of_le tall le,key ▸ passes⟩

theorem callerGrows {order' : List (Entry Key)} {c : Caller Key} (grows : Grows order order')
    (here : CallerAt compare_ order c) : CallerAt compare_ order' c := by
  refine ⟨here.valid,?_,?_⟩
  · intro w s at_
    have hunting := here.search w s at_
    exact ⟨standsGrows grows hunting.stands,hunting.low,hunting.bare⟩
  · intro key s at_
    obtain ⟨e,mem,tall,node,same⟩ := here.less key s at_
    obtain ⟨d,hd,ptr,key',le⟩ := grows e mem
    exact ⟨d,hd,Nat.lt_of_lt_of_le tall le,by rw [node,ptr],key'.trans same⟩

theorem placedGrows {order' : List (Entry Key)} {it : Iterator} {position : Option Key} (grows : Grows order order')
    (placed : Placed (level order 0) it position) : Placed (level order' 0) it position := by
  rcases placed with none | ⟨e,mem,node,key⟩
  · exact .inl none
  · obtain ⟨inside,tall⟩ := memLevel.mp mem
    obtain ⟨d,hd,ptr,key',le⟩ := grows e inside
    exact .inr ⟨d,memLevel.mpr ⟨hd,Nat.lt_of_lt_of_le tall le⟩,by rw [node,ptr],by rw [key,key']⟩

/- Answers. -/

variable [DecidableEq ι] {a : OrderedCursor.State Key ι} {i : ι}

/- What a step of a reader does, for an atomic object that has the list's keys. -/
structure CallerMoved (compare_ : Key → Key → Int) (m : SkipList Key) (order : List (Entry Key))
    (a : OrderedCursor.State Key ι) (i : ι) (c c' : Caller Key) (back : Option (Answer Key)) : Prop where
  run : c.step compare_ m = .ok (c',back)
  here : CallerAt compare_ order c'
  silent : back = none → c'.it = c.it ∧ c'.pending = c.pending
  takes : ∀ r, back = some r → c'.phase = .idle ∧ ∃ q position, c.pending = .called (.ask q) ∧
    Takes compare_ a (some i,.ask q,r) (a.place i position) ∧ Placed (level order 0) c'.it position

theorem idleCaller (it : Iterator) : CallerAt compare_ order ⟨.idle,it⟩ := ⟨by simp,by simp,by simp⟩

theorem calledAt {c : Caller Key} {q : Ask Key} (valid : q = .next ∨ q = .prev → c.it.valid = true) :
    CallerAt compare_ order {c with phase := .begin q} := by
  refine ⟨?_,by simp,by simp⟩
  intro moves
  exact valid (moves.imp (fun eq => by cases eq; rfl) (fun eq => by cases eq; rfl))

theorem endsShows (linked : Linked compare_ m order) {it : Iterator} {position : Option Key}
    (placed : Placed (level order 0) it position) :
    Caller.ends m it = .ok (⟨.idle,it⟩,some (.shows position)) := by
  have inOrder : Placed order it position := by
    rcases placed with none | ⟨e,mem,here⟩
    · exact .inl none
    · exact .inr ⟨e,(memLevel.mp mem).1,here⟩
  obtain ⟨valid,_,key⟩ := placedShows linked inOrder
  cases position with
  | none =>
    have off : ¬ it.valid = true := by simp [valid]
    simp only [Caller.ends,if_neg off]
  | some k =>
    have on : it.valid = true := by simp [valid]
    simp only [Caller.ends,if_pos on,(key k rfl).1,bind,Except.bind]

/- A call that moves its iterator ends on the cursor's new place. -/
theorem endsMoved {c : Caller Key} {it : Iterator} {q : Ask Key} {call : OrderedCursor.Call Key ι}
    {position : Option Key}
    (linked : Linked compare_ m order) (run : c.step compare_ m = Caller.ends m it)
    (called : c.pending = .called (.ask q)) (cursor : q.cursor i = some call)
    (move : OrderedCursor.Step compare_ a call (a.place i position)) (placed : Placed (level order 0) it position) :
    CallerMoved compare_ m order a i c ⟨.idle,it⟩ (some (.shows position)) := by
  have takes : Takes compare_ a (some i,.ask q,.shows position) (a.place i position) := by
    have here : (a.place i position).position i = position := Function.update_self ..
    have step := Takes.move cursor move
    rwa [here] at step
  refine ⟨run.trans (endsShows linked placed),idleCaller it,by simp,?_⟩
  intro r eq
  cases Option.some.inj eq
  exact ⟨rfl,q,position,called,takes,placed⟩

theorem startsMoved {c : Caller Key} {w : Wanted Key} (steady : Steady compare_ m order)
    (run : c.step compare_ m = .ok (c.starts m w,none)) (called : c.pending = .called (.ask w.ask))
    (less : ∀ key, w = .less key → ∃ e ∈ order, 0 < e.linked ∧ c.it.node_ = some e.ptr ∧ e.key = key) :
    CallerMoved compare_ m order a i c (c.starts m w) none := by
  have height := steady.height
  have low : m.getMaxHeight-1 < s_max_height_ := by
    simp only [getMaxHeight]
    omega
  refine ⟨run,⟨by simp [Caller.starts],?_,?_⟩,fun _ => ⟨rfl,called.symm⟩,by simp⟩
  · intro w' s at_
    cases at_
    exact ⟨.inl rfl,low,rfl⟩
  · intro key s at_
    cases at_
    exact less key rfl

theorem lastPlaced {part : List (Entry Key)} (linked : Linked compare_ m order) (sub : part ⊆ level order 0) :
    Placed (level order 0) (Iterator.hideHead ((part.map Entry.ptr).getLastD head_)) (part.getLast?.map Entry.key) := by
  cases last : part.getLast? with
  | none =>
    cases List.getLast?_eq_none_iff.mp last
    exact .inl ⟨rfl,rfl⟩
  | some e =>
    have mem : e ∈ level order 0 := sub (List.mem_of_getLast? last)
    have shown : Iterator.hideHead e.ptr = ⟨some e.ptr⟩ := if_neg (linked.apart e (memLevel.mp mem).1)
    have ptr : (part.map Entry.ptr).getLastD head_ = e.ptr := by
      rw [List.getLastD_eq_getLast?,List.getLast?_map,last]
      rfl
    exact .inr ⟨e,mem,by rw [ptr,shown],rfl⟩

theorem levelSorted (linked : Linked compare_ m order) (i : Nat) :
    (level order i).Pairwise (fun a b => compare_ a.key b.key < 0) := linked.sorted.filter _

/- The node after those with p is the least key without it, the node before the
others the greatest key with it. -/
theorem successorLeast (lawful : ThreeWay.Lawful compare_) (linked : Linked compare_ m order) {p : Key → Bool}
    {q : Key → Prop} (same : ∀ k, p k = false ↔ q k) :
    ∃ position, Placed (level order 0) ⟨successor order p 0⟩ position ∧
      OrderedCursor.Least compare_ (keysOf (level order 0)) q position := by
  have least := OrderedCursor.leastOfFilter (q := fun e : Entry Key => !p e.key) (p := q) lawful.self
    (levelSorted linked 0) (fun e _ => by simpa using same e.key)
  have sub : (level order 0).filter (fun e => !p e.key) ⊆ level order 0 := List.filter_subset_self ..
  have placed := placedHead sub
  rw [← List.head?_map] at placed
  exact ⟨_,by simpa [successor] using placed,least⟩

theorem predecessorGreatest (lawful : ThreeWay.Lawful compare_) (linked : Linked compare_ m order) {p : Key → Bool}
    {q : Key → Prop} (same : ∀ k, p k = true ↔ q k) :
    ∃ position, Placed (level order 0) (Iterator.hideHead (predecessor order p 0)) position ∧
      OrderedCursor.Greatest compare_ (keysOf (level order 0)) q position :=
  ⟨_,lastPlaced linked (List.filter_subset_self ..),
    OrderedCursor.greatestOfFilter lawful.self (levelSorted linked 0) (fun e _ => same e.key)⟩

theorem firstIs (linked : Linked compare_ m order) : m.next head_ 0 = .ok (successor order (fun _ => false) 0) := by
  have spells := linked.chains 0 (by decide)
  have next := Chain.successor (a := []) spells
  have all : successor order (fun _ => false) 0 = (chain order 0).head? := by
    simp [successor,chain]
  rw [all]
  exact next

theorem placedNode {it : Iterator} {position : Option Key} (placed : Placed (level order 0) it position)
    (valid : it.valid = true) : ∃ e ∈ order, 0 < e.linked ∧ it.node_ = some e.ptr ∧ position = some e.key := by
  rcases placed with ⟨none,_⟩ | ⟨e,mem,node,key⟩
  · simp [Iterator.valid,none] at valid
  · exact ⟨e,(memLevel.mp mem).1,(memLevel.mp mem).2,node,key⟩

theorem placedKey {it : Iterator} {position : Option Key} {e : Entry Key} (linked : Linked compare_ m order)
    (placed : Placed (level order 0) it position) (mem : e ∈ order) (node : it.node_ = some e.ptr) :
    position = some e.key := by
  rcases placed with ⟨none,_⟩ | ⟨d,inside,there,key⟩
  · rw [none] at node
    contradiction
  · obtain ⟨_,se,_⟩ := linked.shaped e mem
    obtain ⟨_,sd,_⟩ := linked.shaped d (memLevel.mp inside).1
    have ptr : d.ptr = e.ptr := Option.some.inj (there.symm.trans node)
    rw [ptr,se] at sd
    have keys : e.key = d.key := congrArg Prod.fst (Option.some.inj sd)
    rw [key,keys]

section Moves

variable (lawful : ThreeWay.Lawful compare_) {it : Iterator}

include lawful in
theorem nextCalls (linked : Linked compare_ m order) (keys : a.keys = keysOf (level order 0))
    (placed : Placed (level order 0) it (a.position i)) (valid : it.valid = true) :
    ∃ c' back, CallerMoved compare_ m order a i ⟨.begin .next,it⟩ c' back := by
  obtain ⟨e,mem,tall,node,position⟩ := placedNode placed valid
  have load := nextIs lawful linked mem tall (by decide)
  have same : ∀ k, decide (compare_ k e.key ≤ 0) = false ↔ compare_ e.key k < 0 := by
    intro k
    have flip := lawful.negIff (a := e.key) (b := k)
    simp only [decide_eq_false_iff_not,Int.not_le]
    omega
  obtain ⟨r,there,least⟩ := successorLeast lawful linked same
  rw [← keys] at least
  have run : (⟨.begin .next,it⟩ : Caller Key).step compare_ m =
      Caller.ends m ⟨successor order (fun k => decide (compare_ k e.key ≤ 0)) 0⟩ := by
    simp only [Caller.step,Caller.begins,Iterator.next,node,load,bind,Except.bind]
  exact ⟨_,_,endsMoved linked run rfl rfl (.next position least) there⟩

include lawful in
theorem firstCalls (linked : Linked compare_ m order) (keys : a.keys = keysOf (level order 0)) :
    ∃ c' back, CallerMoved compare_ m order a i ⟨.begin .seekToFirst,it⟩ c' back := by
  have load := firstIs linked
  obtain ⟨r,there,least⟩ := successorLeast lawful linked (p := fun _ => false) (q := fun _ => True) (by simp)
  rw [← keys] at least
  have run : (⟨.begin .seekToFirst,it⟩ : Caller Key).step compare_ m =
      Caller.ends m ⟨successor order (fun _ => false) 0⟩ := by
    simp only [Caller.step,Caller.begins,Iterator.seekToFirst,load,bind,Except.bind]
  exact ⟨_,_,endsMoved linked run rfl rfl (.seekToFirst least) there⟩

theorem prevCalls (steady : Steady compare_ m order) (placed : Placed (level order 0) it (a.position i))
    (valid : it.valid = true) : ∃ c' back, CallerMoved compare_ m order a i ⟨.begin .prev,it⟩ c' back := by
  obtain ⟨e,mem,tall,here,_⟩ := placedNode placed valid
  obtain ⟨h,shape,_⟩ := steady.linked.shaped e mem
  obtain ⟨n,found,same,_⟩ := nodeOfShape shape
  have run : (⟨.begin .prev,it⟩ : Caller Key).step compare_ m =
      .ok ((⟨.begin .prev,it⟩ : Caller Key).starts m (.less e.key),none) := by
    simp only [Caller.step,Caller.begins,here,found,same,bind,Except.bind]
  refine ⟨_,_,startsMoved steady run rfl ?_⟩
  intro key eq
  cases eq
  exact ⟨e,mem,tall,here,rfl⟩

include lawful in
theorem containsFound {key : Key} {s : Search} {f : Found} (linked : Linked compare_ m order)
    (keys : a.keys = keysOf (level order 0)) (placed : Placed (level order 0) it (a.position i))
    (run : (⟨.search (.contains key) s,it⟩ : Caller Key).step compare_ m =
      Caller.found compare_ m ⟨.search (.contains key) s,it⟩ f (.contains key))
    (next : f.next = successor order (isBefore compare_ key) 0) :
    ∃ c' back, CallerMoved compare_ m order a i ⟨.search (.contains key) s,it⟩ c' back := by
  obtain ⟨yes,test,yesKeys,noKeys⟩ := isEqualAnswers lawful linked key
  have same : yes = true ↔ ∃ k ∈ a.keys, compare_ key k = 0 := by
    rw [keys,← linkedKeysOf linked]
    refine ⟨yesKeys,?_⟩
    intro there
    obtain ⟨k,mem,zero⟩ := there
    by_contra off
    exact noKeys (Bool.not_eq_true _ ▸ off) k mem zero
  have ends : (⟨.search (.contains key) s,it⟩ : Caller Key).step compare_ m = .ok (⟨.idle,it⟩,some (.found yes)) := by
    rw [run]
    simp only [Caller.found,next,test,bind,Except.bind]
  have still : a.place i (a.position i) = a := by
    rw [OrderedCursor.State.place,Function.update_eq_self]
  refine ⟨_,_,ends,idleCaller it,by simp,?_⟩
  intro r eq
  cases Option.some.inj eq
  exact ⟨rfl,_,a.position i,rfl,by rw [still]; exact .contains same,placed⟩

include lawful in
theorem searchCalls {w : Wanted Key} {s : Search} (linked : Linked compare_ m order)
    (keys : a.keys = keysOf (level order 0)) (placed : Placed (level order 0) it (a.position i))
    (here : CallerAt compare_ order ⟨.search w s,it⟩) :
    ∃ c' back, CallerMoved compare_ m order a i ⟨.search w s,it⟩ c' back := by
  rcases huntMoves lawful linked (here.search w s rfl) with ⟨t,round,hunting⟩ | ⟨f,round,x,next⟩
  · have run : (⟨.search w s,it⟩ : Caller Key).step compare_ m = .ok (⟨.search w t,it⟩,none) := by
      simp only [Caller.step,round,bind,Except.bind]
    refine ⟨_,_,run,⟨by simp,?_,?_⟩,fun _ => ⟨rfl,rfl⟩,by simp⟩
    · intro w' s' at_
      cases at_
      exact hunting
    · intro key s' at_
      cases at_
      exact here.less key s rfl
  · have run : (⟨.search w s,it⟩ : Caller Key).step compare_ m = Caller.found compare_ m ⟨.search w s,it⟩ f w := by
      simp only [Caller.step,round,bind,Except.bind]
    cases w with
    | contains key => exact containsFound lawful linked keys placed run next
    | seek target =>
      have same : ∀ k, isBefore compare_ target k = false ↔ compare_ target k ≤ 0 := by
        intro k
        have flip := lawful.nonposIff (a := target) (b := k)
        simp only [isBefore,decide_eq_false_iff_not,Int.not_lt]
        exact flip.symm
      obtain ⟨r,there,least⟩ := successorLeast lawful linked same
      rw [← keys] at least
      simp only [Wanted.passes] at next
      rw [← next] at there
      exact ⟨_,_,endsMoved linked run rfl rfl (.seek least) there⟩
    | less key =>
      obtain ⟨e,mem,tall,node,same⟩ := here.less key s rfl
      have position : a.position i = some key := same ▸ placedKey linked placed mem node
      obtain ⟨r,there,greatest⟩ := predecessorGreatest lawful linked (p := isBefore compare_ key)
        (q := fun k => compare_ k key < 0) (by simp [isBefore])
      rw [← keys] at greatest
      simp only [Wanted.passes] at x
      rw [← x] at there
      exact ⟨_,_,endsMoved linked run rfl rfl (.prev position greatest) there⟩
    | last =>
      obtain ⟨r,there,greatest⟩ := predecessorGreatest lawful linked (p := fun _ => true) (q := fun _ => True) (by simp)
      rw [← keys] at greatest
      simp only [Wanted.passes] at x
      rw [← x] at there
      exact ⟨_,_,endsMoved linked run rfl rfl (.seekToLast greatest) there⟩

include lawful in
theorem callerMoves {c : Caller Key} (steady : Steady compare_ m order) (keys : a.keys = keysOf (level order 0))
    (placed : Placed (level order 0) c.it (a.position i)) (here : CallerAt compare_ order c) :
    ∃ c' back, CallerMoved compare_ m order a i c c' back := by
  obtain ⟨phase,it⟩ := c
  cases phase with
  | idle => exact ⟨_,none,rfl,here,fun _ => ⟨rfl,rfl⟩,by simp⟩
  | begin q =>
    cases q with
    | contains key => exact ⟨_,_,startsMoved (w := .contains key) steady rfl rfl (by simp)⟩
    | seek target => exact ⟨_,_,startsMoved (w := .seek target) steady rfl rfl (by simp)⟩
    | seekToLast => exact ⟨_,_,startsMoved (w := .last) steady rfl rfl (by simp)⟩
    | seekToFirst => exact firstCalls lawful steady.linked keys
    | next => exact nextCalls lawful steady.linked keys placed (here.valid (.inl rfl))
    | prev => exact prevCalls steady placed (here.valid (.inr rfl))
  | search w s => exact searchCalls lawful steady.linked keys placed here

end Moves

/- The simulation relation. -/
structure Tracks (compare_ : Key → Key → Int) (order : List (Entry Key)) (s : Callers Key ι) (x : AtomicState Key ι) :
    Prop where
  steady : Steady compare_ s.list order
  writer : WriterAt compare_ s.list order s.writer
  callers : ∀ i, CallerAt compare_ order (s.callers i)
  keys : x.object.keys = keysOf (level order 0)
  placed : ∀ i, Placed (level order 0) (s.callers i).it (x.object.position i)
  inserting : x.phase none = s.writer.pending
  asking : ∀ i, x.phase (some i) = (s.callers i).pending

variable {s t : Callers Key ι} {x : AtomicState Key ι}

/- The effects of a step are steps of the atomic machine, and it keeps track. -/
def Matched (compare_ : Key → Key → Int) (s : Callers Key ι) (e : Callers.Event Key ι) (t : Callers Key ι)
    (x : AtomicState Key ι) : Prop :=
  ∃ y, Machine.Run (Linearizable.Step (Takes compare_)) x (s.effects e) y ∧ ∃ order, Tracks compare_ order t y

theorem matchedBy {e : Callers.Event Key ι} {y : AtomicState Key ι}
    {es : List (Linearizable.Event (Option ι) (Request Key) (Answer Key))} (effects : s.effects e = es)
    (run : Machine.Run (Linearizable.Step (Takes compare_)) x es y) (tracks : Tracks compare_ order t y) :
    Matched compare_ s e t x :=
  ⟨y,effects ▸ run,order,tracks⟩

omit [DecidableEq ι] in
theorem effectsShown (s : Callers Key ι) (e : Callers.Event Key ι) :
    (s.effects e).filterMap Linearizable.Event.mark = e.mark.toList := by
  cases e with
  | insert op | call i q => rfl
  | write back =>
    cases links : s.writer.links <;> cases back <;>
      simp [Callers.effects,links,Callers.Event.mark,Linearizable.Event.mark,List.filterMap_cons]
  | read i back =>
    cases back with
    | none => rfl
    | some r =>
      cases asked : (s.callers i).asked <;>
        simp [Callers.effects,asked,Callers.Event.mark,Linearizable.Event.mark,List.filterMap_cons]

theorem updateWriter {β : Type} (f : Option ι → β) (p : β) : Function.update f none p none = p :=
  Function.update_self ..

theorem updateReaders {β : Type} (f : Option ι → β) (p : β) (i : ι) :
    Function.update f none p (some i) = f (some i) := Function.update_of_ne (by simp) ..

theorem insertMatched (tracks : Tracks compare_ order s x) {op : Insertion Key} (idle : s.writer = .idle)
    (fresh : ∀ k ∈ s.list.linkedKeys, compare_ op.key k ≠ 0) (one : 1 ≤ op.height) (low : op.height ≤ s_max_height_) :
    Matched compare_ s (.insert op) {s with writer := .begin op} x := by
  have here := insertAccepted tracks.writer idle fresh one low
  have free : x.phase none = .idle := by rw [tracks.inserting,idle]; rfl
  refine ⟨_,.cons (.call free) (.nil _),order,tracks.steady,here,tracks.callers,tracks.keys,
    tracks.placed,?_,?_⟩
  · exact updateWriter x.phase _
  · intro i
    exact (updateReaders x.phase (.called (.insert op)) i).trans (tracks.asking i)

/- After a step of the writer: what the atomic machine has to agree on. -/
omit [DecidableEq ι] in
theorem tracksWrite {order' : List (Entry Key)} {list : SkipList Key} {writer : Writer Key} {y : AtomicState Key ι}
    (tracks : Tracks compare_ order s x) (steady : Steady compare_ list order')
    (here : WriterAt compare_ list order' writer)
    (grows : Grows order order') (keys : y.object.keys = list.linkedKeys)
    (still : y.object.position = x.object.position)
    (inserting : y.phase none = writer.pending) (asking : ∀ i, y.phase (some i) = x.phase (some i)) :
    Tracks compare_ order' {s with list,writer} y :=
  ⟨steady,here,fun i => callerGrows grows (tracks.callers i),keys.trans (linkedKeysOf steady.linked),
    fun i => still ▸ placedGrows grows (tracks.placed i),inserting,fun i => (asking i).trans (tracks.asking i)⟩

theorem writeMatched (lawful : ThreeWay.Lawful compare_) (tracks : Tracks compare_ order s x) {list : SkipList Key}
    {writer : Writer Key} (ok : s.writer.step compare_ s.list = .ok (list,writer)) :
    Matched compare_ s (.write (s.writer.returns writer)) {s with list,writer} x := by
  obtain ⟨m',w',order',run,steady,here,grows⟩ := writerMoves lawful tracks.steady tracks.writer
  cases Except.ok.inj (ok.symm.trans run)
  have before : x.object.keys = s.list.linkedKeys := tracks.keys.trans (linkedKeysOf tracks.steady.linked).symm
  rcases writerLinks lawful tracks.steady tracks.writer ok with ⟨quiet,same⟩ | ⟨op,links,more,fresh⟩
  · have keys : x.object.keys = list.linkedKeys := before.trans same.symm
    rcases quietPending tracks.writer ok quiet with ⟨stays,pending⟩ | ⟨ends,pending,rfl⟩
    · have tracks' := tracksWrite tracks steady here grows keys rfl (tracks.inserting.trans pending.symm) (fun _ => rfl)
      have silent : s.effects (.write (s.writer.returns writer)) = [] := by
        rw [stays]
        simp [Callers.effects,quiet]
      exact matchedBy silent (.nil x) tracks'
    · have done : x.phase none = .done .inserted := tracks.inserting.trans pending
      have back : s.effects (.write (s.writer.returns .idle)) = [.shown (.back none .inserted)] := by
        rw [ends]
        simp [Callers.effects,quiet]
      refine matchedBy back (.cons (.back done) (.nil _)) (tracksWrite tracks steady here grows keys rfl ?_ ?_)
      · exact updateWriter x.phase .idle
      · exact updateReaders x.phase .idle
  · have keys : Insert.insert op.key x.object.keys = list.linkedKeys := by rw [before,more]
    have takes : Takes compare_ x.object (none,.insert op,.inserted)
        {x.object with keys := Insert.insert op.key x.object.keys} := .insert (.insert (before ▸ fresh))
    obtain ⟨pending,rest⟩ := linksPending ok links
    have called : x.phase none = .called (.insert op) := tracks.inserting.trans pending
    rcases rest with ⟨stays,done⟩ | ⟨ends,rfl⟩
    · have linked : s.effects (.write (s.writer.returns writer)) = [.effect none (.insert op) .inserted] := by
        rw [stays]
        simp [Callers.effects,links]
      refine matchedBy linked (.cons (.effect called takes) (.nil _))
        (tracksWrite tracks steady here grows keys rfl ?_ ?_)
      · exact (updateWriter x.phase (.done .inserted)).trans done.symm
      · exact updateReaders x.phase (.done .inserted)
    · have both : s.effects (.write (s.writer.returns .idle)) =
          [.effect none (.insert op) .inserted,.shown (.back none .inserted)] := by
        rw [ends]
        simp [Callers.effects,links]
      refine matchedBy both (Linearizable.takesBack called takes)
        (tracksWrite tracks steady here grows keys rfl ?_ ?_)
      · exact updateWriter x.phase .idle
      · exact updateReaders x.phase .idle

/- After a step of reader i. -/
theorem tracksRead (tracks : Tracks compare_ order s x) {i : ι} {c : Caller Key} {position : Option Key}
    (here : CallerAt compare_ order c) (placed : Placed (level order 0) c.it position) :
    Tracks compare_ order (s.set i c) ⟨x.object.place i position,Function.update x.phase (some i) c.pending⟩ := by
  have readers : ∀ j, CallerAt compare_ order ((s.set i c).callers j) ∧
      Placed (level order 0) ((s.set i c).callers j).it ((x.object.place i position).position j) ∧
      Function.update x.phase (some i) c.pending (some j) = ((s.set i c).callers j).pending := by
    intro j
    by_cases same : j = i
    · subst j
      simpa [Callers.set,OrderedCursor.State.place] using ⟨here,placed⟩
    · simpa [Callers.set,OrderedCursor.State.place,same] using
        ⟨tracks.callers j,tracks.placed j,tracks.asking j⟩
  have writer : Function.update x.phase (some i) c.pending none = s.writer.pending := by
    rw [Function.update_of_ne (by simp)]
    exact tracks.inserting
  exact ⟨tracks.steady,tracks.writer,fun j => (readers j).1,tracks.keys,fun j => (readers j).2.1,writer,
    fun j => (readers j).2.2⟩

/- Nothing moves where the place and the phase are those that were there. -/
theorem tracksStill {i : ι} {c : Caller Key} (tracks : Tracks compare_ order s x) (here : CallerAt compare_ order c)
    (it : c.it = (s.callers i).it) (pending : c.pending = (s.callers i).pending) :
    Tracks compare_ order (s.set i c) x := by
  have moved := tracksRead tracks (i := i) here (it ▸ tracks.placed i)
  have place : x.object.place i (x.object.position i) = x.object := by
    rw [OrderedCursor.State.place,Function.update_eq_self]
  have phase : Function.update x.phase (some i) c.pending = x.phase := by
    rw [pending,← tracks.asking i,Function.update_eq_self]
  rwa [place,phase] at moved

theorem callMatched (tracks : Tracks compare_ order s x) {i : ι} {q : Ask Key} (idle : (s.callers i).phase = .idle)
    (valid : q = .next ∨ q = .prev → (s.callers i).it.valid = true) :
    Matched compare_ s (.call i q) (s.set i {s.callers i with phase := .begin q}) x := by
  have free : x.phase (some i) = .idle := by
    rw [tracks.asking,Caller.pending,idle]
  have here : CallerAt compare_ order {s.callers i with phase := .begin q} := calledAt valid
  have place : x.object.place i (x.object.position i) = x.object := by
    rw [OrderedCursor.State.place,Function.update_eq_self]
  have moved := tracksRead tracks (i := i) here (tracks.placed i)
  rw [place] at moved
  exact ⟨_,.cons (.call free) (.nil _),order,moved⟩

theorem readMatched (lawful : ThreeWay.Lawful compare_) (tracks : Tracks compare_ order s x) {i : ι} {c : Caller Key}
    {back : Option (Answer Key)} (ok : (s.callers i).step compare_ s.list = .ok (c,back)) :
    Matched compare_ s (.read i back) (s.set i c) x := by
  obtain ⟨c',back',moved⟩ := callerMoves lawful tracks.steady tracks.keys (tracks.placed i) (tracks.callers i)
  cases Except.ok.inj (ok.symm.trans moved.run)
  cases back with
  | none =>
    obtain ⟨it,pending⟩ := moved.silent rfl
    exact ⟨x,.nil x,order,tracksStill tracks moved.here it pending⟩
  | some r =>
    obtain ⟨idle,q,position,called,takes,placed⟩ := moved.takes r rfl
    have begun : x.phase (some i) = .called (.ask q) := (tracks.asking i).trans called
    have tracks' := tracksRead tracks moved.here placed (i := i)
    have pending : c.pending = .idle := by rw [Caller.pending,idle]
    rw [pending] at tracks'
    have both : s.effects (.read i (some r)) = [.effect (some i) (.ask q) r,.shown (.back (some i) r)] := by
      simp [Callers.effects,pendingAsked called]
    exact matchedBy both (Linearizable.takesBack begun takes) tracks'

theorem stepMatched (lawful : ThreeWay.Lawful compare_) {e : Callers.Event Key ι} (tracks : Tracks compare_ order s x)
    (step : Callers.Step compare_ s e t) : Matched compare_ s e t x := by
  cases step with
  | insert idle fresh one low => exact insertMatched tracks idle fresh one low
  | write ok => exact writeMatched lawful tracks ok
  | call idle valid => exact callMatched tracks idle valid
  | read ok => exact readMatched lawful tracks ok

/-- One writer and any number of readers that make any calls of contains and the
iterator, in any interleaving: what they see is what they would see of an ordered
set with cursors in which an insertion takes effect at the store that links its
node on level 0, and any other call at its last load. -/
theorem listLinearizable (lawful : ThreeWay.Lawful compare_) (zero : Key) :
    ∃ s0 : Callers Key ι, Callers.new zero = .ok s0 ∧
      ∀ es s, Machine.Run (Callers.Step compare_) s0 es s →
        (∃ r, s.writer.step compare_ s.list = .ok r) ∧ (∀ i, ∃ r, (s.callers i).step compare_ s.list = .ok r) ∧
        ∃ bs, Machine.Traced (Callers.Step compare_) Callers.effects s0 es bs s ∧
          Linearizable.Linearized (Takes compare_) ⟨∅,fun _ : ι => none⟩ bs (es.filterMap Callers.Event.mark) := by
  obtain ⟨m,start,rep⟩ := newRepresents compare_ zero
  let s0 : Callers Key ι := ⟨m,.idle,fun _ => ⟨.idle,Iterator.new⟩⟩
  have fresh : Callers.new zero = .ok s0 := by
    simp only [Callers.new,start,bind,Except.bind]
    rfl
  have keys : (∅ : Set Key) = keysOf (level ([] : List (Entry Key)) 0) := by simp [keysOf,level]
  have tracks : Tracks compare_ [] s0 ⟨⟨∅,fun _ => none⟩,fun _ => .idle⟩ :=
    ⟨representsSteady rep,rep,fun _ => idleCaller _,keys,fun _ => .inl ⟨rfl,rfl⟩,rfl,fun _ => rfl⟩
  have forward : ∀ (s : Callers Key ι) e t (x : AtomicState Key ι), (∃ order, Tracks compare_ order s x) →
      Callers.Step compare_ s e t → Matched compare_ s e t x :=
    fun _ _ _ _ tracked step => tracked.elim fun _ here => stepMatched lawful here step
  refine ⟨s0,fresh,?_⟩
  intro es s run
  obtain ⟨_,x,_,_,order,here⟩ := Machine.traced forward ⟨[],tracks⟩ run
  obtain ⟨_,_,_,wrote,_⟩ := writerMoves lawful here.steady here.writer
  refine ⟨⟨_,wrote⟩,?_,Linearizable.linearizes effectsShown forward ⟨[],tracks⟩ run⟩
  intro i
  obtain ⟨_,_,moved⟩ := callerMoves lawful here.steady here.keys (here.placed i) (here.callers i)
  exact ⟨_,moved.run⟩

/- A reader calls seek while the writer has yet to link the key that it then finds. -/
def overlapping : List (Callers.Event Int Nat) :=
  .insert ⟨5,1⟩::List.replicate 6 (.write false) ++ [.call 0 (.seek 3),.write true,.read 0 none,
    .read 0 (some (.shows (some 5)))]

theorem writeReturns {list : SkipList Key} {writer : Writer Key} {back : Bool}
    (ok : s.writer.step compare_ s.list = .ok (list,writer)) (returns : s.writer.returns writer = back) :
    Callers.Step compare_ s (.write back) {s with list,writer} :=
  returns ▸ .write ok

theorem overlappingRuns : ∃ s0, Callers.new 0 = .ok s0 ∧
    ∃ s, Machine.Run (Callers.Step (fun a b => a - b)) s0 overlapping s ∧ s.callers 0 = ⟨.idle,⟨some 1⟩⟩ := by
  refine ⟨_,rfl,Machine.runHead (.insert rfl (newFresh 0 rfl) (by decide) (by decide)) ?_⟩
  iterate 6 refine Machine.runHead (writeReturns rfl rfl) ?_
  refine Machine.runHead (.call rfl (by simp)) (Machine.runHead (writeReturns rfl rfl) ?_)
  exact Machine.runHead (.read rfl) (Machine.runHead (.read rfl) ⟨_,.nil _,rfl⟩)

theorem listLinearizableInt : ∃ s0 s bs, Callers.new (0 : Int) = .ok s0 ∧
    Machine.Traced (Callers.Step (fun a b => a - b)) Callers.effects s0 overlapping bs s ∧
    Linearizable.Linearized (Takes (fun a b => a - b)) ⟨∅,fun _ : Nat => none⟩ bs
      [.call none (.insert ⟨5,1⟩),.call (some 0) (.ask (.seek 3)),.back none .inserted,
        .back (some 0) (.shows (some 5))] := by
  obtain ⟨s0,start,runs⟩ := listLinearizable (ι := Nat) ThreeWay.differenceLawful 0
  obtain ⟨s1,start',s,run,_⟩ := overlappingRuns
  cases Except.ok.inj (start.symm.trans start')
  obtain ⟨_,_,bs,trace,linearized⟩ := runs overlapping s run
  exact ⟨s0,s,bs,start,trace,linearized⟩

end KVStorage.SkipList
