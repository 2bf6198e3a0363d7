import KVStorage.SkipListProgress
import KVStorage.SkipListVisibility

/-! Every call of contains and of the iterator with the memory orders of the source.
A reader lags behind the writer, each load by as much as the orders allow, and yet
its answers are those of an ordered set that has the keys it knows of. -/
namespace KVStorage.SkipList

open Support Support.ReleaseAcquire

variable {Key ι : Type}

/- The cell that the caller's next step loads. -/
def Caller.cell (c : Caller Key) : Option Cell :=
  match c.phase with
  | .idle => none
  | .begin .next => c.it.node_.map (fun n => .next n 0)
  | .begin .seekToFirst => some (.next head_ 0)
  | .begin _ => some .maxHeight
  | .search _ s => some (.next s.x s.level)

section Calling

variable (compare_ : Key → Key → Int) (h : History (SkipList Key) Cell) (v : View Cell) (t : Nat)

/- The end of next and seekToFirst: a load, and what valid and key then say. -/
def Caller.follow (x : Ptr) : Except Fault (View Cell × Caller Key × Option (Answer Key)) := do
  let (node_,v) ← loadNext h v t x 0
  let (c,back) ← Caller.ends (h.memory v.seen) ⟨node_⟩
  .ok (v,c,back)

def Caller.loadBegins (c : Caller Key) : Ask Key → Except Fault (View Cell × Caller Key × Option (Answer Key))
  | .contains key => .ok (v.relaxed h .maxHeight t,c.starts (h.memory t) (.contains key),none)
  | .seek target => .ok (v.relaxed h .maxHeight t,c.starts (h.memory t) (.seek target),none)
  | .seekToLast => .ok (v.relaxed h .maxHeight t,c.starts (h.memory t) .last,none)
  | .seekToFirst => Caller.follow h v t head_
  | .next =>
    match c.it.node_ with
    | none => .error .assertion
    | some n => Caller.follow h v t n
  | .prev =>
    match c.it.node_ with
    | none => .error .assertion
    | some n => do
      let node ← (h.memory v.seen).node n
      .ok (v.relaxed h .maxHeight t,c.starts (h.memory t) (.less node.key),none)

/- Caller.step with a load that takes the last store among the first t. The key of
the node where a search stands is read before the load, other keys after it. -/
def Caller.loadStep (c : Caller Key) : Except Fault (View Cell × Caller Key × Option (Answer Key)) :=
  match c.phase with
  | .idle => .ok (v,c,none)
  | .begin q => c.loadBegins h v t q
  | .search w s => do
    w.check compare_ (h.memory v.seen) s.x
    let (next,v) ← loadNext h v t s.x s.level
    let known := h.memory v.seen
    let goes ← w.right compare_ known next
    let round ← advance s next goes
    match round with
    | .again s => .ok (v,⟨.search w s,c.it⟩,none)
    | .done f => do
      let (c,back) ← c.found compare_ known f w
      .ok (v,c,back)

end Calling

structure WeakCallers (Key ι : Type) where
  history : History (SkipList Key) Cell
  writer : Writer Key
  callers : ι → Caller Key
  views : ι → View Cell

namespace WeakCallers

def list (s : WeakCallers Key ι) : SkipList Key := s.history.current

/- The list as reader i is sure to know it. -/
def known (s : WeakCallers Key ι) (i : ι) : SkipList Key := s.history.memory (s.views i).seen

def new (zero : Key) : Except Fault (WeakCallers Key ι) := do
  let list ← SkipList.new zero
  .ok ⟨⟨list,[]⟩,.idle,fun _ => ⟨.idle,Iterator.new⟩,fun _ => View.new⟩

inductive Event (Key ι : Type) where
  | insert (op : Insertion Key)
  | write
  | synchronise (i : ι) (n : Nat)
  | call (i : ι) (q : Ask Key)
  | read (i : ι) (t : Nat) (back : Option (Answer Key))
  deriving DecidableEq, Repr

variable [DecidableEq ι]

def set (s : WeakCallers Key ι) (i : ι) (v : View Cell) (c : Caller Key) : WeakCallers Key ι :=
  {s with callers := Function.update s.callers i c, views := Function.update s.views i v}

/- The callers' duties are those of Callers.Step, the loads and synchronise those of
WeakThreads.Step. -/
inductive Step (compare_ : Key → Key → Int) : WeakCallers Key ι → Event Key ι → WeakCallers Key ι → Prop where
  | insert {s op} (idle : s.writer = .idle) (fresh : ∀ k ∈ s.list.linkedKeys, compare_ op.key k ≠ 0)
      (one : 1 ≤ op.height) (low : op.height ≤ s_max_height_) :
      Step compare_ s (.insert op) {s with writer := .begin op}
  | write {s list writer} (ok : s.writer.step compare_ s.list = .ok (list,writer)) :
      Step compare_ s .write {s with history := record s.history list (s.writer.store s.list), writer}
  | synchronise {s i n} (made : n ≤ s.history.now) :
      Step compare_ s (.synchronise i n) (s.set i ((s.views i).synchronise n) (s.callers i))
  | call {s i q} (idle : (s.callers i).phase = .idle)
      (valid : q = .next ∨ q = .prev → (s.callers i).it.valid = true) :
      Step compare_ s (.call i q) (s.set i (s.views i) {s.callers i with phase := .begin q})
  | read {s i t v c back} (allows : ∀ l, (s.callers i).cell = some l → (s.views i).Allows s.history l t)
      (ok : (s.callers i).loadStep compare_ s.history (s.views i) t = .ok (v,c,back)) :
      Step compare_ s (.read i t back) (s.set i v c)

end WeakCallers

/- A step whose load reads what list m holds, by a reader that then knows of m, is
a step on m. -/
section Loads

variable {compare_ : Key → Key → Int} {h : History (SkipList Key) Cell} {v v' : View Cell} {t : Nat}
variable {m : SkipList Key} {it : Iterator} {c' : Caller Key} {back : Option (Answer Key)}

theorem followLoads {x : Ptr} {node_ : Option Ptr} (load : ∀ y, m.next x 0 = .ok y → loadNext h v t x 0 = .ok (y,v'))
    (known : h.memory v'.seen = m) (here : m.next x 0 = .ok node_) (ends : Caller.ends m ⟨node_⟩ = .ok (c',back)) :
    Caller.follow h v t x = .ok (v',c',back) := by
  simp only [Caller.follow,load node_ here,known,ends,bind,Except.bind]

theorem firstLoads (load : ∀ y, m.next head_ 0 = .ok y → loadNext h v t head_ 0 = .ok (y,v'))
    (known : h.memory v'.seen = m) (ok : Caller.step compare_ m ⟨.begin .seekToFirst,it⟩ = .ok (c',back)) :
    Caller.loadStep compare_ h v t ⟨.begin .seekToFirst,it⟩ = .ok (v',c',back) := by
  obtain ⟨it',first,ends⟩ := Machine.okBind ok
  obtain ⟨node_,here,last⟩ := Machine.okBind first
  cases Except.ok.inj last
  exact followLoads load known here ends

theorem callerNextLoads {n : Ptr} (load : ∀ y, m.next n 0 = .ok y → loadNext h v t n 0 = .ok (y,v'))
    (known : h.memory v'.seen = m) (on : it.node_ = some n)
    (ok : Caller.step compare_ m ⟨.begin .next,it⟩ = .ok (c',back)) :
    Caller.loadStep compare_ h v t ⟨.begin .next,it⟩ = .ok (v',c',back) := by
  obtain ⟨it',next,ends⟩ := Machine.okBind ok
  simp only [Iterator.next,on] at next
  obtain ⟨node_,here,last⟩ := Machine.okBind next
  cases Except.ok.inj last
  simp only [Caller.loadStep,Caller.loadBegins,on]
  exact followLoads load known here ends

theorem searchLoads {w : Wanted Key} {s : Search} (check : w.check compare_ (h.memory v.seen) s.x = .ok ())
    (load : ∀ y, m.next s.x s.level = .ok y → loadNext h v t s.x s.level = .ok (y,v'))
    (known : h.memory v'.seen = m) (ok : Caller.step compare_ m ⟨.search w s,it⟩ = .ok (c',back)) :
    Caller.loadStep compare_ h v t ⟨.search w s,it⟩ = .ok (v',c',back) := by
  obtain ⟨round,search,rest⟩ := Machine.okBind ok
  obtain ⟨_,_,search⟩ := Machine.okBind search
  obtain ⟨next,here,search⟩ := Machine.okBind search
  obtain ⟨goes,test,move⟩ := Machine.okBind search
  cases round with
  | again s =>
    cases Except.ok.inj rest
    simp only [Caller.loadStep,check,load next here,known,test,move,bind,Except.bind]
  | done f =>
    have found : Caller.found compare_ m ⟨.search w s,it⟩ f w = .ok (c',back) := rest
    simp only [Caller.loadStep,check,load next here,known,test,move,found,bind,Except.bind]

/- A search starts from the height that the load takes. -/
theorem startLoads {q : Ask Key} (starts : q ≠ .next ∧ q ≠ .seekToFirst)
    (ok : Caller.step compare_ {h.memory v.seen with max_height_ := (h.memory t).max_height_} ⟨.begin q,it⟩ =
      .ok (c',back)) : Caller.loadStep compare_ h v t ⟨.begin q,it⟩ = .ok (v.relaxed h .maxHeight t,c',back) := by
  cases q with
  | next => exact absurd rfl starts.1
  | seekToFirst => exact absurd rfl starts.2
  | contains | seek | seekToLast =>
    cases Except.ok.inj ok
    rfl
  | prev =>
    cases on : it.node_ with
    | none => simp [Caller.step,Caller.begins,on] at ok
    | some n =>
      simp only [Caller.step,Caller.begins,on] at ok
      obtain ⟨node,found,last⟩ := Machine.okBind ok
      have here : (h.memory v.seen).node n = .ok node := found
      cases Except.ok.inj last
      simp only [Caller.loadStep,Caller.loadBegins,on,here,bind,Except.bind]
      rfl

end Loads

variable {compare_ : Key → Key → Int} {m : SkipList Key} {order : List (Entry Key)}

/- Between two steps of a reader: where it is, and the key its iterator shows. -/
structure LaggingAt (compare_ : Key → Key → Int) (order : List (Entry Key)) (c : Caller Key) (position : Option Key) :
    Prop where
  here : CallerAt compare_ order c
  placed : Placed (level order 0) c.it position

theorem laggingGrows {order' : List (Entry Key)} {c : Caller Key} {position : Option Key} (grows : Grows order order')
    (lagging : LaggingAt compare_ order c position) : LaggingAt compare_ order' c position :=
  ⟨callerGrows grows lagging.here,placedGrows grows lagging.placed⟩

section Readers

variable [DecidableEq ι] {h : History (SkipList Key) Cell} {orders : Nat → List (Entry Key)} {v : View Cell} {t : Nat}

theorem laggingMoves (lawful : ThreeWay.Lawful compare_) {keys : Set Key} {c : Caller Key} {position : Option Key}
    (i : ι) (steady : Steady compare_ m order) (all : keys = keysOf (level order 0))
    (lagging : LaggingAt compare_ order c position) :
    ∃ c' back, CallerMoved compare_ m order ⟨keys,fun _ => position⟩ i c c' back :=
  callerMoves (a := ⟨keys,fun _ => position⟩) lawful steady all lagging.placed lagging.here

/- What a step of a reader does, in terms of the list it knows of afterwards. -/
structure CallerLoaded (compare_ : Key → Key → Int) (h : History (SkipList Key) Cell) (orders : Nat → List (Entry Key))
    (v v' : View Cell) (position : Option Key) (i : ι) (c c' : Caller Key) (back : Option (Answer Key)) : Prop where
  later : v.seen ≤ v'.seen
  made : v'.seen ≤ h.now
  moved : ∃ m, m.nodes = (h.memory v'.seen).nodes ∧ Steady compare_ m (orders v'.seen) ∧
    CallerMoved compare_ m (orders v'.seen) ⟨(h.memory v'.seen).linkedKeys,fun _ => position⟩ i c c' back

theorem callerLoads (lawful : ThreeWay.Lawful compare_) (recorded : Recorded compare_ h orders) {c : Caller Key}
    {position : Option Key} (i : ι) (seen : v.seen ≤ h.now) (lagging : LaggingAt compare_ (orders v.seen) c position)
    (allows : ∀ l, c.cell = some l → v.Allows h l t) :
    ∃ v' c' back, c.loadStep compare_ h v t = .ok (v',c',back) ∧
      CallerLoaded compare_ h orders v v' position i c c' back := by
  have steady := recorded.steady v.seen seen
  have acquired : ∀ x n, v.Allows h (.next x n) t → ∃ c' back, CallerMoved compare_
      (h.memory (v.acquire h (.next x n) t).seen) (orders (v.acquire h (.next x n) t).seen)
      ⟨(h.memory (v.acquire h (.next x n) t).seen).linkedKeys,fun _ => position⟩ i c c' back ∧
      CallerLoaded compare_ h orders v (v.acquire h (.next x n) t) position i c c' back := by
    intro x n may
    obtain ⟨later,within⟩ := acquireSeen may
    have made := Nat.le_trans within may.now
    have there := laggingGrows (recorded.grows _ _ later made) lagging
    have steady' := recorded.steady _ made
    obtain ⟨c',back,moved⟩ := laggingMoves lawful i steady' (linkedKeysOf steady'.linked) there
    exact ⟨c',back,moved,later,made,_,rfl,steady',moved⟩
  have started : ∀ q, c.phase = .begin q → q ≠ .next ∧ q ≠ .seekToFirst → v.Allows h .maxHeight t →
      ∃ v' c' back, c.loadStep compare_ h v t = .ok (v',c',back) ∧
        CallerLoaded compare_ h orders v v' position i c c' back := by
    intro q at_ starts may
    let raised : SkipList Key := {h.memory v.seen with max_height_ := (h.memory t).max_height_}
    have steady' : Steady compare_ raised (orders v.seen) :=
      ⟨linkedSameNodes steady.linked rfl,(recorded.steady t may.now).height⟩
    have keys : (h.memory v.seen).linkedKeys = keysOf (level (orders v.seen) 0) := linkedKeysOf steady.linked
    obtain ⟨c',back,moved⟩ := laggingMoves lawful i steady' keys lagging
    obtain ⟨phase,it⟩ := c
    cases at_
    exact ⟨_,_,_,startLoads starts moved.run,Nat.le_refl _,seen,raised,rfl,steady',moved⟩
  obtain ⟨phase,it⟩ := c
  cases phase with
  | idle =>
    obtain ⟨c',back,moved⟩ := laggingMoves lawful i steady (linkedKeysOf steady.linked) lagging
    cases Except.ok.inj moved.run
    exact ⟨v,_,_,rfl,Nat.le_refl _,seen,_,rfl,steady,moved⟩
  | begin q =>
    cases q with
    | contains | seek | seekToLast | prev => exact started _ rfl (by simp) (allows _ rfl)
    | seekToFirst =>
      have may : v.Allows h (.next head_ 0) t := allows _ rfl
      obtain ⟨c',back,moved,loaded⟩ := acquired head_ 0 may
      exact ⟨_,_,_,firstLoads (fun _ => loadNextKnown recorded (by decide) may (.inl rfl)) rfl moved.run,loaded⟩
    | next =>
      obtain ⟨n,on⟩ := Option.isSome_iff_exists.mp (lagging.here.valid (.inl rfl))
      dsimp only at on
      have may : v.Allows h (.next n 0) t := allows _ (by simp only [Caller.cell,on,Option.map_some])
      have chain : OnChain (h.memory v.seen) 0 n := by
        rcases lagging.placed with ⟨off,_⟩ | ⟨e,mem,node,_⟩
        · rw [on] at off
          contradiction
        · obtain ⟨inside,tall⟩ := memLevel.mp mem
          exact (onChainIff steady.linked (by decide)).mpr (.inr ⟨e,inside,Option.some.inj (node.symm.trans on),tall⟩)
      obtain ⟨c',back,moved,loaded⟩ := acquired n 0 may
      exact ⟨_,_,_,callerNextLoads (fun _ => loadNextKnown recorded (by decide) may chain) rfl on moved.run,loaded⟩
  | search w s =>
    have hunting := lagging.here.search w s rfl
    have may : v.Allows h (.next s.x s.level) t := allows _ rfl
    have check := standsChecks (wantedGuided lawful steady.linked w) hunting.stands
    have chain := standsOnChain steady.linked hunting.low hunting.stands
    obtain ⟨c',back,moved,loaded⟩ := acquired s.x s.level may
    exact ⟨_,_,_,searchLoads check (fun _ => loadNextKnown recorded hunting.low may chain) rfl moved.run,loaded⟩

theorem loadSpends (lawful : ThreeWay.Lawful compare_) {position : Option Key} {i : ι} {n : Nat} {c c' : Caller Key}
    {v' : View Cell} (recorded : Recorded compare_ h orders) (seen : v.seen ≤ h.now)
    (lagging : LaggingAt compare_ (orders v.seen) c position)
    (loaded : CallerLoaded compare_ h orders v v' position i c c' none) (spent : c.Spent compare_ (orders v.seen) n) :
    c'.Spent compare_ (orders v'.seen) (n+1) := by
  obtain ⟨_,_,steady,moved⟩ := loaded.moved
  have grows := recorded.grows _ _ loaded.later loaded.made
  have kept := callerSpentGrows lawful (recorded.steady _ seen).linked steady.linked grows spent
  exact callerSpends lawful steady (callerGrows grows lagging.here) moved.run kept

end Readers

namespace WeakCallers

/- All threads at once. -/
structure Lagging (compare_ : Key → Key → Int) (orders : Nat → List (Entry Key)) (s : WeakCallers Key ι) : Prop where
  recorded : Recorded compare_ s.history orders
  writer : WriterAt compare_ s.list (orders s.history.now) s.writer
  seen : ∀ i, (s.views i).seen ≤ s.history.now
  callers : ∀ i, ∃ position, LaggingAt compare_ (orders (s.views i).seen) (s.callers i) position

/- Stores stay made and known. -/
structure Later (s t : WeakCallers Key ι) : Prop where
  now : s.history.now ≤ t.history.now
  memory : ∀ n ≤ s.history.now, t.history.memory n = s.history.memory n
  seen : ∀ i, (s.views i).seen ≤ (t.views i).seen

theorem laterSelf (s : WeakCallers Key ι) : Later s s := ⟨Nat.le_refl _,fun _ _ => rfl,fun _ => Nat.le_refl _⟩

theorem laterTrans {s t u : WeakCallers Key ι} (left : Later s t) (right : Later t u) : Later s u :=
  ⟨Nat.le_trans left.now right.now,
    fun n made => (right.memory n (Nat.le_trans made left.now)).trans (left.memory n made),
    fun i => Nat.le_trans (left.seen i) (right.seen i)⟩

variable {orders : Nat → List (Entry Key)}

theorem keysLater {h : History (SkipList Key) Cell} (recorded : Recorded compare_ h orders) {n n' : Nat} (le : n ≤ n')
    (made : n' ≤ h.now) : (h.memory n).linkedKeys ⊆ (h.memory n').linkedKeys :=
  fun k mem => mem.imp fun x => recordedHolds recorded le made x k

theorem knownLater {s t : WeakCallers Key ι} (before : ∀ i, (s.views i).seen ≤ s.history.now)
    (all : Lagging compare_ orders t) (later : Later s t) (i : ι) :
    (s.known i).linkedKeys ⊆ (t.known i).linkedKeys := by
  rw [known,← later.memory _ (before i)]
  exact keysLater all.recorded (later.seen i) (all.seen i)

variable [DecidableEq ι] {s t : WeakCallers Key ι} {e : Event Key ι}

/- What holds of every reader still holds once reader i has moved. -/
theorem setEach {P : ι → View Cell → Caller Key → Prop} {i : ι} {v : View Cell} {c : Caller Key} (here : P i v c)
    (others : ∀ j, P j (s.views j) (s.callers j)) (j : ι) : P j ((s.set i v c).views j) ((s.set i v c).callers j) := by
  by_cases same : j = i
  · subst j
    simpa [set] using here
  · simpa [set,same] using others j

theorem setLagging (all : Lagging compare_ orders s) {i : ι} {v : View Cell} {c : Caller Key} {position : Option Key}
    (made : v.seen ≤ s.history.now) (here : LaggingAt compare_ (orders v.seen) c position) :
    Lagging compare_ orders (s.set i v c) := by
  have seen : ∀ j, ((s.set i v c).views j).seen ≤ s.history.now :=
    setEach (P := fun _ v _ => v.seen ≤ s.history.now) made all.seen
  have callers := setEach (P := fun _ v c => ∃ position, LaggingAt compare_ (orders v.seen) c position) (i := i)
    ⟨position,here⟩ all.callers
  exact ⟨all.recorded,all.writer,seen,callers⟩

theorem setLater {i : ι} {v : View Cell} (c : Caller Key) (le : (s.views i).seen ≤ v.seen) :
    Later s (s.set i v c) :=
  ⟨Nat.le_refl _,fun _ _ => rfl,setEach (P := fun j v _ => (s.views j).seen ≤ v.seen) le (fun _ => Nat.le_refl _)⟩

theorem setGrows (all : Lagging compare_ orders s) {i : ι} {v : View Cell} (c : Caller Key)
    (le : (s.views i).seen ≤ v.seen) (made : v.seen ≤ s.history.now) (j : ι) :
    Grows (orders (s.views j).seen) (orders ((s.set i v c).views j).seen) :=
  setEach (P := fun j v _ => Grows (orders (s.views j).seen) (orders v.seen)) (all.recorded.grows _ _ le made)
    (fun _ => growsSelf _) j

omit [DecidableEq ι] in
theorem writeLagging (lawful : ThreeWay.Lawful compare_) (all : Lagging compare_ orders s) {list : SkipList Key}
    {writer : Writer Key} (ok : s.writer.step compare_ s.list = .ok (list,writer)) :
    ∃ orders', Lagging compare_ orders' {s with history := record s.history list (s.writer.store s.list), writer} ∧
      ∀ n ≤ s.history.now, Grows (orders n) (orders' n) := by
  obtain ⟨orders',recorded,there,grows⟩ := recordedStep lawful all.recorded all.writer ok
  have now := (recordNow s.history list (s.writer.store s.list)).1
  have list' : (record s.history list (s.writer.store s.list)).current = list := recordCurrent (stepStores ok)
  refine ⟨orders',⟨recorded,?_,fun i => Nat.le_trans (all.seen i) now,?_⟩,grows⟩
  · rw [WeakCallers.list,list']
    exact there
  · exact fun i => (all.callers i).imp fun _ => laggingGrows (grows _ (all.seen i))

/- A load by reader i, and where it leaves all. -/
theorem readLagging (lawful : ThreeWay.Lawful compare_) (all : Lagging compare_ orders s) {i : ι} {n : Nat}
    (allows : ∀ l, (s.callers i).cell = some l → (s.views i).Allows s.history l n) :
    ∃ v c back position, LaggingAt compare_ (orders (s.views i).seen) (s.callers i) position ∧
      (s.callers i).loadStep compare_ s.history (s.views i) n = .ok (v,c,back) ∧
      CallerLoaded compare_ s.history orders (s.views i) v position i (s.callers i) c back ∧
      Lagging compare_ orders (s.set i v c) := by
  obtain ⟨position,lagging⟩ := all.callers i
  obtain ⟨v,c,back,run,loaded⟩ := callerLoads lawful all.recorded i (all.seen i) lagging allows
  obtain ⟨_,_,_,moved⟩ := loaded.moved
  have there : ∃ position, LaggingAt compare_ (orders v.seen) c position := by
    cases back with
    | none =>
      have still := laggingGrows (all.recorded.grows _ _ loaded.later loaded.made) lagging
      exact ⟨position,moved.here,(moved.silent rfl).1 ▸ still.placed⟩
    | some r =>
      obtain ⟨_,_,position',_,_,placed⟩ := moved.takes r rfl
      exact ⟨position',moved.here,placed⟩
  obtain ⟨_,here⟩ := there
  exact ⟨v,c,back,position,lagging,run,loaded,setLagging all loaded.made here⟩

/- What a step leads to. -/
structure Stepped (compare_ : Key → Key → Int) (orders orders' : Nat → List (Entry Key)) (s t : WeakCallers Key ι) :
    Prop where
  all : Lagging compare_ orders' t
  later : Later s t
  grows : ∀ i, Grows (orders (s.views i).seen) (orders' (t.views i).seen)

theorem stepLagging (lawful : ThreeWay.Lawful compare_) (all : Lagging compare_ orders s)
    (step : Step compare_ s e t) : ∃ orders', Stepped compare_ orders orders' s t := by
  cases step with
  | insert idle fresh one low =>
    have here := insertAccepted all.writer idle fresh one low
    have same : Lagging compare_ orders {s with writer := .begin _} :=
      ⟨all.recorded,here,all.seen,all.callers⟩
    exact ⟨orders,same,⟨Nat.le_refl _,fun _ _ => rfl,fun _ => Nat.le_refl _⟩,fun _ => growsSelf _⟩
  | write ok =>
    obtain ⟨orders',all',grows⟩ := writeLagging lawful all ok
    exact ⟨orders',all',⟨(recordNow ..).1,fun n made => recordMemory _ _ made,fun _ => Nat.le_refl _⟩,
      fun i => grows _ (all.seen i)⟩
  | synchronise made =>
    rename_i i n
    have le : (s.views i).seen ≤ max (s.views i).seen n := Nat.le_max_left ..
    have within : max (s.views i).seen n ≤ s.history.now := Nat.max_le.mpr ⟨all.seen i,made⟩
    obtain ⟨_,lagging⟩ := all.callers i
    have here := laggingGrows (all.recorded.grows _ _ le within) lagging
    exact ⟨orders,setLagging all within here,setLater _ le,setGrows all _ le within⟩
  | call idle valid =>
    rename_i i q
    obtain ⟨_,lagging⟩ := all.callers i
    have le := Nat.le_refl (s.views i).seen
    exact ⟨orders,setLagging all (all.seen i) ⟨calledAt valid,lagging.placed⟩,setLater _ le,
      setGrows all _ le (all.seen i)⟩
  | read allows ok =>
    obtain ⟨_,_,_,_,_,run,loaded,all'⟩ := readLagging lawful all allows
    cases Except.ok.inj (ok.symm.trans run)
    exact ⟨orders,all',setLater _ loaded.later,setGrows all _ loaded.later loaded.made⟩

theorem runLagging (lawful : ThreeWay.Lawful compare_) {es : List (Event Key ι)} (all : Lagging compare_ orders s)
    (run : Machine.Run (Step compare_) s es t) : ∃ orders', Lagging compare_ orders' t ∧ Later s t := by
  induction run generalizing orders with
  | nil => exact ⟨orders,all,laterSelf _⟩
  | cons head tail ih =>
    obtain ⟨_,first⟩ := stepLagging lawful all head
    obtain ⟨orders2,all2,later2⟩ := ih first.all
    exact ⟨orders2,all2,laterTrans first.later later2⟩

/- A reader's steps since it began a call that has not returned. -/

def Event.loads (i : ι) : Event Key ι → Bool
  | .read j _ _ => decide (j = i)
  | _ => false

def Event.keeps (i : ι) (e : Event Key ι) : Prop := ∀ n r, e ≠ .read i n (some r)

theorem stepSpends (lawful : ThreeWay.Lawful compare_) {i : ι} {n : Nat} (all : Lagging compare_ orders s)
    (spent : (s.callers i).Spent compare_ (orders (s.views i).seen) n) (keeps : e.keeps i)
    (step : Step compare_ s e t) :
    ∃ orders', Lagging compare_ orders' t ∧
      (t.callers i).Spent compare_ (orders' (t.views i).seen) (n + (e.loads i).toNat) := by
  obtain ⟨orders',stepped⟩ := stepLagging lawful all step
  have linked := (all.recorded.steady _ (all.seen i)).linked
  have linked' := (stepped.all.recorded.steady _ (stepped.all.seen i)).linked
  have kept : t.callers i = s.callers i → (t.callers i).Spent compare_ (orders' (t.views i).seen) n :=
    fun same => same ▸ callerSpentGrows lawful linked linked' (stepped.grows i) spent
  cases step with
  | insert | write => exact ⟨orders',stepped.all,kept rfl⟩
  | synchronise => exact ⟨orders',stepped.all,kept (by simp [set])⟩
  | call idle valid =>
    rename_i j q
    by_cases mine : i = j
    · subst j
      simp only [Caller.Spent,idle] at spent
    · exact ⟨orders',stepped.all,kept (by simp [set,mine])⟩
  | read allows ok =>
    rename_i j k v c back
    by_cases mine : i = j
    · subst j
      cases back with
      | some r => exact absurd rfl (keeps k r)
      | none =>
        obtain ⟨_,_,_,_,lagging,run,loaded,all'⟩ := readLagging lawful all allows
        cases Except.ok.inj (ok.symm.trans run)
        have next := loadSpends lawful all.recorded (all.seen i) lagging loaded spent
        exact ⟨orders,all',by simpa [set,Event.loads] using next⟩
    · have elsewhere : (Event.read j k back : Event Key ι).loads i = false := decide_eq_false (Ne.symm mine)
      rw [elsewhere]
      exact ⟨orders',stepped.all,kept (by simp [set,mine])⟩

theorem runSpends (lawful : ThreeWay.Lawful compare_) {i : ι} {n : Nat} {es : List (Event Key ι)}
    (all : Lagging compare_ orders s) (spent : (s.callers i).Spent compare_ (orders (s.views i).seen) n)
    (keeps : ∀ e ∈ es, e.keeps i) (run : Machine.Run (Step compare_) s es t) : ∃ orders', Lagging compare_ orders' t ∧
      (t.callers i).Spent compare_ (orders' (t.views i).seen) (n + es.countP (Event.loads i)) := by
  have forward : ∀ (s : WeakCallers Key ι) e t n, (∃ orders, Lagging compare_ orders s ∧
      (s.callers i).Spent compare_ (orders (s.views i).seen) n) → e.keeps i → Step compare_ s e t →
      ∃ orders, Lagging compare_ orders t ∧
        (t.callers i).Spent compare_ (orders (t.views i).seen) (n + (e.loads i).toNat) :=
    fun _ _ _ _ here keeps step => here.elim fun _ both => stepSpends lawful both.1 both.2 keeps step
  exact Machine.countedRun forward ⟨orders,all,spent⟩ keeps run

/- What valid and key say of an iterator. -/
def Shows (m : SkipList Key) (it : Iterator) (position : Option Key) : Prop :=
  it.valid = position.isSome ∧ ∀ k, position = some k → it.key m = .ok k

theorem placedShown {it : Iterator} {position : Option Key} (linked : Linked compare_ m order)
    (placed : Placed (level order 0) it position) : Shows m it position := by
  have inOrder : Placed order it position :=
    placed.imp id fun entry => entry.imp fun _ both => ⟨(memLevel.mp both.1).1,both.2⟩
  obtain ⟨valid,_,key⟩ := placedShows linked inOrder
  exact ⟨valid,fun k eq => (key k eq).1⟩

/- What holds of a state and of all runs on from it, whatever stores the loads take.
What a reader knows is the list as it was after some number of the writer's stores. -/
structure Informed (compare_ : Key → Key → Int) (began : WeakCallers Key ι) : Prop where
  writes : ∃ r, began.writer.step compare_ began.list = .ok r
  reads : ∀ i n, (∀ l, (began.callers i).cell = some l → (began.views i).Allows began.history l n) →
    ∃ r, (began.callers i).loadStep compare_ began.history (began.views i) n = .ok r
  sound : ∀ i, (began.known i).linkedKeys ⊆ began.list.linkedKeys
  agrees : ∀ es s i j, Machine.Run (Step compare_) began es s →
    (began.known i).linkedKeys ⊆ (s.known j).linkedKeys ∨ (s.known j).linkedKeys ⊆ (began.known i).linkedKeys
  learns : ∀ i n t, Step compare_ began (.synchronise i n) t →
    (began.history.memory n).linkedKeys ⊆ (t.known i).linkedKeys
  keeps : ∀ es s i, Machine.Run (Step compare_) began es s → (began.known i).linkedKeys ⊆ (s.known i).linkedKeys
  answers : ∀ i n r t, Step compare_ began (.read i n (some r)) t → ∃ q before after,
    (began.callers i).pending = .called (.ask q) ∧ Shows (began.known i) (began.callers i).it before ∧
    Takes compare_ ⟨(t.known i).linkedKeys,fun _ => before⟩ (some i,.ask q,r)
      (OrderedCursor.State.place ⟨(t.known i).linkedKeys,fun _ => before⟩ i after) ∧
    Shows (t.known i) (t.callers i).it after
  returns : ∀ i q es s, Machine.Run (Step compare_) began (.call i q::es) s → (∀ e ∈ es, e.keeps i) →
    es.countP (Event.loads i) < s_max_height_ + (s.known i).nodes.length

theorem answersTake (lawful : ThreeWay.Lawful compare_) (all : Lagging compare_ orders s) {i : ι} {n : Nat}
    {r : Answer Key} (step : Step compare_ s (.read i n (some r)) t) : ∃ q before after,
    (s.callers i).pending = .called (.ask q) ∧ Shows (s.known i) (s.callers i).it before ∧
    Takes compare_ ⟨(t.known i).linkedKeys,fun _ => before⟩ (some i,.ask q,r)
      (OrderedCursor.State.place ⟨(t.known i).linkedKeys,fun _ => before⟩ i after) ∧
    Shows (t.known i) (t.callers i).it after := by
  cases step with
  | read allows ok =>
    rename_i v c
    obtain ⟨_,_,_,before,lagging,run,loaded,_⟩ := readLagging lawful all allows
    cases Except.ok.inj (ok.symm.trans run)
    obtain ⟨_,_,_,moved⟩ := loaded.moved
    obtain ⟨_,q,after,called,takes,placed⟩ := moved.takes r rfl
    have first := placedShown (all.recorded.steady _ (all.seen i)).linked lagging.placed
    have last := placedShown (all.recorded.steady _ loaded.made).linked placed
    exact ⟨q,before,after,called,first,by simpa [known,set] using takes,by simpa [known,set] using last⟩

theorem callsReturn (lawful : ThreeWay.Lawful compare_) (all : Lagging compare_ orders s) {i : ι} {q : Ask Key}
    {es : List (Event Key ι)} (run : Machine.Run (Step compare_) s (.call i q::es) t) (keeps : ∀ e ∈ es, e.keeps i) :
    es.countP (Event.loads i) < s_max_height_ + (t.known i).nodes.length := by
  cases run with
  | @cons _ _ u _ _ head tail =>
    obtain ⟨orders',stepped⟩ := stepLagging lawful all head
    have start : (u.callers i).Spent compare_ (orders' (u.views i).seen) 0 := by
      cases head with
      | call => simp [set,Caller.Spent]
    obtain ⟨_,last,spent⟩ := runSpends lawful stepped.all start keeps tail
    have bound := callerSpentBound spent
    have short := orderShort lawful (last.recorded.steady _ (last.seen i)).linked
    rw [known]
    omega

theorem laggingInformed (lawful : ThreeWay.Lawful compare_) {began : WeakCallers Key ι}
    (all : Lagging compare_ orders began) : Informed compare_ began := by
  refine ⟨?_,?_,?_,?_,?_,?_,fun i n r t => answersTake lawful all,fun i q es s => callsReturn lawful all⟩
  · obtain ⟨_,_,_,wrote,_⟩ := writerMoves lawful (all.recorded.steady _ (Nat.le_refl _)) all.writer
    exact ⟨_,wrote⟩
  · intro i n allows
    obtain ⟨_,_,_,_,_,run,_⟩ := readLagging lawful all allows
    exact ⟨_,run⟩
  · exact fun i => keysLater all.recorded (all.seen i) (Nat.le_refl _)
  · intro es s i j run
    obtain ⟨_,all',later⟩ := runLagging lawful all run
    have made := Nat.le_trans (all.seen i) later.now
    simp only [known,← later.memory _ (all.seen i)]
    rcases Nat.le_total (began.views i).seen (s.views j).seen with le | le
    · exact .inl (keysLater all'.recorded le (all'.seen j))
    · exact .inr (keysLater all'.recorded le made)
  · intro i n t step
    obtain ⟨_,stepped⟩ := stepLagging lawful all step
    cases step with
    | synchronise made =>
      have within := stepped.all.seen i
      simp only [set,Function.update_self,View.synchronise] at within
      have learnt := keysLater all.recorded (Nat.le_max_right (began.views i).seen n) within
      simpa [known,set,View.synchronise] using learnt
  · intro es s i run
    obtain ⟨_,all',later⟩ := runLagging lawful all run
    exact knownLater all.seen all' later i

end WeakCallers

/-- The memory orders of the source suffice for every call of contains and of the
iterator. In every run of one writer and any number of readers, whatever stores their
loads take within C++'s rules, no step faults and every answer is the one of an
ordered set with the keys that the reader then knows of, for a cursor on the key that
its iterator showed. What a reader knows is what the list held at some time, is never
less than before or than what it has synchronised with, and no two readers ever
disagree on which of two keys came first. A call that has not returned has made fewer
loads than there are levels and nodes it knows of. -/
theorem cursorsInformed [DecidableEq ι] (lawful : ThreeWay.Lawful compare_) (zero : Key) :
    ∃ s0 : WeakCallers Key ι, WeakCallers.new zero = .ok s0 ∧
      ∀ es began, Machine.Run (WeakCallers.Step compare_) s0 es began → WeakCallers.Informed compare_ began := by
  obtain ⟨m,start,rep⟩ := newRepresents compare_ zero
  let s0 : WeakCallers Key ι := ⟨⟨m,[]⟩,.idle,fun _ => ⟨.idle,Iterator.new⟩,fun _ => View.new⟩
  have fresh : WeakCallers.new zero = .ok s0 := by
    simp only [WeakCallers.new,start,bind,Except.bind]
    rfl
  have recorded : Recorded compare_ s0.history (fun _ => []) := newRecorded rep
  have all : WeakCallers.Lagging compare_ (fun _ => []) s0 :=
    ⟨recorded,rep,fun _ => Nat.le_refl _,fun _ => ⟨none,idleCaller _,.inl ⟨rfl,rfl⟩⟩⟩
  refine ⟨s0,fresh,?_⟩
  intro es began run
  obtain ⟨_,here,_⟩ := WeakCallers.runLagging lawful all run
  exact WeakCallers.laggingInformed lawful here

/- Two readers ask when a key is linked: the first takes the latest stores and gets to
it, the second takes an older one and sees an empty list. -/
def lagging : List (WeakCallers.Event Int Nat) :=
  .insert ⟨5,1⟩::List.replicate 7 .write ++
    [.call 0 (.seek 3),.read 0 3 none,.read 0 3 (some (.shows (some 5))),
      .call 1 .seekToFirst,.read 1 0 (some (.shows none))]

theorem laggingRuns : ∃ s0, WeakCallers.new 0 = .ok s0 ∧
    ∃ s, Machine.Run (WeakCallers.Step (fun a b => a - b)) s0 lagging s ∧ s.writer = .idle := by
  refine ⟨_,rfl,Machine.runHead (.insert rfl (newFresh 0 rfl) (by decide) (by decide)) ?_⟩
  iterate 7 refine Machine.runHead (.write rfl) ?_
  refine Machine.runHead (.call rfl (by simp)) ?_
  iterate 2 refine Machine.runHead (.read (fun c at_ => by cases at_; exact ⟨by decide,by decide,by decide⟩) rfl) ?_
  refine Machine.runHead (.call rfl (by simp)) ?_
  refine Machine.runHead (.read (fun c at_ => by cases at_; exact ⟨by decide,by decide,by decide⟩) rfl) ?_
  exact ⟨_,.nil _,rfl⟩

theorem cursorsInformedInt : ∃ s0 began, WeakCallers.new (0 : Int) = .ok s0 ∧
    Machine.Run (WeakCallers.Step (fun a b => a - b)) s0 lagging began ∧
    WeakCallers.Informed (fun a b => a - b) began := by
  obtain ⟨s0,start,informed⟩ := cursorsInformed (ι := Nat) ThreeWay.differenceLawful 0
  obtain ⟨s1,start',s,run,_⟩ := laggingRuns
  cases Except.ok.inj (start.symm.trans start')
  exact ⟨s0,s,start,run,informed lagging s run⟩

end KVStorage.SkipList
