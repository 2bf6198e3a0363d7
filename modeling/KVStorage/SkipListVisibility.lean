import KVStorage.SkipListAcquire

/-! Readers with the memory orders of the source, in any run and with any stores
their loads may take. What a reader knows of only grows, and its answers are
right for it: nothing that was linked before, as far as it knows, is missed. -/
namespace KVStorage.SkipList

open Support Support.ReleaseAcquire

variable {Key ι : Type} {compare_ : Key → Key → Int}
variable {m m' : SkipList Key}

theorem holdsSameNodes (same : m'.nodes = m.nodes) {x : Ptr} {k : Key} (holds : m'.Holds x k) : m.Holds x k := by
  have links : m'.link = m.link := by
    funext i x y
    simp only [link,next,node,same]
  have found : m'.node x = m.node x := by simp only [node,same]
  unfold Holds at holds ⊢
  rwa [links,found] at holds

theorem findsLater {p : Key → Prop} {began now later : SkipList Key} {node_ : Option Ptr}
    (grows : ∀ x k, now.Holds x k → later.Holds x k) (finds : Finds compare_ p began now node_) :
    Finds compare_ p began later node_ := by
  cases node_ with
  | none => exact finds
  | some x =>
    obtain ⟨k,holds,rest⟩ := finds
    exact ⟨k,grows x k holds,rest⟩

theorem answersLater {began now later : SkipList Key} {b : Return Key}
    (grows : ∀ x k, now.Holds x k → later.Holds x k) (answers : Answers compare_ began now b) :
    Answers compare_ began later b := by
  cases b with
  | seek target node_ => exact findsLater grows answers
  | contains target found =>
    refine ⟨?_,answers.2⟩
    intro yes
    obtain ⟨k,⟨x,holds⟩,same⟩ := answers.1 yes
    exact ⟨k,⟨x,grows x k holds⟩,same⟩
  | next n node_ =>
    obtain ⟨k,holds,finds⟩ := answers
    exact ⟨k,grows n k holds,findsLater grows finds⟩

theorem recordedHolds {h : History (SkipList Key) Cell} {orders : Nat → List (Entry Key)}
    (recorded : Recorded compare_ h orders) {n n' : Nat} (le : n ≤ n') (made : n' ≤ h.now) (x : Ptr) (k : Key)
    (holds : (h.memory n).Holds x k) : (h.memory n').Holds x k :=
  holdsGrows (recorded.steady n (Nat.le_trans le made)).linked (recorded.steady n' made).linked
    (recorded.grows n n' le made) holds

namespace WeakThreads

/- The event of the plain machine, for those that are one. -/
def Event.plain : Event Key ι → Option (SkipList.Event Key ι)
  | .insert op => some (.insert op)
  | .write => some .write
  | .synchronise _ _ => none
  | .call i q => some (.call i q)
  | .read i _ back => some (.read i back)

def visit [DecidableEq ι] (i : ι) (e : Event Key ι) : Option (Option Ptr) := e.plain.bind (SkipList.visit i)

/- All threads at once. -/
structure Lagging (compare_ : Key → Key → Int) (orders : Nat → List (Entry Key)) (s : WeakThreads Key ι) : Prop where
  recorded : Recorded compare_ s.history orders
  writer : WriterAt compare_ s.list (orders s.history.now) s.writer
  seen : ∀ i, (s.views i).seen ≤ s.history.now
  readers : ∀ i, ReaderAt compare_ (orders (s.views i).seen) (s.readers i)

/- Stores stay made and known. -/
structure Later (s t : WeakThreads Key ι) : Prop where
  now : s.history.now ≤ t.history.now
  memory : ∀ n ≤ s.history.now, t.history.memory n = s.history.memory n
  seen : ∀ i, (s.views i).seen ≤ (t.views i).seen

theorem laterSelf (s : WeakThreads Key ι) : Later s s := ⟨Nat.le_refl _,fun _ _ => rfl,fun _ => Nat.le_refl _⟩

theorem laterTrans {s t u : WeakThreads Key ι} (left : Later s t) (right : Later t u) : Later s u :=
  ⟨Nat.le_trans left.now right.now,
    fun n made => (right.memory n (Nat.le_trans made left.now)).trans (left.memory n made),
    fun i => Nat.le_trans (left.seen i) (right.seen i)⟩

variable {orders : Nat → List (Entry Key)}

theorem knownLater {s t : WeakThreads Key ι} (before : ∀ i, (s.views i).seen ≤ s.history.now)
    (all : Lagging compare_ orders t) (later : Later s t) (i : ι) (x : Ptr) (k : Key)
    (holds : (s.known i).Holds x k) : (t.known i).Holds x k := by
  rw [known,← later.memory _ (before i)] at holds
  exact recordedHolds all.recorded (later.seen i) (all.seen i) x k holds

variable [DecidableEq ι] {s t : WeakThreads Key ι} {e : Event Key ι}

theorem setLagging (all : Lagging compare_ orders s) {i : ι} {v : View Cell} {r : Reader Key}
    (made : v.seen ≤ s.history.now) (here : ReaderAt compare_ (orders v.seen) r) :
    Lagging compare_ orders (s.set i v r) := by
  have readers : ∀ j, ((s.set i v r).views j).seen ≤ s.history.now ∧
      ReaderAt compare_ (orders ((s.set i v r).views j).seen) ((s.set i v r).readers j) := by
    intro j
    by_cases same : j = i
    · subst j
      simpa [set] using ⟨made,here⟩
    · simpa [set,same] using ⟨all.seen j,all.readers j⟩
  exact ⟨all.recorded,all.writer,fun j => (readers j).1,fun j => (readers j).2⟩

theorem setLater {i : ι} {v : View Cell} (r : Reader Key) (le : (s.views i).seen ≤ v.seen) : Later s (s.set i v r) := by
  have seen : ∀ j, (s.views j).seen ≤ ((s.set i v r).views j).seen := by
    intro j
    by_cases same : j = i
    · subst j
      simpa [set] using le
    · simp [set,same]
  exact ⟨Nat.le_refl _,fun _ _ => rfl,seen⟩

omit [DecidableEq ι] in
theorem writeLagging (lawful : ThreeWay.Lawful compare_) (all : Lagging compare_ orders s) {list : SkipList Key}
    {writer : Writer Key} (ok : s.writer.step compare_ s.list = .ok (list,writer)) :
    ∃ orders', Lagging compare_ orders' {s with history := record s.history list (s.writer.store s.list), writer} := by
  obtain ⟨orders',recorded,there,grows⟩ := recordedStep lawful all.recorded all.writer ok
  have now := (recordNow s.history list (s.writer.store s.list)).1
  have list' : (record s.history list (s.writer.store s.list)).current = list := recordCurrent (stepStores ok)
  refine ⟨orders',recorded,?_,fun i => Nat.le_trans (all.seen i) now,
    fun i => readerGrows (grows _ (all.seen i)) (all.readers i)⟩
  rw [WeakThreads.list,list']
  exact there

theorem stepLagging (lawful : ThreeWay.Lawful compare_) (all : Lagging compare_ orders s)
    (step : Step compare_ s e t) : ∃ orders', Lagging compare_ orders' t ∧ Later s t := by
  cases step with
  | insert idle fresh one low =>
    have here := insertAccepted all.writer idle fresh one low
    exact ⟨orders,⟨all.recorded,here,all.seen,all.readers⟩,Nat.le_refl _,fun _ _ => rfl,fun _ => Nat.le_refl _⟩
  | write ok =>
    rename_i list writer
    obtain ⟨orders',all'⟩ := writeLagging lawful all ok
    exact ⟨orders',all',(recordNow ..).1,fun n made => recordMemory _ _ made,fun _ => Nat.le_refl _⟩
  | synchronise made =>
    rename_i i n
    have le : (s.views i).seen ≤ max (s.views i).seen n := Nat.le_max_left ..
    have within : max (s.views i).seen n ≤ s.history.now := Nat.max_le.mpr ⟨all.seen i,made⟩
    have here := readerGrows (all.recorded.grows _ _ le within) (all.readers i)
    exact ⟨orders,setLagging all within here,setLater _ le⟩
  | call idle valid =>
    rename_i i q
    have here : ReaderAt compare_ (orders (s.views i).seen) {s.readers i with phase := .begin q} := by
      refine ⟨(all.readers i).node,?_,by simp⟩
      intro eq
      cases eq
      exact valid rfl
    exact ⟨orders,setLagging all (all.seen i) here,setLater _ (Nat.le_refl _)⟩
  | read allows ok =>
    rename_i i n v r back
    obtain ⟨v',r',back',run,loaded⟩ := loadMoves lawful all.recorded (all.seen i) (all.readers i) allows
    cases Except.ok.inj (ok.symm.trans run)
    obtain ⟨_,_,moved⟩ := loaded.moved
    exact ⟨orders,setLagging all loaded.made moved.here,setLater _ loaded.later⟩

theorem runLagging (lawful : ThreeWay.Lawful compare_) {es : List (Event Key ι)} (all : Lagging compare_ orders s)
    (run : Machine.Run (Step compare_) s es t) : ∃ orders', Lagging compare_ orders' t ∧ Later s t := by
  induction run generalizing orders with
  | nil => exact ⟨orders,all,laterSelf _⟩
  | cons head tail ih =>
    obtain ⟨orders1,all1,later1⟩ := stepLagging lawful all head
    obtain ⟨orders2,all2,later2⟩ := ih all1
    exact ⟨orders2,all2,laterTrans later1 later2⟩

/- A traversal. -/

variable {began : SkipList Key} {target : Key} {nodes : List (Ptr × Key)} {ended : Bool} {i : ι}

theorem callFollows {r : Reader Key} {q : Query Key} (idle : r.phase = .idle) (quiet : ∀ t', q ≠ .find .seek t')
    (follows : Follows r target nodes ended) : Follows {r with phase := .begin q} target nodes ended := by
  have before : r.seeking = none := by simp [Reader.seeking,idle]
  have still : ({r with phase := .begin q} : Reader Key).seeking = none := by
    unfold Reader.seeking
    split
    · rename_i t' eq
      cases eq
      exact absurd rfl (quiet t')
    · contradiction
    · rfl
  rcases follows with ⟨mine,_⟩ | ⟨_,arrived⟩
  · rw [before] at mine
    contradiction
  · exact .inr ⟨still,arrived⟩

theorem loadCovers (lawful : ThreeWay.Lawful compare_) (all : Lagging compare_ orders s) {v' : View Cell}
    {r' : Reader Key} {back : Option (Return Key)} {visited : List (Option Ptr)}
    (loaded : Loaded compare_ s.history orders (s.views i) v' (s.readers i) r' back)
    (fewer : began.linkedKeys ⊆ (s.known i).linkedKeys)
    (covers : Covers compare_ began (s.known i) target visited nodes ended)
    (follows : Follows (s.readers i) target nodes ended) {n : Nat} :
    ∃ nodes' ended', Covers compare_ began (s.history.memory v'.seen) target
        (visited ++ (visit i (.read i n back)).toList) nodes' ended' ∧ Follows r' target nodes' ended' := by
  obtain ⟨m,same,moved⟩ := loaded.moved
  have steady := all.recorded.steady v'.seen loaded.made
  have grows : ∀ x k, (s.known i).Holds x k → m.Holds x k := fun x k holds =>
    holdsSameNodes same.symm (recordedHolds all.recorded loaded.later loaded.made x k holds)
  have fewer' : began.linkedKeys ⊆ m.linkedKeys := fun k mem => (fewer mem).imp fun x => grows x k
  obtain ⟨nodes',ended',covers',follows'⟩ := readCovers lawful (linkedSameNodes steady.linked same) moved fewer'
    (coversLater grows covers) follows i
  exact ⟨nodes',ended',coversLater (fun _ _ => holdsSameNodes same) covers',follows'⟩

theorem stepCovers (lawful : ThreeWay.Lawful compare_) {visited : List (Option Ptr)} (all : Lagging compare_ orders s)
    (step : Step compare_ s e t) (quiet : ∀ t', e ≠ .call i (.find .seek t'))
    (fewer : began.linkedKeys ⊆ (s.known i).linkedKeys)
    (covers : Covers compare_ began (s.known i) target visited nodes ended)
    (follows : Follows (s.readers i) target nodes ended) :
    ∃ nodes' ended', Covers compare_ began (t.known i) target (visited ++ (visit i e).toList) nodes' ended' ∧
      Follows (t.readers i) target nodes' ended' := by
  obtain ⟨_,all',later⟩ := stepLagging lawful all step
  have kept := coversLater (knownLater all.seen all' later i) covers
  cases step with
  | insert | write => exact ⟨nodes,ended,by simpa [visit,Event.plain,SkipList.visit] using kept,follows⟩
  | synchronise made =>
    rename_i j n
    have same : (s.set j ((s.views j).synchronise n) (s.readers j)).readers i = s.readers i := by
      simp [set]
    exact ⟨nodes,ended,by simpa [visit,Event.plain] using kept,by rwa [same]⟩
  | call idle valid =>
    rename_i j q
    refine ⟨nodes,ended,by simpa [visit,Event.plain,SkipList.visit] using kept,?_⟩
    by_cases mine : i = j
    · subst j
      have calm : ∀ t', q ≠ .find .seek t' := fun t' eq => quiet t' (by rw [eq])
      simpa [set] using callFollows idle calm follows
    · simpa [set,mine] using follows
  | read allows ok =>
    rename_i j n v r back
    by_cases mine : i = j
    · subst j
      obtain ⟨v',r',back',run,loaded⟩ := loadMoves lawful all.recorded (all.seen i) (all.readers i) allows
      cases Except.ok.inj (ok.symm.trans run)
      obtain ⟨nodes',ended',covers',follows'⟩ := loadCovers lawful all loaded fewer covers follows (n := n)
      exact ⟨nodes',ended',by simpa [known,set] using covers',by simpa [set] using follows'⟩
    · have elsewhere : visit i (.read j n back : Event Key ι) = none := if_neg (Ne.symm mine)
      exact ⟨nodes,ended,by simpa [elsewhere] using kept,by simpa [set,mine] using follows⟩

theorem runCovers (lawful : ThreeWay.Lawful compare_) {es : List (Event Key ι)} {visited : List (Option Ptr)}
    (all : Lagging compare_ orders s) (run : Machine.Run (Step compare_) s es t)
    (quiet : ∀ t', .call i (.find .seek t') ∉ es) (fewer : began.linkedKeys ⊆ (s.known i).linkedKeys)
    (covers : Covers compare_ began (s.known i) target visited nodes ended)
    (follows : Follows (s.readers i) target nodes ended) :
    Traversed compare_ began (t.known i) target (visited ++ es.filterMap (visit i)) := by
  induction run generalizing orders visited nodes ended with
  | nil => exact ⟨nodes,ended,by simpa using covers⟩
  | @cons s e u es t head tail ih =>
    have calm : ∀ t', e ≠ .call i (.find .seek t') := fun t' eq => quiet t' (by simp [eq])
    obtain ⟨nodes1,ended1,covers1,follows1⟩ := stepCovers lawful all head calm fewer covers follows
    obtain ⟨orders1,all1,later⟩ := stepLagging lawful all head
    have fewer1 : began.linkedKeys ⊆ (u.known i).linkedKeys := fun k mem =>
      (fewer mem).imp fun x => knownLater all.seen all1 later i x k
    have rest := ih all1 (fun t' mem => quiet t' (List.mem_cons_of_mem _ mem)) fewer1 covers1 follows1
    cases seen : visit i e with
    | none => simpa [seen] using rest
    | some x => simpa [seen] using rest

/- The plain machine. -/

/- Both machines are in the same state, apart from what the readers know. -/
structure Matches (s : Threads Key ι) (w : WeakThreads Key ι) : Prop where
  list : w.list = s.list
  writer : w.writer = s.writer
  readers : w.readers = s.readers
  within : ∀ i, (w.views i).Within w.history

omit [DecidableEq ι] in
theorem writeMatches {s : Threads Key ι} {w : WeakThreads Key ι} {list : SkipList Key} {writer : Writer Key}
    (same : Matches s w) (ok : w.writer.step compare_ w.list = .ok (list,writer)) :
    Matches {s with list,writer} {w with history := record w.history list (w.writer.store w.list), writer} := by
  have now := (recordNow w.history list (w.writer.store w.list)).1
  refine ⟨recordCurrent (stepStores ok),rfl,same.readers,fun i => ⟨?_,?_⟩⟩
  · exact Nat.le_trans (same.within i).seen now
  · exact fun c => Nat.le_trans ((same.within i).read c) now

theorem setMatches {s : Threads Key ι} {w : WeakThreads Key ι} (same : Matches s w) {i : ι} {v : View Cell}
    (r : Reader Key) (within : v.Within w.history) : Matches (s.set i r) (w.set i v r) := by
  refine ⟨same.list,same.writer,by simp only [set,Threads.set,same.readers],?_⟩
  intro j
  by_cases mine : j = i
  · subst j
    simpa [set] using within
  · simpa [set,mine] using same.within j

/- The weak machine takes a step of the plain one: a reader first learns of all
the stores, then takes the latest. -/
theorem stepPlain {s t : Threads Key ι} {e : SkipList.Event Key ι} {w : WeakThreads Key ι} (same : Matches s w)
    (step : Threads.Step compare_ s e t) :
    ∃ es w', Machine.Run (Step compare_) w es w' ∧ Matches t w' ∧ es.filterMap Event.plain = [e] := by
  cases step with
  | insert idle fresh one low =>
    rename_i op
    have here : Step compare_ w (.insert op) {w with writer := .begin op} :=
      .insert (same.writer.trans idle) (by rwa [same.list]) one low
    exact ⟨_,_,.cons here (.nil _),⟨same.list,rfl,same.readers,same.within⟩,rfl⟩
  | write ok =>
    rw [← same.list,← same.writer] at ok
    exact ⟨_,_,.cons (.write ok) (.nil _),writeMatches same ok,rfl⟩
  | call idle valid =>
    rename_i i q
    rw [← same.readers] at idle valid ⊢
    exact ⟨_,_,.cons (.call idle valid) (.nil _),setMatches same _ (same.within i),rfl⟩
  | read ok =>
    rename_i i r back
    rw [← same.list,← same.readers] at ok
    have whole : max (w.views i).seen w.history.now = w.history.now := Nat.max_eq_right (same.within i).seen
    have within : ((w.views i).synchronise w.history.now).Within w.history :=
      ⟨Nat.le_of_eq whole,(same.within i).read⟩
    obtain ⟨v',run,within'⟩ := loadStepCurrent whole within ok
    let informed := w.set i ((w.views i).synchronise w.history.now) (w.readers i)
    have learns : Step compare_ w (.synchronise i w.history.now) informed := .synchronise (Nat.le_refl _)
    have loads : Step compare_ informed (.read i w.history.now back) (informed.set i v' r) :=
      .read (fun c _ => by simpa [informed,set] using allowsCurrent within c) (by simpa [informed,set] using run)
    have reads : Step compare_ informed (.read i w.history.now back) (w.set i v' r) := by
      simpa [informed,set] using loads
    exact ⟨_,_,.cons learns (.cons reads (.nil _)),setMatches same r within',rfl⟩

/- Every run of the plain machine is one of the weak machine, event by event. -/
theorem runPlain {s t : Threads Key ι} {es : List (SkipList.Event Key ι)} {w : WeakThreads Key ι} (same : Matches s w)
    (run : Machine.Run (Threads.Step compare_) s es t) :
    ∃ es' w', Machine.Run (Step compare_) w es' w' ∧ Matches t w' ∧ es'.filterMap Event.plain = es := by
  have forward : ∀ (s : Threads Key ι) e t (w : WeakThreads Key ι), Matches s w → Threads.Step compare_ s e t →
      ∃ es w', Machine.Run (Step compare_) w es w' ∧ Matches t w' ∧ es.filterMap Event.plain = (some e).toList :=
    fun _ _ _ _ => stepPlain
  have whole := Machine.stuttering forward same run
  rwa [List.filterMap_some] at whole

/- What holds of a state and of everything that runs on from it, whatever stores
the loads take. `traversals` follows one reader from a seek to before its next. -/
structure Observed (compare_ : Key → Key → Int) (began : WeakThreads Key ι) : Prop where
  writes : ∃ r, began.writer.step compare_ began.list = .ok r
  reads : ∀ i t, (∀ c, (began.readers i).cell = some c → (began.views i).Allows began.history c t) →
    ∃ r, (began.readers i).loadStep compare_ began.history (began.views i) t = .ok r
  sound : ∀ i x k, (began.known i).Holds x k → began.list.Holds x k
  exact : ∀ i n b t, Step compare_ began (.read i n (some b)) t → Answers compare_ (t.known i) (t.known i) b
  answers : ∀ es s i n b t, Machine.Run (Step compare_) began es s →
    Step compare_ s (.read i n (some b)) t → Answers compare_ (began.known i) (t.known i) b
  traversals : ∀ es s i target,
    Machine.Run (Step compare_) began (.call i (.find .seek target)::es) s →
    (∀ t', .call i (.find .seek t') ∉ es) →
    Traversed compare_ (began.known i) (s.known i) target (es.filterMap (visit i))

theorem readExact (lawful : ThreeWay.Lawful compare_) (all : Lagging compare_ orders s) {n : Nat} {b : Return Key}
    (step : Step compare_ s (.read i n (some b)) t) : Answers compare_ (t.known i) (t.known i) b := by
  cases step with
  | read allows ok =>
    rename_i v r
    obtain ⟨_,_,_,run,loaded⟩ := loadMoves lawful all.recorded (all.seen i) (all.readers i) allows
    cases Except.ok.inj (ok.symm.trans run)
    obtain ⟨m,same,moved⟩ := loaded.moved
    have here := moved.answer b rfl
    have back : ∀ k, k ∈ (s.history.memory v.seen).linkedKeys → k ∈ m.linkedKeys :=
      fun k mem => mem.imp fun _ => holdsSameNodes same.symm
    simpa [known,set] using answersLater (fun _ _ => holdsSameNodes same) (answersEarlier back here)

theorem laggingObserved (lawful : ThreeWay.Lawful compare_) {began : WeakThreads Key ι}
    (all : Lagging compare_ orders began) : Observed compare_ began := by
  refine ⟨?_,?_,?_,fun i n b t => readExact lawful all,?_,?_⟩
  · obtain ⟨m',w',_,wrote,_⟩ := writerMoves lawful (all.recorded.steady _ (Nat.le_refl _)) all.writer
    exact ⟨_,wrote⟩
  · intro i t allows
    obtain ⟨_,_,_,run,_⟩ := loadMoves lawful all.recorded (all.seen i) (all.readers i) allows
    exact ⟨_,run⟩
  · exact fun i => recordedHolds all.recorded (all.seen i) (Nat.le_refl _)
  · intro es s i n b t run step
    obtain ⟨_,alls,later⟩ := runLagging lawful all run
    obtain ⟨_,allt,last⟩ := stepLagging lawful alls step
    have fewer : (began.known i).linkedKeys ⊆ (t.known i).linkedKeys := fun k mem =>
      mem.imp fun x => knownLater all.seen allt (laterTrans later last) i x k
    exact answersEarlier fewer (readExact lawful alls step)
  · intro es s i target run quiet
    cases run with
    | cons head tail =>
      obtain ⟨_,all',later⟩ := stepLagging lawful all head
      cases head with
      | call idle valid =>
        have same : ((began.set i (began.views i)
            {began.readers i with phase := .begin (.find .seek target)}).known i) = began.known i := by
          simp [known,set]
        have covers : Covers compare_ (began.known i) (began.known i) target [] [] false :=
          ⟨rfl,by simp,List.Pairwise.nil,fun _ _ _ => .inr ⟨rfl,by simp⟩⟩
        have follows : Follows ((began.set i (began.views i)
            {began.readers i with phase := .begin (.find .seek target)}).readers i) target [] false :=
          .inl ⟨by simp [set,Reader.seeking],rfl,rfl⟩
        have whole := runCovers lawful all' tail quiet (by rw [same]) (by rwa [same]) follows
        simpa using whole

omit [DecidableEq ι] in
theorem startLagging (compare_ : Key → Key → Int) (zero : Key) :
    ∃ s0 : WeakThreads Key ι, WeakThreads.new zero = .ok s0 ∧ Lagging compare_ (fun _ => []) s0 ∧
      s0.writer = .idle := by
  obtain ⟨m,start,rep⟩ := newRepresents compare_ zero
  let s0 : WeakThreads Key ι := ⟨⟨m,[]⟩,.idle,fun _ => ⟨.idle,Iterator.new⟩,fun _ => View.new⟩
  have fresh : WeakThreads.new zero = .ok s0 := by
    simp only [WeakThreads.new,start,bind,Except.bind]
    rfl
  exact ⟨s0,fresh,⟨newRecorded rep,rep,fun _ => Nat.le_refl _,fun _ => idleAt (by simp [OnNode,Iterator.new])⟩,rfl⟩

end WeakThreads

/-- The memory orders of the source suffice. In every run of one writer and any
number of readers, whatever stores their loads take within C++'s rules, no step
faults: no reader looks at a node or a key that it does not know to be written,
or loads a cell never stored to. Every answer is exact for a list the writer went through and misses nothing the
reader knew to be linked, and so does a traversal by seek and next. -/
theorem acquireSuffices [DecidableEq ι] (lawful : ThreeWay.Lawful compare_) (zero : Key) :
    ∃ s0 : WeakThreads Key ι, WeakThreads.new zero = .ok s0 ∧
      ∀ es began, Machine.Run (WeakThreads.Step compare_) s0 es began → WeakThreads.Observed compare_ began := by
  obtain ⟨s0,fresh,all,_⟩ := WeakThreads.startLagging (ι := ι) compare_ zero
  refine ⟨s0,fresh,?_⟩
  intro es began run
  obtain ⟨_,here,_⟩ := WeakThreads.runLagging lawful all run
  exact WeakThreads.laggingObserved lawful here

/- Two readers look for a key that is linked: the first takes the latest stores and
finds it, the second takes older ones and does not. -/
def uneven : List (WeakThreads.Event Int Nat) :=
  .insert ⟨5,1⟩::List.replicate 7 .write ++
    [.call 0 (.find .contains 5),.read 0 3 none,.read 0 3 (some (.contains 5 true)),
      .call 1 (.find .contains 5),.read 1 0 none,.read 1 0 (some (.contains 5 false))]

theorem unevenRuns : ∃ s0, WeakThreads.new 0 = .ok s0 ∧
    ∃ s, Machine.Run (WeakThreads.Step (fun a b => a - b)) s0 uneven s ∧ s.writer = .idle := by
  refine ⟨_,rfl,Machine.runHead (.insert rfl (newFresh 0 rfl) (by decide) (by decide)) ?_⟩
  iterate 7 refine Machine.runHead (.write rfl) ?_
  refine Machine.runHead (.call rfl (by simp)) ?_
  iterate 2 refine Machine.runHead (.read (fun c at_ => by cases at_; exact ⟨by decide,by decide,by decide⟩) rfl) ?_
  refine Machine.runHead (.call rfl (by simp)) ?_
  iterate 2 refine Machine.runHead (.read (fun c at_ => by cases at_; exact ⟨by decide,by decide,by decide⟩) rfl) ?_
  exact ⟨_,.nil _,rfl⟩

theorem acquireSufficesInt : ∃ s0 began, WeakThreads.new (0 : Int) = .ok s0 ∧
    Machine.Run (WeakThreads.Step (fun a b => a - b)) s0 uneven began ∧
    WeakThreads.Observed (fun a b => a - b) began := by
  obtain ⟨s0,start,observed⟩ := acquireSuffices (ι := Nat) ThreeWay.differenceLawful 0
  obtain ⟨s1,start',s,run,_⟩ := unevenRuns
  cases Except.ok.inj (start.symm.trans start')
  exact ⟨s0,s,start,run,observed uneven s run⟩

end KVStorage.SkipList
