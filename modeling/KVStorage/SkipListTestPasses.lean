import KVStorage.SkipListLinearizable
import KVStorage.SkipListTest

/-! No run of ConcurrentTest fails. What the writer has published is in the list, each
load of a generation brings the insertions up to it, and the iterator is never past a
key that was published before. -/
namespace KVStorage.ConcurrentTest

open Support Support.ReleaseAcquire SkipList

/- What is published, and what is in the list. -/

def Committed (current_ : List Stored) : Set Key :=
  {x | ∃ k g, k < K ∧ 1 ≤ g ∧ g ≤ get current_ k ∧ x = pack k g}

section Generations

variable {current_ : List Stored} {k g : UInt64} {made : Nat}

theorem getNewest (current_ : List Stored) (k g : UInt64) (made : Nat) : get (current_ ++ [⟨k,g,made⟩]) k = g := by
  simp [get]

theorem getOther {other : UInt64} (differ : other ≠ k) : get (current_ ++ [⟨k,g,made⟩]) other = get current_ other := by
  simp [get,Ne.symm differ]

/- The generation that WriteStep inserts. -/
structure Upcoming (current_ : List Stored) (k g : UInt64) : Prop where
  low : k < K
  next : g.toNat = (get current_ k).toNat+1
  room : g < 0x80000000

theorem drawnUpcoming (drawn : UInt32) (small : ∀ k, get current_ k < 0x80000000)
    (next : g = get current_ (drawn.toUInt64 % K)+1) (room : g < 0x80000000) :
    Upcoming current_ (drawn.toUInt64 % K) g := by
  have low : drawn.toUInt64 % K < K := by
    rw [UInt64.lt_iff_toNat_lt,UInt64.toNat_mod]
    exact Nat.mod_lt _ (by decide)
  have bound := UInt64.lt_iff_toNat_lt.mp (small (drawn.toUInt64 % K))
  have one := succValue (get current_ (drawn.toUInt64 % K)) (Nat.lt_trans bound (by decide))
  exact ⟨low,by rw [next,one],room⟩

theorem upcomingFits (upcoming : Upcoming current_ k g) : g ≤ 0xffffffff :=
  UInt64.le_of_lt (UInt64.lt_trans upcoming.room (by decide))

theorem upcomingSmall (upcoming : Upcoming current_ k g) (small : ∀ k, get current_ k < 0x80000000) (other : UInt64) :
    get (current_ ++ [⟨k,g,made⟩]) other < 0x80000000 := by
  by_cases same : other = k
  · subst same
    rw [getNewest]
    exact upcoming.room
  · rw [getOther same]
    exact small other

theorem upcomingFresh (upcoming : Upcoming current_ k g) (small : ∀ k, get current_ k < 0x80000000) :
    pack k g ∉ Committed current_ := by
  intro old
  obtain ⟨k',g',low,_,before,same⟩ := old
  have fits : g' ≤ 0xffffffff := UInt64.le_trans before (UInt64.le_of_lt (UInt64.lt_trans (small k') (by decide)))
  have keys := congrArg key same
  have gens := congrArg gen same
  rw [keyPack (UInt64.le_of_lt upcoming.low) (upcomingFits upcoming),keyPack (UInt64.le_of_lt low) fits] at keys
  rw [genPack (UInt64.le_of_lt upcoming.low) (upcomingFits upcoming),genPack (UInt64.le_of_lt low) fits] at gens
  subst keys gens
  have next := upcoming.next
  rw [UInt64.le_iff_toNat_le] at before
  omega

theorem committedMore (upcoming : Upcoming current_ k g) (made : Nat) :
    Committed (current_ ++ [⟨k,g,made⟩]) = Insert.insert (pack k g) (Committed current_) := by
  have next := upcoming.next
  ext x
  constructor
  · intro mem
    obtain ⟨k',g',low,one,before,same⟩ := mem
    by_cases mine : k' = k
    · subst mine
      rw [getNewest] at before
      by_cases newest : g' = g
      · exact .inl (newest ▸ same)
      · have earlier : g' ≤ get current_ k' := by
          simp only [UInt64.le_iff_toNat_le,← UInt64.toNat_inj] at *
          omega
        exact .inr ⟨k',g',low,one,earlier,same⟩
    · rw [getOther mine] at before
      exact .inr ⟨k',g',low,one,before,same⟩
  · intro mem
    rcases mem with same | ⟨k',g',low,one,before,same⟩
    · have one : 1 ≤ g := by
        simp only [UInt64.le_iff_toNat_le,UInt64.toNat_one]
        omega
      exact ⟨k,g,upcoming.low,one,by rw [getNewest]; exact UInt64.le_refl g,same⟩
    · by_cases mine : k' = k
      · subst mine
        have later : g' ≤ get (current_ ++ [⟨k',g,made⟩]) k' := by
          rw [getNewest]
          simp only [UInt64.le_iff_toNat_le] at *
          omega
        exact ⟨k',g',low,one,later,same⟩
      · exact ⟨k',g',low,one,by rwa [getOther mine],same⟩

end Generations

/- A key that may be in the list. -/
def Named (x : Key) : Prop := ∃ k g, k < K ∧ 1 ≤ g ∧ g < 0x80000000 ∧ x = pack k g

theorem namedTarget {x : Key} (named : Named x) :
    Point x ∧ key x < K ∧ gen x < 0x80000000 ∧ isValidKey x = true := by
  obtain ⟨k,g,low,_,room,same⟩ := named
  have fits : g ≤ 0xffffffff := UInt64.le_of_lt (UInt64.lt_trans room (by decide))
  have below := UInt64.le_of_lt low
  subst same
  rw [keyPack below fits,genPack below fits]
  exact ⟨pointPack below fits,low,room,validPack below fits⟩

/- The invariant. -/

def WritingAt (list_ : SkipList Key) (writer : Writer Key) (current_ : List Stored) : Writing → Prop
  | .idle => writer = .idle ∧ list_.linkedKeys = Committed current_
  | .inserting k g => Upcoming current_ k g ∧
    ((∃ op, op.key = pack k g ∧ writer.pending = .called (.insert op) ∧ list_.linkedKeys = Committed current_) ∨
      ((writer.pending = .done .inserted ∨ writer = .idle) ∧
        list_.linkedKeys = Insert.insert (pack k g) (Committed current_)))

structure Knows (list_ : SkipList Key) (initial : List UInt64) : Prop where
  whole : initial.length = K.toNat
  expected : Expected initial ⊆ list_.linkedKeys

def On (list_ : SkipList Key) (r : Reader Key) (pos : Key) : Prop := ∃ n, r.it.node_ = some n ∧ list_.Holds n pos

/- The iterator is not past anything that must not be missed. -/
def Faces (list_ : SkipList Key) (initial : List UInt64) (pos : Key) : Option Ptr → Prop
  | none => ∀ x ∈ Expected initial, ¬ pos ≤ x
  | some n => ∃ current, list_.Holds n current ∧ pos ≤ current ∧ Unmissed initial pos current

def ReadingAt (list_ : SkipList Key) (r : Reader Key) : Reading → Prop
  | .idle => r.phase = .idle
  | .remembering initial => r.phase = .idle ∧ initial.length ≤ K.toNat ∧ Expected initial ⊆ list_.linkedKeys
  | .seeking initial pos => Knows list_ initial ∧ Target pos ∧ r.seeking = some pos
  | .nexting initial pos => Knows list_ initial ∧ r.phase = .begin .next ∧ On list_ r pos
  | .arrived initial pos => Knows list_ initial ∧ r.phase = .idle ∧ Target pos ∧ Faces list_ initial pos r.it.node_
  | .choosing initial pos => Knows list_ initial ∧ r.phase = .idle ∧ On list_ r pos

/- Whoever loads a generation learns of the insertions up to it. -/
structure StoredAt (h : History (SkipList Key) Cell) (stored : Stored) : Prop where
  low : stored.k < K
  made : stored.made ≤ h.now
  linked : ∀ g, 1 ≤ g → g ≤ stored.g → pack stored.k g ∈ (h.memory stored.made).linkedKeys

variable {ι : Type}

structure Sound (s : Test ι) : Prop where
  lagging : ∃ orders, WeakThreads.Lagging compare orders s.threads
  stored : ∀ stored ∈ s.current_, StoredAt s.threads.history stored
  small : ∀ k, get s.current_ k < 0x80000000
  writing : WritingAt s.threads.list s.threads.writer s.current_ s.writing
  reading : ∀ i, ReadingAt (s.threads.known i) (s.threads.readers i) (s.readings i)

theorem committedNamed {current_ : List Stored} (small : ∀ k, get current_ k < 0x80000000) {x : Key}
    (mem : x ∈ Committed current_) : Named x := by
  obtain ⟨k,g,low,one,before,same⟩ := mem
  exact ⟨k,g,low,one,UInt64.lt_of_le_of_lt before (small k),same⟩

theorem upcomingNamed {current_ : List Stored} {k g : UInt64} (upcoming : Upcoming current_ k g) :
    Named (pack k g) := by
  have next := upcoming.next
  have one : 1 ≤ g := by
    simp only [UInt64.le_iff_toNat_le,UInt64.toNat_one]
    omega
  exact ⟨k,g,upcoming.low,one,upcoming.room,rfl⟩

theorem linkedNamed {s : Test ι} (sound : Sound s) {x : Key} (mem : x ∈ s.threads.list.linkedKeys) : Named x := by
  have writing := sound.writing
  have old : x ∈ Committed s.current_ → Named x := committedNamed sound.small
  cases phase : s.writing with
  | idle =>
    rw [phase] at writing
    exact old (writing.2 ▸ mem)
  | inserting k g =>
    rw [phase] at writing
    obtain ⟨upcoming,stage⟩ := writing
    rcases stage with ⟨_,_,_,keys⟩ | ⟨_,keys⟩
    · exact old (keys ▸ mem)
    · rw [keys] at mem
      rcases mem with same | before
      · exact same ▸ upcomingNamed upcoming
      · exact old before

theorem memoryNamed {s : Test ι} (sound : Sound s) {t : Nat} (made : t ≤ s.threads.history.now) {n : Ptr} {x : Key}
    (holds : (s.threads.history.memory t).Holds n x) : Named x := by
  obtain ⟨_,all⟩ := sound.lagging
  exact linkedNamed sound ⟨n,recordedHolds all.recorded made (Nat.le_refl _) n x holds⟩

theorem knownNamed {s : Test ι} (sound : Sound s) {i : ι} {n : Ptr} {x : Key} (holds : (s.threads.known i).Holds n x) :
    Named x := by
  obtain ⟨_,all⟩ := sound.lagging
  exact memoryNamed sound (all.seen i) holds

section Growing

variable {m m' : SkipList Key} {r : Reader Key}

theorem keysGrow (grows : ∀ x k, m.Holds x k → m'.Holds x k) : m.linkedKeys ⊆ m'.linkedKeys :=
  fun k mem => mem.imp fun x => grows x k

theorem knowsGrow (grows : ∀ x k, m.Holds x k → m'.Holds x k) {initial : List UInt64} (knows : Knows m initial) :
    Knows m' initial := ⟨knows.whole,knows.expected.trans (keysGrow grows)⟩

theorem onGrows (grows : ∀ x k, m.Holds x k → m'.Holds x k) {pos : Key} (on : On m r pos) : On m' r pos := by
  obtain ⟨n,at_,holds⟩ := on
  exact ⟨n,at_,grows n pos holds⟩

theorem readingGrows (grows : ∀ x k, m.Holds x k → m'.Holds x k) {reading : Reading} (here : ReadingAt m r reading) :
    ReadingAt m' r reading := by
  cases reading with
  | idle => exact here
  | remembering initial => exact ⟨here.1,here.2.1,here.2.2.trans (keysGrow grows)⟩
  | seeking initial pos => exact ⟨knowsGrow grows here.1,here.2⟩
  | nexting initial pos => exact ⟨knowsGrow grows here.1,here.2.1,onGrows grows here.2.2⟩
  | choosing initial pos => exact ⟨knowsGrow grows here.1,here.2.1,onGrows grows here.2.2⟩
  | arrived initial pos =>
    obtain ⟨knows,idle,target,faces⟩ := here
    refine ⟨knowsGrow grows knows,idle,target,?_⟩
    cases node : r.it.node_ with
    | none =>
      rw [node] at faces
      exact faces
    | some n =>
      rw [node] at faces
      obtain ⟨current,holds,rest⟩ := faces
      exact ⟨current,grows n current holds,rest⟩

theorem storedLater {h h' : History (SkipList Key) Cell} (now : h.now ≤ h'.now)
    (memory : ∀ n ≤ h.now, h'.memory n = h.memory n) {stored : Stored} (here : StoredAt h stored) :
    StoredAt h' stored := by
  refine ⟨here.low,Nat.le_trans here.made now,?_⟩
  rw [memory _ here.made]
  exact here.linked

end Growing

/- The writer's steps. -/

section Writing

variable {s : Test ι} [DecidableEq ι]

/- A step of the list that no reader makes. -/
theorem readingsKept (sound : Sound s) {e : WeakThreads.Event Key ι} {threads : WeakThreads Key ι}
    (step : WeakThreads.Step compare s.threads e threads) (same : threads.readers = s.threads.readers) (i : ι) :
    ReadingAt (threads.known i) (threads.readers i) (s.readings i) := by
  obtain ⟨_,all⟩ := sound.lagging
  obtain ⟨_,all',later⟩ := WeakThreads.stepLagging compareLawful all step
  rw [same]
  exact readingGrows (fun x k => WeakThreads.knownLater all.seen all' later i x k) (sound.reading i)

theorem insertSound (sound : Sound s) {k g : UInt64} {height : Nat} {threads : WeakThreads Key ι}
    (idle : s.writing = .idle) (upcoming : Upcoming s.current_ k g)
    (called : WeakThreads.Step compare s.threads (.insert ⟨pack k g,height⟩) threads) :
    Sound {s with threads, writing := .inserting k g} := by
  obtain ⟨_,all⟩ := sound.lagging
  obtain ⟨orders,all',_⟩ := WeakThreads.stepLagging compareLawful all called
  have writing := sound.writing
  rw [idle] at writing
  have kept : ∀ i, ReadingAt (threads.known i) (threads.readers i) (s.readings i) := by
    refine readingsKept sound called ?_
    cases called
    rfl
  cases called
  exact ⟨⟨orders,all'⟩,sound.stored,sound.small,⟨upcoming,.inl ⟨_,rfl,rfl,writing.2⟩⟩,kept⟩

theorem pendingStays {list_ list_' : SkipList Key} {w w' : Writer Key} {orders : List (Entry Key)}
    (steady : Steady compare list_ orders) (here : WriterAt compare list_ orders w)
    (run : w.step compare list_ = .ok (list_',w')) {current_ : List Stored} {writing : Writing}
    (at_ : WritingAt list_ w current_ writing) : WritingAt list_' w' current_ writing := by
  cases writing with
  | idle =>
    obtain ⟨idle,keys⟩ := at_
    subst idle
    cases Except.ok.inj run
    exact ⟨rfl,keys⟩
  | inserting k g =>
    obtain ⟨upcoming,stage⟩ := at_
    refine ⟨upcoming,?_⟩
    rcases writerLinks compareLawful steady here run with ⟨quiet,same⟩ | ⟨op',links,more,_⟩
    · rw [same]
      rcases quietPending here run quiet with ⟨_,pending⟩ | ⟨_,ended,stopped⟩
      · rcases stage with before | ⟨inserted,keys⟩
        · rw [pending]
          exact .inl before
        · refine .inr ⟨?_,keys⟩
          rcases inserted with done | idle
          · exact .inl (pending.trans done)
          · subst idle
            cases Except.ok.inj run
            exact .inr rfl
      · rcases stage with ⟨op,_,called,_⟩ | ⟨_,keys⟩
        · rw [ended] at called
          cases called
        · exact .inr ⟨.inr stopped,keys⟩
    · obtain ⟨called',ends⟩ := linksPending run links
      rcases stage with ⟨op,name,called,keys⟩ | ⟨inserted,_⟩
      · rw [called'] at called
        cases called
        refine .inr ⟨?_,by rw [more,keys,name]⟩
        rcases ends with ⟨_,done⟩ | ⟨_,stopped⟩
        · exact .inl done
        · exact .inr stopped
      · rcases inserted with done | idle
        · rw [called'] at done
          cases done
        · subst idle
          cases links

theorem writeSound (sound : Sound s) {threads : WeakThreads Key ι}
    (made : WeakThreads.Step compare s.threads .write threads) : Sound {s with threads} := by
  obtain ⟨orders,all⟩ := sound.lagging
  obtain ⟨orders',all',later⟩ := WeakThreads.stepLagging compareLawful all made
  have kept : ∀ i, ReadingAt (threads.known i) (threads.readers i) (s.readings i) := by
    refine readingsKept sound made ?_
    cases made
    rfl
  have stored : ∀ stored ∈ s.current_, StoredAt threads.history stored := fun stored mem =>
    storedLater later.now later.memory (sound.stored stored mem)
  have writing : WritingAt threads.list threads.writer s.current_ s.writing := by
    cases made with
    | write ok =>
      rename_i list writer
      have current : (record s.threads.history list (s.threads.writer.store s.threads.list)).current = list :=
        recordCurrent (stepStores ok)
      rw [WeakThreads.list,current]
      exact pendingStays (all.recorded.steady _ (Nat.le_refl _)) all.writer ok sound.writing
  exact ⟨⟨orders',all'⟩,stored,sound.small,writing,kept⟩

omit [DecidableEq ι] in
theorem storeSound (sound : Sound s) {k g : UInt64} (inserting : s.writing = .inserting k g)
    (returned : s.threads.writer = .idle) :
    Sound {s with current_ := s.current_ ++ [⟨k,g,s.threads.history.now⟩], writing := .idle} := by
  have writing := sound.writing
  rw [inserting] at writing
  obtain ⟨upcoming,stage⟩ := writing
  have keys : s.threads.list.linkedKeys = Insert.insert (pack k g) (Committed s.current_) := by
    rcases stage with ⟨_,_,called,_⟩ | ⟨_,keys⟩
    · rw [returned] at called
      cases called
    · exact keys
  have more := committedMore upcoming s.threads.history.now
  have here : StoredAt s.threads.history ⟨k,g,s.threads.history.now⟩ := by
    refine ⟨upcoming.low,Nat.le_refl _,?_⟩
    intro g' one before
    have mem : pack k g' ∈ Committed (s.current_ ++ [⟨k,g,s.threads.history.now⟩]) :=
      ⟨k,g',upcoming.low,one,by rw [getNewest]; exact before,rfl⟩
    rw [more,← keys] at mem
    exact mem
  have stored : ∀ stored ∈ s.current_ ++ [⟨k,g,s.threads.history.now⟩], StoredAt s.threads.history stored := by
    intro stored mem
    rcases List.mem_append.mp mem with old | new
    · exact sound.stored stored old
    · cases List.mem_singleton.mp new
      exact here
  exact ⟨sound.lagging,stored,upcomingSmall upcoming sound.small,⟨returned,keys.trans more.symm⟩,sound.reading⟩

end Writing

/- The readers' steps. -/

theorem targetMade (first second : UInt32) : ∃ pos, randomTarget first second = .ok pos ∧ Target pos := by
  have aimed : ∀ k, k ≤ K → ∃ pos, makeKey k 0 = .ok pos ∧ Target pos := fun k low =>
    have first := firstPoint low
    ⟨_,first.made,first.point,.inr first.gen⟩
  unfold randomTarget
  split
  · exact aimed 0 (by decide)
  · split
    · exact aimed K (UInt64.le_refl K)
    · refine aimed _ (UInt64.le_of_lt ?_)
      rw [UInt64.lt_iff_toNat_lt,UInt64.toNat_mod]
      exact Nat.mod_lt _ (by decide)

theorem loadIdle {h : History (SkipList Key) Cell} {v v' : View Cell} {t : Nat} {r r' : Reader Key}
    {back : Option (Return Key)} (ok : r.loadStep compare h v t = .ok (v',r',back)) (idle : r.phase = .idle) :
    v' = v ∧ r' = r ∧ back = none := by
  simp only [Reader.loadStep,idle] at ok
  cases Except.ok.inj ok
  exact ⟨rfl,rfl,rfl⟩

/- A call that has returned has left the reader idle. -/
theorem loadReturns {h : History (SkipList Key) Cell} {v v' : View Cell} {t : Nat} {r r' : Reader Key} {b : Return Key}
    (ok : r.loadStep compare h v t = .ok (v',r',some b)) : r'.phase = .idle := by
  obtain ⟨phase,it⟩ := r
  cases phase with
  | idle => cases Except.ok.inj ok
  | begin q =>
    cases q with
    | find kind target => cases Except.ok.inj ok
    | next =>
      cases on : it.node_ with
      | none => simp [Reader.loadStep,on] at ok
      | some n =>
        simp only [Reader.loadStep,on] at ok
        obtain ⟨_,_,last⟩ := Machine.okBind ok
        cases Except.ok.inj last
        rfl
  | find kind target search =>
    obtain ⟨_,_,rest⟩ := Machine.okBind ok
    obtain ⟨_,_,rest⟩ := Machine.okBind rest
    obtain ⟨round,_,rest⟩ := Machine.okBind rest
    cases round with
    | again => cases Except.ok.inj rest
    | done f =>
      obtain ⟨⟨_,_⟩,found,last⟩ := Machine.okBind rest
      cases Except.ok.inj last
      cases kind with
      | seek =>
        cases Except.ok.inj found
        rfl
      | contains =>
        obtain ⟨_,_,last⟩ := Machine.okBind found
        cases Except.ok.inj last
        rfl

theorem nextReturns {h : History (SkipList Key) Cell} {v v' : View Cell} {t : Nat} {r r' : Reader Key}
    {back : Option (Return Key)} {n : Ptr} (begun : r.phase = .begin .next) (on : r.it.node_ = some n)
    (ok : r.loadStep compare h v t = .ok (v',r',back)) :
    ∃ node_, back = some (.next n node_) ∧ r' = ⟨.idle,⟨node_⟩⟩ := by
  simp only [Reader.loadStep,begun,on] at ok
  obtain ⟨out,_,last⟩ := Machine.okBind ok
  cases Except.ok.inj last
  exact ⟨out.1,rfl,rfl⟩

section Arriving

variable {list_ : SkipList Key} {initial : List UInt64} {pos : Key}

theorem seekFaces (knows : Knows list_ initial) {node_ : Option Ptr}
    (answer : Answers compare list_ list_ (.seek pos node_)) : Faces list_ initial pos node_ := by
  cases node_ with
  | none => exact fun x mem from_ => answer x (knows.expected mem) ((compareFrom x pos).mpr from_)
  | some n =>
    obtain ⟨current,holds,behind,least⟩ := answer
    refine ⟨current,holds,(compareFrom current pos).mp behind,?_⟩
    intro x mem from_
    have notBefore := least x (knows.expected mem) ((compareFrom x pos).mpr from_)
    exact UInt64.not_lt.mp fun before => notBefore ((compareLess x current).mpr before)

theorem nextFaces (knows : Knows list_ initial) (named : ∀ n x, list_.Holds n x → Named x) {n : Ptr}
    (here : list_.Holds n pos) {z : Key} (following : Following pos z) {node_ : Option Ptr}
    (answer : Answers compare list_ list_ (.next n node_)) : Faces list_ initial z node_ := by
  obtain ⟨k,holds,finds⟩ := answer
  cases holdsKey here holds
  have behind : ∀ x, z ≤ x → compare pos x < 0 := fun x from_ =>
    (compareLess pos x).mpr (UInt64.lt_of_lt_of_le following.after from_)
  cases node_ with
  | none => exact fun x mem from_ => finds x (knows.expected mem) (behind x from_)
  | some n' =>
    obtain ⟨current,holds',after,least⟩ := finds
    have point := (namedTarget (named n' current holds')).1
    refine ⟨current,holds',following.least current point ((compareLess pos current).mp after),?_⟩
    intro x mem from_
    have notBefore := least x (knows.expected mem) (behind x from_)
    exact UInt64.not_lt.mp fun before => notBefore ((compareLess x current).mpr before)

theorem beforeEnd (target : Target pos) : pos ≤ pack K 0 := by
  have first := firstPoint (UInt64.le_refl K)
  apply UInt64.not_lt.mp
  intro past
  have order := (pointLess first.point target.point).mp past
  have low := target.point.low
  have last := target.last
  simp only [first.key,first.gen,UInt64.lt_iff_toNat_lt,UInt64.le_iff_toNat_le,← UInt64.toNat_inj,
    UInt64.toNat_zero] at *
  omega

theorem heldKey {it : Iterator} {n : Ptr} {x : Key} (on : it.node_ = some n) (holds : list_.Holds n x) :
    it.key list_ = .ok x := by
  obtain ⟨_,node,_,_,found,same⟩ := holds
  simp only [Iterator.key,on,found,same,bind,Except.bind]

/- No ASSERT fails. -/
theorem checkOk {r : Reader Key} (knows : Knows list_ initial) (idle : r.phase = .idle) (target : Target pos)
    (faces : Faces list_ initial pos r.it.node_) (named : ∀ n x, list_.Holds n x → Named x) :
    ∃ reading, check list_ r.it initial pos = .ok reading ∧ ReadingAt list_ r reading := by
  cases node : r.it.node_ with
  | none =>
    rw [node] at faces
    have first := firstPoint (UInt64.le_refl K)
    have invalid : r.it.valid = false := by rw [Iterator.valid,node]; rfl
    have whole := verifyOk knows.whole ⟨first.point,.inr first.gen⟩ target.point (beforeEnd target)
      fun x mem from_ => absurd from_ (faces x mem)
    refine ⟨.idle,?_,idle⟩
    simp only [check,currentOf,invalid,Bool.false_eq_true,if_false,first.made,if_pos (beforeEnd target),whole,bind,
      Except.bind]
  | some n =>
    rw [node] at faces
    obtain ⟨current,holds,within,unmissed⟩ := faces
    obtain ⟨point,low,_,accepted⟩ := namedTarget (named n current holds)
    have valid : r.it.valid = true := by rw [Iterator.valid,node]; rfl
    have whole := verifyOk knows.whole ⟨point,.inl low⟩ target.point within unmissed
    refine ⟨.choosing initial current,?_,knows,idle,n,node,holds⟩
    simp only [check,currentOf,valid,if_true,heldKey node holds,Except.mapError,accepted,if_pos within,whole,bind,
      Except.bind]

/- A load of a reader that seeks. -/
theorem seekingLoaded {m m' : SkipList Key} (grows : ∀ x k, m.Holds x k → m'.Holds x k) {r r' : Reader Key}
    {back : Option (Return Key)} {reading : Reading}
    (before : ReadingAt m r (.seeking initial pos)) (ends : Ends r r' back)
    (idles : ∀ b, back = some b → r'.phase = .idle) (answer : ∀ b, back = some b → Answers compare m' m' b)
    (returned : (Reading.seeking initial pos).returned back = .ok reading) : ReadingAt m' r' reading := by
  obtain ⟨knows,target,seeking⟩ := before
  have knows' := knowsGrow grows knows
  cases back with
  | none =>
    cases Except.ok.inj returned
    exact ⟨knows',target,ends.2.trans seeking⟩
  | some b =>
    cases Except.ok.inj returned
    cases b with
    | seek pos' node_ =>
      obtain ⟨was,_,it⟩ := ends
      cases Option.some.inj (seeking.symm.trans was)
      refine ⟨knows',idles _ rfl,target,?_⟩
      rw [it]
      exact seekFaces knows' (answer _ rfl)
    | contains | next => cases seeking.symm.trans ends.1

/- The load of a reader that goes on to the next node. -/
theorem nextingLoaded {m m' : SkipList Key} (grows : ∀ x k, m.Holds x k → m'.Holds x k)
    (named : ∀ n x, m'.Holds n x → Named x) {h : History (SkipList Key) Cell} {v v' : View Cell} {t : Nat}
    {r r' : Reader Key} {back : Option (Return Key)} {reading : Reading}
    (before : ReadingAt m r (.nexting initial pos)) (ok : r.loadStep compare h v t = .ok (v',r',back))
    (answer : ∀ b, back = some b → Answers compare m' m' b)
    (returned : (Reading.nexting initial pos).returned back = .ok reading) : ReadingAt m' r' reading := by
  obtain ⟨knows,begun,n,on,holds⟩ := before
  obtain ⟨node_,came,left⟩ := nextReturns begun on ok
  subst came left
  have knows' := knowsGrow grows knows
  obtain ⟨point,low,small,_⟩ := namedTarget (named n pos (grows n pos holds))
  have following := followingPoint point (UInt64.lt_trans small (by decide))
  simp only [Reading.returned,following.made,bind,Except.bind] at returned
  cases Except.ok.inj returned
  have target : Target (pack (key pos) (gen pos+1)) := ⟨following.point,.inl (by rw [following.key]; exact low)⟩
  exact ⟨knows',rfl,target,nextFaces knows' named (grows n pos holds) following (answer _ rfl)⟩

end Arriving

section Reading

variable {s : Test ι} [DecidableEq ι]

/- A step of reader i alone. -/
theorem setSound (sound : Sound s) {i : ι} {e : WeakThreads.Event Key ι} {v : View Cell} {r : Reader Key}
    {reading : Reading} (step : WeakThreads.Step compare s.threads e (s.threads.set i v r))
    (here : ReadingAt (s.threads.history.memory v.seen) r reading) : Sound (s.set i (s.threads.set i v r) reading) := by
  obtain ⟨_,all⟩ := sound.lagging
  obtain ⟨orders,all',_⟩ := WeakThreads.stepLagging compareLawful all step
  refine ⟨⟨orders,all'⟩,sound.stored,sound.small,sound.writing,?_⟩
  intro j
  by_cases mine : j = i
  · subst mine
    simpa [Test.set,WeakThreads.set,WeakThreads.known] using here
  · simpa [Test.set,WeakThreads.set,WeakThreads.known,mine] using sound.reading j

theorem localSound (sound : Sound s) {i : ι} {reading : Reading}
    (here : ReadingAt (s.threads.known i) (s.threads.readers i) reading) : Sound (s.set i s.threads reading) := by
  refine ⟨sound.lagging,sound.stored,sound.small,sound.writing,?_⟩
  intro j
  by_cases mine : j = i
  · subst mine
    simpa [Test.set] using here
  · simpa [Test.set,mine] using sound.reading j

theorem rememberSound (sound : Sound s) {i : ι} {initial : List UInt64} {k : UInt64} {stored : Option Stored}
    {threads : WeakThreads Key ι} (at_ : s.readings i = .remembering initial) (more : k < K)
    (place : k.toNat = initial.length) (loads : Test.Loads s.current_ k stored)
    (learns : WeakThreads.Step compare s.threads (.synchronise i ((stored.map Stored.made).getD 0)) threads) :
    Sound (s.set i threads (.remembering (initial ++ [(stored.map Stored.g).getD 0]))) := by
  obtain ⟨_,all⟩ := sound.lagging
  have before := sound.reading i
  rw [at_] at before
  obtain ⟨idle,_,expected⟩ := before
  cases learns with
  | synchronise made =>
    have bound : max (s.threads.views i).seen ((stored.map Stored.made).getD 0) ≤ s.threads.history.now :=
      Nat.max_le.mpr ⟨all.seen i,made⟩
    have grows := fun t (le : t ≤ max (s.threads.views i).seen ((stored.map Stored.made).getD 0)) =>
      keysGrow (recordedHolds all.recorded le bound)
    have short : (initial ++ [(stored.map Stored.g).getD 0]).length ≤ K.toNat := by
      rw [List.length_append,List.length_singleton,← place]
      exact UInt64.lt_iff_toNat_lt.mp more
    refine setSound sound (.synchronise made) ⟨idle,short,?_⟩
    intro x mem
    obtain ⟨k',last,g,low,found,one,le,same⟩ := mem
    by_cases old : k'.toNat < initial.length
    · rw [List.getElem?_append_left old] at found
      exact grows _ (Nat.le_max_left ..) (expected ⟨k',last,g,low,found,one,le,same⟩)
    · have new : k'.toNat = initial.length := by
        have inside := (List.getElem?_eq_some_iff.mp found).1
        rw [List.length_append,List.length_singleton] at inside
        omega
      have mine : k' = k := UInt64.toNat_inj.mp (new.trans place.symm)
      rw [new,List.getElem?_concat_length] at found
      cases Option.some.inj found
      subst mine same
      cases stored with
      | none => exact absurd (UInt64.le_trans one le) (by decide)
      | some stored =>
        obtain ⟨mem,name⟩ := loads
        subst name
        exact grows _ (Nat.le_max_right ..) ((sound.stored stored mem).linked g one le)

theorem callSound (sound : Sound s) {i : ι} {q : Query Key} {reading : Reading} {threads : WeakThreads Key ι}
    (called : WeakThreads.Step compare s.threads (.call i q) threads)
    (here : ReadingAt (s.threads.known i) {s.threads.readers i with phase := .begin q} reading) :
    Sound (s.set i threads reading) := by
  cases called with
  | call idle valid => exact setSound sound (.call idle valid) here

theorem loadSound (sound : Sound s) {i : ι} {t : Nat} {back : Option (Return Key)} {reading : Reading}
    {threads : WeakThreads Key ι} (made : WeakThreads.Step compare s.threads (.read i t back) threads)
    (returned : (s.readings i).returned back = .ok reading) : Sound (s.set i threads reading) := by
  obtain ⟨_,all⟩ := sound.lagging
  have before := sound.reading i
  have answer : ∀ b, back = some b → Answers compare (threads.known i) (threads.known i) b := by
    intro b same
    subst same
    exact WeakThreads.readExact compareLawful all made
  have step := made
  cases made with
  | read allows ok =>
    rename_i v r
    obtain ⟨_,_,_,run,loaded⟩ := loadMoves compareLawful all.recorded (all.seen i) (all.readers i) allows
    cases Except.ok.inj (ok.symm.trans run)
    obtain ⟨_,_,moved⟩ := loaded.moved
    have grows : ∀ x k, (s.threads.known i).Holds x k → (s.threads.history.memory v.seen).Holds x k :=
      recordedHolds all.recorded loaded.later loaded.made
    have known : (s.threads.set i v r).known i = s.threads.history.memory v.seen := by
      simp [WeakThreads.known,WeakThreads.set]
    rw [known] at answer
    have named : ∀ n x, (s.threads.history.memory v.seen).Holds n x → Named x := fun n x =>
      memoryNamed sound loaded.made
    refine setSound sound step ?_
    have rests : (s.threads.readers i).phase = .idle → (s.readings i).returned none = .ok (s.readings i) →
        ReadingAt (s.threads.history.memory v.seen) r reading := by
      intro idle still
      obtain ⟨_,same,none⟩ := loadIdle ok idle
      subst same none
      cases Except.ok.inj (still.symm.trans returned)
      exact readingGrows grows before
    cases at_ : s.readings i with
    | idle =>
      rw [at_] at rests before
      exact rests before rfl
    | remembering initial =>
      rw [at_] at rests before
      exact rests before.1 rfl
    | arrived initial pos | choosing initial pos =>
      rw [at_] at rests before
      exact rests before.2.1 rfl
    | seeking initial pos =>
      rw [at_] at before returned
      exact seekingLoaded grows before moved.ends (fun b same => loadReturns (same ▸ ok)) answer returned
    | nexting initial pos =>
      rw [at_] at before returned
      exact nextingLoaded grows named before ok answer returned

omit [DecidableEq ι] in
theorem onTarget (sound : Sound s) {i : ι} {pos : Key} (on : On (s.threads.known i) (s.threads.readers i) pos) :
    Target pos := by
  obtain ⟨n,_,holds⟩ := on
  obtain ⟨point,low,_⟩ := namedTarget (knownNamed sound holds)
  exact ⟨point,.inl low⟩

/- Where the iterator stands at pos, nothing is missed before it. -/
theorem onFaces {list_ : SkipList Key} {initial : List UInt64} {r : Reader Key} {pos : Key} (on : On list_ r pos) :
    Faces list_ initial pos r.it.node_ := by
  obtain ⟨n,node,holds⟩ := on
  rw [node]
  exact ⟨pos,holds,UInt64.le_refl pos,fun _ _ from_ => from_⟩

theorem stepSound (sound : Sound s) {e : Test.Event ι} {t : Test ι} (step : Test.Step s e t) : Sound t := by
  cases step with
  | writeStep idle picked next room made called =>
    rename_i drawn height k g x threads
    subst picked
    have upcoming := drawnUpcoming drawn sound.small next room
    have same : makeKey _ g = .ok (pack _ g) := if_pos ⟨UInt64.le_of_lt upcoming.low,upcomingFits upcoming⟩
    cases Except.ok.inj (made.symm.trans same)
    exact insertSound sound idle upcoming called
  | write made => exact writeSound sound made
  | store inserting returned => exact storeSound sound inserting returned
  | readStep idle =>
    rename_i i
    have before := sound.reading i
    rw [idle] at before
    refine localSound sound ⟨before,Nat.zero_le _,?_⟩
    intro x mem
    obtain ⟨_,_,_,_,found,_⟩ := mem
    cases found
  | remember here more place loads learns => exact rememberSound sound here more place loads learns
  | aim here whole target called =>
    rename_i i first second initial pos threads
    have before := sound.reading i
    rw [here] at before
    obtain ⟨pos',aimed,place⟩ := targetMade first second
    cases Except.ok.inj (target.symm.trans aimed)
    exact callSound sound called ⟨⟨whole,before.2.2⟩,place,rfl⟩
  | load made returned => exact loadSound sound made returned
  | check here passed =>
    rename_i i initial pos r
    have before := sound.reading i
    rw [here] at before
    obtain ⟨knows,idle,target,faces⟩ := before
    obtain ⟨r',run,after⟩ := checkOk knows idle target faces fun _ _ => knownNamed sound
    cases Except.ok.inj (passed.symm.trans run)
    exact localSound sound after
  | next here called =>
    rename_i i initial pos threads
    have before := sound.reading i
    rw [here] at before
    exact callSound sound called ⟨before.1,rfl,before.2.2⟩
  | forward here target ahead called =>
    rename_i i first second initial pos new_target threads
    have before := sound.reading i
    rw [here] at before
    obtain ⟨pos',aimed,place⟩ := targetMade first second
    cases Except.ok.inj (target.symm.trans aimed)
    exact callSound sound called ⟨before.1,place,rfl⟩
  | stay here target behind =>
    rename_i i first second initial pos new_target
    have before := sound.reading i
    rw [here] at before
    exact localSound sound ⟨before.1,before.2.1,onTarget sound before.2.2,onFaces before.2.2⟩

theorem runSound (sound : Sound s) {es : List (Test.Event ι)} {t : Test ι} (run : Machine.Run Test.Step s es t) :
    Sound t := by
  induction run with
  | nil => exact sound
  | cons head tail ih => exact ih (stepSound sound head)

end Reading

/- Each thread's next step can be made, so no assertion fails in it, no list operation
faults, and no operation of the list is called where its caller may not call it. -/

def Goes [DecidableEq ι] (s : Test ι) (i : ι) : Reading → Prop
  | .idle => ∃ t, Test.Step s (.readStep i) t
  | .remembering initial =>
    (∀ k stored, k < K → k.toNat = initial.length → Test.Loads s.current_ k stored →
      ∃ t, Test.Step s (.remember i stored) t) ∧
    (initial.length = K.toNat → ∀ first second, ∃ t, Test.Step s (.aim i first second) t)
  | .seeking _ _ | .nexting _ _ => (s.threads.readers i).phase ≠ .idle
  | .arrived _ _ => ∃ t, Test.Step s (.check i) t
  | .choosing _ _ => (∃ t, Test.Step s (.next i) t) ∧ ∀ first second, ∃ t, Test.Step s (.target i first second) t

structure Passing [DecidableEq ι] (s : Test ι) : Prop where
  inserts : s.writing = .idle → ∀ drawn height, get s.current_ (drawn.toUInt64 % K)+1 < 0x80000000 → 1 ≤ height →
    height ≤ s_max_height_ → ∃ t, Test.Step s (.writeStep drawn height) t
  writes : ∃ t, Test.Step s .write t
  loads : ∀ i n, (∀ c, (s.threads.readers i).cell = some c → (s.threads.views i).Allows s.threads.history c n) →
    ∃ back t, Test.Step s (.load i n back) t
  goes : ∀ i, Goes s i (s.readings i)

section Passing

variable {s : Test ι} [DecidableEq ι]

theorem soundInserts (sound : Sound s) (idle : s.writing = .idle) (drawn : UInt32) {height : Nat}
    (room : get s.current_ (drawn.toUInt64 % K)+1 < 0x80000000) (one : 1 ≤ height) (low : height ≤ s_max_height_) :
    ∃ t, Test.Step s (.writeStep drawn height) t := by
  have writing := sound.writing
  rw [idle] at writing
  obtain ⟨free,keys⟩ := writing
  have upcoming := drawnUpcoming drawn sound.small rfl room
  have made : makeKey (drawn.toUInt64 % K) (get s.current_ (drawn.toUInt64 % K)+1) = .ok (pack _ _) :=
    if_pos ⟨UInt64.le_of_lt upcoming.low,upcomingFits upcoming⟩
  have unused := upcomingFresh upcoming sound.small
  rw [← keys] at unused
  have fresh : ∀ x ∈ s.threads.list.linkedKeys,
      compare (pack (drawn.toUInt64 % K) (get s.current_ (drawn.toUInt64 % K)+1)) x ≠ 0 :=
    fun x mem => (compareApart _ x).mpr fun same => unused (same ▸ mem)
  exact ⟨_,.writeStep idle rfl rfl room made (.insert free fresh one low)⟩

theorem soundLoads (sound : Sound s) {i : ι} {n : Nat}
    (allows : ∀ c, (s.threads.readers i).cell = some c → (s.threads.views i).Allows s.threads.history c n) :
    ∃ back t, Test.Step s (.load i n back) t := by
  obtain ⟨_,all⟩ := sound.lagging
  obtain ⟨v,r,back,run,_⟩ := loadMoves compareLawful all.recorded (all.seen i) (all.readers i) allows
  have returns : ∃ reading, (s.readings i).returned back = .ok reading := by
    have before := sound.reading i
    cases at_ : s.readings i with
    | idle | remembering | arrived | choosing => exact ⟨_,rfl⟩
    | seeking initial pos =>
      cases back with
      | none => exact ⟨_,rfl⟩
      | some b => exact ⟨_,rfl⟩
    | nexting initial pos =>
      rw [at_] at before
      obtain ⟨_,_,_,_,holds⟩ := before
      obtain ⟨point,_,small,_⟩ := namedTarget (knownNamed sound holds)
      have following := followingPoint point (UInt64.lt_trans small (by decide))
      cases back with
      | none => exact ⟨_,rfl⟩
      | some b =>
        simp only [Reading.returned,following.made,bind,Except.bind]
        exact ⟨_,rfl⟩
  obtain ⟨reading,returned⟩ := returns
  exact ⟨back,_,.load (.read allows run) returned⟩

omit [DecidableEq ι] in
theorem storedMade (sound : Sound s) {k : UInt64} {stored : Option Stored} (loads : Test.Loads s.current_ k stored) :
    (stored.map Stored.made).getD 0 ≤ s.threads.history.now := by
  cases stored with
  | none => exact Nat.zero_le _
  | some stored => exact (sound.stored stored loads.1).made

theorem soundGoes (sound : Sound s) (i : ι) : Goes s i (s.readings i) := by
  have before := sound.reading i
  cases at_ : s.readings i with
  | idle => exact ⟨_,.readStep at_⟩
  | remembering initial =>
    rw [at_] at before
    refine ⟨?_,?_⟩
    · intro k stored low place loads
      exact ⟨_,.remember at_ low place loads (.synchronise (storedMade sound loads))⟩
    · intro whole first second
      obtain ⟨pos,target,_⟩ := targetMade first second
      exact ⟨_,.aim at_ whole target (.call before.1 nofun)⟩
  | seeking initial pos =>
    rw [at_] at before
    intro idle
    have seeking := before.2.2
    simp [Reader.seeking,idle] at seeking
  | nexting initial pos =>
    rw [at_] at before
    intro idle
    cases idle.symm.trans before.2.1
  | arrived initial pos =>
    rw [at_] at before
    obtain ⟨knows,idle,target,faces⟩ := before
    obtain ⟨r,run,_⟩ := checkOk knows idle target faces fun _ _ => knownNamed sound
    exact ⟨_,.check at_ run⟩
  | choosing initial pos =>
    rw [at_] at before
    obtain ⟨_,idle,n,node,_⟩ := before
    refine ⟨⟨_,.next at_ (.call idle fun _ => by rw [Iterator.valid,node]; rfl)⟩,?_⟩
    intro first second
    obtain ⟨new_target,target,_⟩ := targetMade first second
    by_cases ahead : new_target > pos
    · exact ⟨_,.forward at_ target ahead (.call idle nofun)⟩
    · exact ⟨_,.stay at_ target ahead⟩

theorem soundPassing (sound : Sound s) : Passing s := by
  obtain ⟨_,all⟩ := sound.lagging
  obtain ⟨_,_,_,wrote,_⟩ := writerMoves compareLawful (all.recorded.steady _ (Nat.le_refl _)) all.writer
  exact ⟨fun idle drawn _ => soundInserts sound idle drawn,⟨_,.write (.write wrote)⟩,fun _ _ => soundLoads sound,
    soundGoes sound⟩

omit [DecidableEq ι] in
theorem newSound (zero : Key) : ∃ s0 : Test ι, Test.new zero = .ok s0 ∧ Sound s0 := by
  have begins : ∃ threads : WeakThreads Key ι, WeakThreads.new zero = .ok threads ∧
      WeakThreads.Lagging compare (fun _ => []) threads ∧ threads.writer = .idle :=
    WeakThreads.startLagging compare zero
  obtain ⟨threads,fresh,all,idle⟩ := begins
  have new : Test.new zero = .ok ⟨threads,[],.idle,fun _ => .idle⟩ := by
    simp only [Test.new,fresh,bind,Except.bind]
  have empty : threads.list.linkedKeys = Committed [] := by
    refine (linkedKeysOf (all.recorded.steady _ (Nat.le_refl _)).linked).trans ?_
    ext x
    constructor
    · intro mem
      obtain ⟨_,none,_⟩ := mem
      cases none
    · intro mem
      obtain ⟨k,g,_,one,before,_⟩ := mem
      have never : (1 : UInt64) ≤ 0 := UInt64.le_trans one before
      exact absurd never (by decide)
  have quiet : ∀ i, (threads.readers i).phase = .idle := by
    obtain ⟨list,_,last⟩ := Machine.okBind fresh
    cases Except.ok.inj last
    exact fun _ => rfl
  exact ⟨_,new,⟨_,all⟩,by simp,fun _ => by simp [get],⟨idle,empty⟩,quiet⟩

end Passing

/-- No run of the test fails in which no generation goes past 2^31-1, the largest value
of the int that holds it. Whatever numbers are drawn, however the writer and the
readers interleave, whichever store each load takes within C++'s rules: no ASSERT
fails, so no reader misses what was published when it began, and the list is only
called as it may be. -/
theorem concurrentTestPasses [DecidableEq ι] (zero : Key) : ∃ s0 : Test ι, Test.new zero = .ok s0 ∧
    ∀ es s, Machine.Run Test.Step s0 es s → Passing s := by
  obtain ⟨s0,start,sound⟩ := newSound (ι := ι) zero
  exact ⟨s0,start,fun es s run => soundPassing (runSound sound run)⟩

end KVStorage.ConcurrentTest
