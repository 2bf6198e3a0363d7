import KVStorage.SkipListMemoryOrder

/-! What the stores of the writer keep for a reader that lags behind. The list
after any number of stores is linked, later ones only grow, and a relaxed store
hits a cell of a node that is not on that level yet; so a load of a linked node
always acquires, and with its keys reads one list that the writer went through. -/
namespace KVStorage.SkipList

open Support Support.ReleaseAcquire

variable {Key ι : Type} {compare_ : Key → Key → Int}
variable {m m' : SkipList Key} {order : List (Entry Key)}

/- Node x takes part in level i. -/
def OnChain (m : SkipList Key) (i : Nat) (x : Ptr) : Prop :=
  x = head_ ∨ ∃ l, Chain.Spells (m.link i) head_ l ∧ x ∈ l

theorem onChainIff (linked : Linked compare_ m order) {i : Nat} (low : i < s_max_height_) {x : Ptr} :
    OnChain m i x ↔ x = head_ ∨ ∃ e ∈ order, e.ptr = x ∧ i < e.linked := by
  have spells := linked.chains i low
  constructor
  · intro on
    rcases on with head | ⟨l,here,mem⟩
    · exact .inl head
    · cases Chain.unique nextFunctional here spells
      exact .inr (memChain.mp mem)
  · intro on
    rcases on with head | entry
    · exact .inl head
    · exact .inr ⟨_,spells,memChain.mpr entry⟩

/- The writer's steps. -/

theorem stepStores {w w' : Writer Key} (run : w.step compare_ m = .ok (m',w')) (quiet : w.store m = none) : m' = m := by
  cases w with
  | idle | begin =>
    cases Except.ok.inj run
    rfl
  | find op s =>
    obtain ⟨round,_,rest⟩ := Machine.okBind run
    cases round with
    | again t =>
      cases Except.ok.inj rest
      rfl
    | done f =>
      obtain ⟨_,_,last⟩ := Machine.okBind rest
      cases Except.ok.inj last
      rfl
  | compareHeight op prev =>
    simp only [Writer.step] at run
    split at run <;> cases Except.ok.inj run <;> rfl
  | fillPrev op prev =>
    obtain ⟨_,_,last⟩ := Machine.okBind run
    cases Except.ok.inj last
    rfl
  | storeMaxHeight | newNode | storeOwn => contradiction
  | loadNext op prev x i =>
    obtain ⟨_,_,rest⟩ := Machine.okBind run
    obtain ⟨_,_,last⟩ := Machine.okBind rest
    cases Except.ok.inj last
    rfl
  | storePrev op prev x i =>
    obtain ⟨p,read,_⟩ := Machine.okBind run
    simp [Writer.store,read] at quiet

theorem insertAccepted {w : Writer Key} {op : Insertion Key} (here : WriterAt compare_ m order w) (idle : w = .idle)
    (fresh : ∀ k ∈ m.linkedKeys, compare_ op.key k ≠ 0) (one : 1 ≤ op.height) (low : op.height ≤ s_max_height_) :
    WriterAt compare_ m order (.begin op) := by
  subst idle
  have rep : Represents compare_ m order := here
  have new : ∀ d ∈ order, compare_ op.key d.key ≠ 0 := fun d mem =>
    fresh d.key ⟨d.ptr,(holdsIff rep.linked).mpr ⟨d,mem,(rep.full d mem).2,rfl,rfl⟩⟩
  exact ⟨rep,new,one,low⟩

/- A node that was just made has no cell that can be loaded. -/
theorem newNodeNext (key : Key) (height : Nat) (x : Ptr) (i : Nat) :
    (m.newNode key height).1.next x i = m.next x i := by
  rcases Nat.lt_trichotomy x m.nodes.length with old | same | beyond
  · have kept : (m.nodes ++ [⟨key,List.replicate height none⟩])[x]? = m.nodes[x]? := List.getElem?_append_left old
    simp only [next,node,newNode,kept]
  · have fresh : (m.nodes ++ [⟨key,List.replicate height none⟩])[x]? = some ⟨key,List.replicate height none⟩ := by
      simp [same]
    have absent : m.nodes[x]? = none := List.getElem?_eq_none (Nat.le_of_eq same.symm)
    by_cases inside : i < height
    · simp [next,node,newNode,fresh,absent,bind,Except.bind,inside]
    · simp [next,node,newNode,fresh,absent,bind,Except.bind,inside]
  · have absent : m.nodes[x]? = none := List.getElem?_eq_none (Nat.le_of_lt beyond)
    have still : (m.nodes ++ [⟨key,List.replicate height none⟩])[x]? = none :=
      List.getElem?_eq_none (by rw [List.length_append,List.length_singleton]; exact beyond)
    simp only [next,node,newNode,still,absent]

theorem stepFrames {w w' : Writer Key} {c : Cell} {o : Order} (run : w.step compare_ m = .ok (m',w'))
    (stores : w.store m = some (c,o)) {x : Ptr} {i : Nat} (other : c ≠ .next x i) : m'.next x i = m.next x i := by
  cases w with
  | idle | begin | find | compareHeight | fillPrev | loadNext => contradiction
  | storeMaxHeight op prev =>
    cases Except.ok.inj run
    rfl
  | newNode op prev =>
    cases Except.ok.inj run
    exact newNodeNext ..
  | storeOwn op prev y j after =>
    obtain ⟨m1,store,last⟩ := Machine.okBind run
    cases Except.ok.inj last
    cases Option.some.inj stores
    exact (setNextStored store).others x i (fun same => other (by rw [same.1,same.2]))
  | storePrev op prev y j =>
    obtain ⟨p,read,rest⟩ := Machine.okBind run
    obtain ⟨m1,store,last⟩ := Machine.okBind rest
    cases Except.ok.inj last
    simp only [Writer.store,read] at stores
    cases Option.some.inj stores
    exact (setNextStored store).others x i (fun same => other (by rw [same.1,same.2]))

/- A store that does not release hits a cell of the new node, on a level that
does not hold it yet. -/
theorem stepReleases (lawful : ThreeWay.Lawful compare_) {w w' : Writer Key} {o : Order} {x : Ptr} {i : Nat}
    (run : w.step compare_ m = .ok (m',w')) (steady : Steady compare_ m' order) (here : WriterAt compare_ m' order w')
    (stores : w.store m = some (.next x i,o)) (weak : o ≠ .release) (low : i < s_max_height_) : ¬ OnChain m' i x := by
  cases w with
  | idle | begin | find | compareHeight | fillPrev | loadNext | storeMaxHeight | newNode => cases stores
  | storePrev op prev y j =>
    obtain ⟨p,read,_⟩ := Machine.okBind run
    simp only [Writer.store,read] at stores
    cases Option.some.inj stores
    exact absurd rfl weak
  | storeOwn op prev y j after =>
    obtain ⟨m1,_,last⟩ := Machine.okBind run
    cases Except.ok.inj last
    cases Option.some.inj stores
    obtain ⟨a,b,linking,_⟩ := here
    have linked := steady.linked
    rw [linking.place] at linked
    have outside := notInChain lawful linked rfl
    intro on
    rcases (onChainIff linked low).mp on with head | entry
    · exact outside (by simp [head])
    · exact outside (List.mem_cons_of_mem _ (memChain.mpr entry))

/- The lists that the stores went through. -/
structure Recorded (compare_ : Key → Key → Int) (h : History (SkipList Key) Cell)
    (orders : Nat → List (Entry Key)) : Prop where
  steady : ∀ n ≤ h.now, Steady compare_ (h.memory n) (orders n)
  grows : ∀ n n', n ≤ n' → n' ≤ h.now → Grows (orders n) (orders n')
  framed : ∀ x i, Framed h (.next x i) (fun m : SkipList Key => m.next x i)
  releases : ∀ (k : Nat) (s : Store (SkipList Key) Cell) x i, h.stores[k]? = some s → s.location = .next x i →
    i < s_max_height_ → s.order ≠ .release → ¬ OnChain s.after i x

variable {h : History (SkipList Key) Cell} {orders : Nat → List (Entry Key)}

theorem newRecorded (rep : Represents compare_ m []) : Recorded compare_ ⟨m,[]⟩ (fun _ => []) := by
  refine ⟨?_,fun _ _ _ _ => growsSelf [],by simp [Framed],by simp⟩
  intro n made
  cases Nat.le_zero.mp made
  exact representsSteady rep

theorem recordNow (h : History (SkipList Key) Cell) (m : SkipList Key) (o : Option (Cell × Order)) :
    h.now ≤ (record h m o).now ∧ (record h m o).now ≤ h.now+1 := by
  cases o with
  | none => exact ⟨Nat.le_refl _,Nat.le_succ _⟩
  | some store =>
    rw [record,nowWrite]
    exact ⟨Nat.le_succ _,Nat.le_refl _⟩

theorem recordMemory (m : SkipList Key) (o : Option (Cell × Order)) {n : Nat} (old : n ≤ h.now) :
    (record h m o).memory n = h.memory n := by
  cases o with
  | none => rfl
  | some store => exact memoryWrite old

theorem recordCurrent {o : Option (Cell × Order)} (quiet : o = none → m = h.current) :
    (record h m o).current = m := by
  cases o with
  | none => exact (quiet rfl).symm
  | some store => exact currentWrite

theorem recordFramed {w w' : Writer Key} (framed : ∀ x i, Framed h (.next x i) (fun m : SkipList Key => m.next x i))
    (run : w.step compare_ h.current = .ok (m',w')) (x : Ptr) (i : Nat) :
    Framed (record h m' (w.store h.current)) (.next x i) (fun m : SkipList Key => m.next x i) := by
  cases stores : w.store h.current with
  | none => exact framed x i
  | some store => exact framedWrite (framed x i) (fun other => stepFrames run stores other)

theorem recordReleases (lawful : ThreeWay.Lawful compare_) {w w' : Writer Key} (recorded : Recorded compare_ h orders)
    (run : w.step compare_ h.current = .ok (m',w')) (steady : Steady compare_ m' order)
    (here : WriterAt compare_ m' order w') (k : Nat) (s : Store (SkipList Key) Cell) (x : Ptr) (i : Nat)
    (made : (record h m' (w.store h.current)).stores[k]? = some s) (hits : s.location = .next x i)
    (low : i < s_max_height_) (weak : s.order ≠ .release) : ¬ OnChain s.after i x := by
  cases stores : w.store h.current with
  | none =>
    rw [stores] at made
    exact recorded.releases k s x i made hits low weak
  | some store =>
    rw [stores] at made
    rcases storesWrite made with old | ⟨_,rfl⟩
    · exact recorded.releases k s x i old hits low weak
    · have cell : w.store h.current = some (.next x i,store.2) := by rw [stores,← hits]
      exact stepReleases lawful run steady here cell weak low

/- The order of the latest list is the one to change: by a store there is a later
list, and without one the writer may have made a node that is on no level yet. -/
theorem recordedStep (lawful : ThreeWay.Lawful compare_) {w w' : Writer Key} (recorded : Recorded compare_ h orders)
    (here : WriterAt compare_ h.current (orders h.now) w) (run : w.step compare_ h.current = .ok (m',w')) :
    ∃ orders', Recorded compare_ (record h m' (w.store h.current)) orders' ∧
      WriterAt compare_ m' (orders' (record h m' (w.store h.current)).now) w' ∧
      ∀ n ≤ h.now, Grows (orders n) (orders' n) := by
  obtain ⟨m1,w1,order,run1,steady,there,grows⟩ :=
    writerMoves lawful (recorded.steady h.now (Nat.le_refl _)) here
  cases Except.ok.inj (run.symm.trans run1)
  have now := recordNow h m' (w.store h.current)
  have current : (record h m' (w.store h.current)).current = m' := recordCurrent (stepStores run)
  have framed := recordFramed recorded.framed run
  have releases := recordReleases lawful recorded run steady there
  have memory : ∀ n ≤ h.now, (record h m' (w.store h.current)).memory n = h.memory n :=
    fun n old => recordMemory m' _ old
  generalize record h m' (w.store h.current) = h' at now current framed releases memory ⊢
  have toLast : ∀ n ≤ h.now, Grows (orders n) order :=
    fun n old => growsTrans (recorded.grows n h.now old (Nat.le_refl _)) grows
  refine ⟨Function.update orders h'.now order,⟨?_,?_,framed,releases⟩,by rwa [Function.update_self],?_⟩
  · intro n made
    by_cases last : n = h'.now
    · rw [last,Function.update_self,← History.current,current]
      exact steady
    · have old : n ≤ h.now := by omega
      rw [Function.update_of_ne last,memory n old]
      exact recorded.steady n old
  · intro n n' le made
    by_cases last : n' = h'.now
    · subst last
      rw [Function.update_self]
      by_cases same : n = h'.now
      · rw [same,Function.update_self]
        exact growsSelf order
      · rw [Function.update_of_ne same]
        exact toLast n (by omega)
    · rw [Function.update_of_ne last,Function.update_of_ne (by omega : n ≠ h'.now)]
      exact recorded.grows n n' le (by omega)
  · intro n old
    by_cases last : n = h'.now
    · rw [last,Function.update_self]
      exact toLast _ (last ▸ old)
    · rw [Function.update_of_ne last]
      exact growsSelf _

/- Readers. -/

variable {v : View Cell} {t : Nat}

theorem onChainGrows {order' : List (Entry Key)} (linked : Linked compare_ m order)
    (linked' : Linked compare_ m' order')
    (grows : Grows order order') {x : Ptr} {i : Nat} (low : i < s_max_height_) (on : OnChain m i x) :
    OnChain m' i x := by
  rcases (onChainIff linked low).mp on with head | ⟨e,mem,ptr,tall⟩
  · exact .inl head
  · obtain ⟨d,mem',ptr',_,le⟩ := grows e mem
    exact (onChainIff linked' low).mpr (.inr ⟨d,mem',ptr'.trans ptr,Nat.lt_of_lt_of_le tall le⟩)

theorem onChainNode (linked : Linked compare_ m order) {x : Ptr} {i : Nat} (low : i < s_max_height_)
    (on : OnChain m i x) : ∃ node, m.node x = .ok node := by
  have shape : ∃ k h, m.shapes[x]? = some (k,h) := by
    rcases (onChainIff linked low).mp on with rfl | ⟨e,mem,rfl,_⟩
    · obtain ⟨k,shape⟩ := linked.headShape
      exact ⟨k,_,shape⟩
    · obtain ⟨h,shape,_⟩ := linked.shaped e mem
      exact ⟨e.key,h,shape⟩
  obtain ⟨k,h,shape⟩ := shape
  obtain ⟨node,found,_⟩ := nodeOfShape shape
  exact ⟨node,found⟩

/- A load from a node that the reader knows to be linked is a load from the list
it knows of afterwards. -/
theorem loadNextKnown (recorded : Recorded compare_ h orders) {x : Ptr} {i : Nat} (low : i < s_max_height_)
    (allows : v.Allows h (.next x i) t) (on : OnChain (h.memory v.seen) i x) {y : Option Ptr}
    (ok : (h.memory (v.acquire h (.next x i) t).seen).next x i = .ok y) :
    loadNext h v t x i = .ok (y,v.acquire h (.next x i) t) := by
  have known := Nat.le_trans allows.seen allows.now
  have releases : ∀ (k : Nat) s, v.seen ≤ k → h.stores[k]? = some s → s.location = .next x i →
      s.order = .release := by
    intro k s later made hits
    by_contra weak
    have bound : k+1 ≤ h.now := (List.getElem?_eq_some_iff.mp made).1
    have after : h.memory (k+1) = s.after := by
      simp only [History.memory,made,Option.map_some,Option.getD_some]
    have grows := recorded.grows v.seen (k+1) (by omega) bound
    have still := onChainGrows (recorded.steady v.seen known).linked (recorded.steady (k+1) bound).linked grows low on
    rw [after] at still
    exact recorded.releases k s x i made hits low weak still
  have same := acquireReads (recorded.framed x i) allows releases
  obtain ⟨node,found⟩ := onChainNode (recorded.steady v.seen known).linked low on
  simp only [loadNext,found,← same,ok,bind,Except.bind]

/- What a step of a reader does, in terms of the list it knows of afterwards. The
height that a search starts from may be that of another list. -/
structure Loaded (compare_ : Key → Key → Int) (h : History (SkipList Key) Cell) (orders : Nat → List (Entry Key))
    (v v' : View Cell) (r r' : Reader Key) (back : Option (Return Key)) : Prop where
  later : v.seen ≤ v'.seen
  made : v'.seen ≤ h.now
  moved : ∃ m, m.nodes = (h.memory v'.seen).nodes ∧ ReaderMoved compare_ m (orders v'.seen) r r' back

theorem standsOnChain {p : Key → Bool} {i : Nat} {x : Ptr} (linked : Linked compare_ m order) (low : i < s_max_height_)
    (stands : Stands order p i x) : OnChain m i x := by
  refine (onChainIff linked low).mpr ?_
  rcases stands with head | ⟨e,mem,ptr,tall,_⟩
  · exact .inl head
  · exact .inr ⟨e,mem,ptr,tall⟩

theorem loadMoves (lawful : ThreeWay.Lawful compare_) (recorded : Recorded compare_ h orders) {r : Reader Key}
    (seen : v.seen ≤ h.now) (here : ReaderAt compare_ (orders v.seen) r)
    (allows : ∀ c, r.cell = some c → v.Allows h c t) :
    ∃ v' r' back, r.loadStep compare_ h v t = .ok (v',r',back) ∧ Loaded compare_ h orders v v' r r' back := by
  have steady := recorded.steady v.seen seen
  have acquired : ∀ x i, v.Allows h (.next x i) t → ∃ r' back, ReaderMoved compare_
      (h.memory (v.acquire h (.next x i) t).seen) (orders (v.acquire h (.next x i) t).seen) r r' back ∧
      Loaded compare_ h orders v (v.acquire h (.next x i) t) r r' back := by
    intro x i may
    obtain ⟨later,within⟩ := acquireSeen may
    have made := Nat.le_trans within may.now
    obtain ⟨r',back,moved⟩ := readerMoves lawful (recorded.steady _ made)
      (readerGrows (recorded.grows _ _ later made) here)
    exact ⟨r',back,moved,later,made,_,rfl,moved⟩
  obtain ⟨phase,it⟩ := r
  cases phase with
  | idle =>
    obtain ⟨r',back,moved⟩ := readerMoves lawful steady here
    cases Except.ok.inj moved.run
    exact ⟨v,_,_,rfl,Nat.le_refl _,seen,_,rfl,moved⟩
  | begin q =>
    cases q with
    | find kind target =>
      have may := allows _ rfl
      let raised : SkipList Key := {h.memory v.seen with max_height_ := (h.memory t).max_height_}
      have steady' : Steady compare_ raised (orders v.seen) :=
        ⟨linkedSameNodes steady.linked rfl,(recorded.steady t may.now).height⟩
      obtain ⟨r',back,moved⟩ : ∃ r' back, ReaderMoved compare_ raised _ ⟨.begin (.find kind target),it⟩ r' back :=
        findBegins steady' here.node
      cases Except.ok.inj moved.run
      exact ⟨_,_,_,rfl,Nat.le_refl _,seen,raised,rfl,moved⟩
    | next =>
      obtain ⟨n,on⟩ := Option.isSome_iff_exists.mp (here.valid rfl)
      dsimp only at on
      have may : v.Allows h (.next n 0) t := allows _ (by simp only [Reader.cell,on,Option.map_some])
      have chain : OnChain (h.memory v.seen) 0 n := (onChainIff steady.linked (by decide)).mpr (.inr (here.node n on))
      obtain ⟨r',back,moved,loaded⟩ := acquired n 0 may
      exact ⟨_,_,_,nextLoads (fun _ => loadNextKnown recorded (by decide) may chain) on moved.run,loaded⟩
  | find kind target s =>
    have scan := here.find kind target s rfl
    have may : v.Allows h (.next s.x s.level) t := allows _ rfl
    obtain ⟨r',back,moved,loaded⟩ := acquired s.x s.level may
    have chain := standsOnChain steady.linked scan.low scan.stands
    exact ⟨_,_,_,findLoads (fun _ => loadNextKnown recorded scan.low may chain) rfl moved.run,loaded⟩

end KVStorage.SkipList
