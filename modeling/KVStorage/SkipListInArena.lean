import KVStorage.CodingStream
import KVStorage.SkipListLaid

/-! The list's code on an image follows the same code on the node store, for every
call of insert, contains and the iterators, among any other users of the arena. -/
namespace KVStorage.SkipList

open Support

def PrevsLie (places : List Region) (p q : Prev) : Prop :=
  q.length = p.length ∧ ∀ (i : Nat) x, p[i]? = some (some x) → ∃ a, Lies places x a ∧ q[i]? = some (some a)

structure SearchLies (places : List Region) (s t : Search) : Prop where
  x : Lies places s.x t.x
  level : t.level = s.level
  prev : Option.Rel (PrevsLie places) s.prev t.prev

structure FoundLies (places : List Region) (f g : Found) : Prop where
  x : Lies places f.x g.x
  next : Option.Rel (Lies places) f.next g.next
  prev : Option.Rel (PrevsLie places) f.prev g.prev

def IteratorLies (places : List Region) (it jt : Iterator) : Prop := Option.Rel (Lies places) it.node_ jt.node_

section Prevs

variable {places : List Region} {p q : Prev}

theorem uninitialisedLies (places : List Region) : PrevsLie places Prev.uninitialised Prev.uninitialised := by
  refine ⟨rfl,?_⟩
  intro i x here
  simp [Prev.uninitialised,List.getElem?_replicate] at here

theorem prevsMore (same : PrevsLie places p q) (more : List Region) : PrevsLie (places ++ more) p q := by
  refine ⟨same.1,?_⟩
  intro i x here
  obtain ⟨a,lies,there⟩ := same.2 i x here
  exact ⟨a,atMore lies more,there⟩

theorem writeMirrors (same : PrevsLie places p q) {x a : Nat} (here : Lies places x a) (i : Nat) :
    Mirrors Untroubled (PrevsLie places) (p.write i x) (q.write i a) := by
  unfold Prev.write
  rw [same.1]
  refine Mirrors.choice ?_ (fun _ => Mirrors.faulted _)
  intro low
  refine Mirrors.done ⟨by rw [List.length_set,List.length_set,same.1],?_⟩
  intro j y there
  by_cases hit : i = j
  · subst hit
    have entry : x = y := by simpa [low] using there
    subst entry
    exact ⟨a,here,by simp [same.1,low]⟩
  · rw [List.getElem?_set_ne hit] at there ⊢
    exact same.2 j y there

theorem readMirrors (same : PrevsLie places p q) (i : Nat) :
    Mirrors Untroubled (Lies places) (p.read i) (q.read i) := by
  intro x ran
  unfold Prev.read at ran
  split at ran
  · rename_i y here
    cases ran
    obtain ⟨a,lies,there⟩ := same.2 i x here
    exact .inl ⟨a,by simp only [Prev.read,there],lies⟩
  · cases ran

theorem noteMirrors {p q : Option Prev} (same : Option.Rel (PrevsLie places) p q) {x a : Nat}
    (here : Lies places x a) (level : Nat) :
    Mirrors Untroubled (Option.Rel (PrevsLie places)) (note p level x) (note q level a) := by
  cases same with
  | none => exact Mirrors.done .none
  | some same => exact Mirrors.mapped (writeMirrors same here level) fun _ _ => .some

end Prevs

section Searching

variable {places : List Region} {s t : Search}

theorem advanceMirrors (same : SearchLies places s t) {next next' : Option Ptr}
    (after : Option.Rel (Lies places) next next') (right : Bool) :
    Mirrors Untroubled (Mirrors.Round (SearchLies places) (FoundLies places)) (advance s next right)
      (advance t next' right) := by
  unfold advance
  rw [same.level]
  refine Mirrors.choice ?_ ?_
  · intro _
    cases after with
    | none => exact Mirrors.faulted _
    | some here => exact Mirrors.done (.again ⟨here,rfl,same.prev⟩)
  · intro _
    refine Mirrors.bound (noteMirrors same.prev same.x s.level) ?_
    intro p q prev
    refine Mirrors.choice (fun _ => ?_) (fun _ => ?_)
    · exact Mirrors.done (.done ⟨same.x,after,prev⟩)
    · exact Mirrors.done (.again ⟨same.x,rfl,prev⟩)

variable {Key : Type} {l : Layout Key} {others : List Other} {m : SkipList Key} {w : Image} {compare_ : Key → Key → Int}
  {check check' : Ptr → Except Fault Unit} {right right' : Option Ptr → Except Fault Bool}

theorem roundsEnough (laid : Laid l places others m w) : m.rounds ≤ w.rounds := by
  have count := laid.split.length_eq
  simp only [List.length_map,List.length_append,laid.count] at count
  simp only [rounds,Image.rounds]
  omega

/- Both searches check alike and go right alike. -/
structure Alike (places : List Region) (check check' : Ptr → Except Fault Unit)
    (right right' : Option Ptr → Except Fault Bool) : Prop where
  check : ∀ x a, Lies places x a → Mirrors Untroubled (fun _ _ => True) (check x) (check' a)
  right : ∀ y b, Option.Rel (Lies places) y b → Mirrors Untroubled (fun p q => q = p) (right y) (right' b)

theorem searchMirrors (laid : Laid l places others m w) (alike : Alike places check check' right right')
    {p q : Option Prev} (prev : Option.Rel (PrevsLie places) p q) :
    Mirrors Untroubled (FoundLies places) (m.search check right p) (w.search l check' right' q) := by
  have round : ∀ s t, SearchLies places s t →
      Mirrors Untroubled (Mirrors.Round (SearchLies places) (FoundLies places)) (m.searchRound check right s)
        (w.searchRound l check' right' t) := by
    intro s t same
    refine Mirrors.bound (alike.check _ _ same.x) ?_
    intro _ _ _
    rw [same.level]
    refine Mirrors.bound (nextMirrors laid same.x s.level) ?_
    intro y b after
    refine Mirrors.bound (alike.right y b after) ?_
    intro goes goes' agree
    subst agree
    exact advanceMirrors same after goes'
  have start : SearchLies places ⟨head_,m.getMaxHeight-1,p⟩ ⟨w.head_,w.getMaxHeight-1,q⟩ := by
    refine ⟨laid.head,?_,prev⟩
    exact congrArg (· - 1) laid.height
  exact Mirrors.loop round (roundsEnough laid) start

theorem unchecked (places : List Region) (x a : Ptr) (_ : Lies places x a) :
    Mirrors Untroubled (fun _ _ => True) (noCheck x) (noCheck a) := Mirrors.done trivial

theorem keyAlike (laid : Laid l places others m w) (key : Key) :
    Alike places noCheck noCheck (m.keyIsAfterNode compare_ key) (w.keyIsAfterNode l compare_ key) := by
  refine ⟨unchecked places,?_⟩
  intro y b after
  cases after with
  | none => exact Mirrors.done rfl
  | some here =>
    refine Mirrors.bound (nodeMirrors laid here) ?_
    intro n k same
    subst same
    exact Mirrors.done rfl

theorem lessAlike (laid : Laid l places others m w) (key : Key) :
    Alike places (m.xIsBeforeKey compare_ key) (w.xIsBeforeKey l compare_ key) (m.nextIsBeforeKey compare_ key)
      (w.nextIsBeforeKey l compare_ key) := by
  constructor
  · intro x a here
    have head : x = head_ ↔ a = w.head_ := laidSame laid here laid.head
    unfold xIsBeforeKey Image.xIsBeforeKey
    by_cases first : x = head_
    · rw [if_pos first,if_pos (head.mp first)]
      exact Mirrors.done trivial
    · rw [if_neg first,if_neg (fun same => first (head.mpr same))]
      refine Mirrors.bound (nodeMirrors laid here) ?_
      intro n k same
      subst same
      exact Mirrors.choice (fun _ => Mirrors.done trivial) (fun _ => Mirrors.faulted _)
  · intro y b after
    cases after with
    | none => exact Mirrors.done rfl
    | some here =>
      refine Mirrors.bound (nodeMirrors laid here) ?_
      intro n k same
      subst same
      exact Mirrors.done rfl

theorem endAlike (places : List Region) :
    Alike places noCheck noCheck (fun next => .ok next.isSome) (fun next => .ok next.isSome) := by
  refine ⟨unchecked places,?_⟩
  intro y b after
  cases after with
  | none => exact Mirrors.done rfl
  | some here => exact Mirrors.done rfl

theorem findGreateOrEqualMirrors (laid : Laid l places others m w) (key : Key) {p q : Option Prev}
    (prev : Option.Rel (PrevsLie places) p q) :
    Mirrors Untroubled (fun r r' => Option.Rel (Lies places) r.1 r'.1 ∧ Option.Rel (PrevsLie places) r.2 r'.2)
      (m.findGreateOrEqual compare_ key p) (w.findGreateOrEqual l compare_ key q) := by
  refine Mirrors.bound (searchMirrors laid (keyAlike laid key) prev) ?_
  intro f g found
  exact Mirrors.done ⟨found.next,found.prev⟩

theorem findLessThanMirrors (laid : Laid l places others m w) (key : Key) :
    Mirrors Untroubled (Lies places) (m.findLessThan compare_ key) (w.findLessThan l compare_ key) := by
  refine Mirrors.bound (searchMirrors laid (lessAlike laid key) .none) ?_
  intro f g found
  exact Mirrors.done found.x

theorem findLastMirrors (laid : Laid l places others m w) :
    Mirrors Untroubled (Lies places) m.findLast (w.findLast l) := by
  refine Mirrors.bound (searchMirrors laid (endAlike places) .none) ?_
  intro f g found
  exact Mirrors.done found.x

theorem containsMirrors (laid : Laid l places others m w) (key : Key) :
    Mirrors Untroubled (fun found found' => found' = found) (m.contains compare_ key) (w.contains l compare_ key) := by
  refine Mirrors.bound (findGreateOrEqualMirrors laid key .none) ?_
  intro r r' found
  obtain ⟨x,p⟩ := r
  obtain ⟨a,q⟩ := r'
  cases found.1 with
  | none => exact Mirrors.done rfl
  | some here =>
    refine Mirrors.bound (nodeMirrors laid here) ?_
    intro n k same
    subst same
    exact Mirrors.done rfl

theorem hideHeadLies (laid : Laid l places others m w) {x a : Nat} (here : Lies places x a) :
    IteratorLies places (Iterator.hideHead x) (w.hideHead a) := by
  have head : x = head_ ↔ a = w.head_ := laidSame laid here laid.head
  unfold Iterator.hideHead Image.hideHead
  by_cases first : x = head_
  · rw [if_pos first,if_pos (head.mp first)]
    exact .none
  · rw [if_neg first,if_neg (fun same => first (head.mpr same))]
    exact .some here

theorem iteratorKeyMirrors (laid : Laid l places others m w) {it jt : Iterator} (same : IteratorLies places it jt) :
    Mirrors Untroubled (fun k k' => k' = k) (it.key m) (w.iteratorKey l jt) := by
  obtain ⟨x⟩ := it
  obtain ⟨a⟩ := jt
  cases same with
  | none => exact Mirrors.faulted _
  | some here =>
    intro k ran
    obtain ⟨n,found,last⟩ := Machine.okBind ran
    cases last
    exact nodeMirrors laid here n found

theorem iteratorNextMirrors (laid : Laid l places others m w) {it jt : Iterator} (same : IteratorLies places it jt) :
    Mirrors Untroubled (IteratorLies places) (it.next m) (w.iteratorNext l jt) := by
  obtain ⟨x⟩ := it
  obtain ⟨a⟩ := jt
  cases same with
  | none => exact Mirrors.faulted _
  | some here => exact Mirrors.bound (nextMirrors laid here 0) fun y b after => Mirrors.done after

theorem iteratorPrevMirrors (laid : Laid l places others m w) {it jt : Iterator} (same : IteratorLies places it jt) :
    Mirrors Untroubled (IteratorLies places) (it.prev compare_ m) (w.iteratorPrev l compare_ jt) := by
  obtain ⟨x⟩ := it
  obtain ⟨a⟩ := jt
  cases same with
  | none => exact Mirrors.faulted _
  | some here =>
    refine Mirrors.bound (nodeMirrors laid here) ?_
    intro n k same
    subst same
    exact Mirrors.bound (findLessThanMirrors laid n.key) fun y b before => Mirrors.done (hideHeadLies laid before)

theorem seekMirrors (laid : Laid l places others m w) (target : Key) :
    Mirrors Untroubled (IteratorLies places) (Iterator.seek compare_ m target) (w.seek l compare_ target) :=
  Mirrors.bound (findGreateOrEqualMirrors laid target .none) fun _ _ found => Mirrors.done found.1

theorem seekToFirstMirrors (laid : Laid l places others m w) :
    Mirrors Untroubled (IteratorLies places) (Iterator.seekToFirst m) (w.seekToFirst l) :=
  Mirrors.bound (nextMirrors laid laid.head 0) fun _ _ first => Mirrors.done first

theorem seekToLastMirrors (laid : Laid l places others m w) :
    Mirrors Untroubled (IteratorLies places) (Iterator.seekToLast m) (w.seekToLast l) :=
  Mirrors.bound (findLastMirrors laid) fun _ _ last => Mirrors.done (hideHeadLies laid last)

end Searching

/- insert up to the call of newNode. -/
def locate {Key : Type} (compare_ : Key → Key → Int) (m : SkipList Key) (key : Key) (height : Nat) :
    Except Fault (SkipList Key × Prev) := do
  let (x,prev) ← m.findGreateOrEqual compare_ key (some Prev.uninitialised)
  m.assertFresh compare_ key x
  m.growTo height (prev.getD Prev.uninitialised)

section Inserting

variable {Key : Type} {l : Layout Key} {places : List Region} {others : List Other} {m : SkipList Key} {w : Image}
  {compare_ : Key → Key → Int} {operatorNew : Arena.OperatorNew}

theorem insertHeightLocates (compare_ : Key → Key → Int) (m : SkipList Key) (key : Key) (height : Nat) :
    m.insertHeight compare_ key height = (do
      let (m,prev) ← m.locate compare_ key height
      let (m,x) := m.newNode key height
      (List.range height).foldlM (linkLevel x prev) m) := by
  simp only [insertHeight,locate,bind_assoc]

/- Raising max_height_ touches no node. -/
theorem raisedLaid (laid : Laid l places others m w) (height : Nat) :
    Laid l places others {m with max_height_ := height} {w with max_height_ := height} :=
  ⟨⟨laid.count,rfl,laid.rnd,laid.arena,laid.high,laid.split,laid.aligned,laid.nodes,laid.kept⟩,laid.head⟩

theorem growToMirrors (laid : Laid l places others m w) (height : Nat) {p q : Prev} (same : PrevsLie places p q) :
    Mirrors Untroubled (fun r r' => Laid l places others r.1 r'.1 ∧ PrevsLie places r.2 r'.2 ∧ r'.1.use = w.use)
      (m.growTo height p) (w.growTo height q) := by
  unfold growTo Image.growTo
  have equal : w.getMaxHeight = m.getMaxHeight := laid.height
  rw [equal]
  refine Mirrors.choice (fun _ => ?_) (fun _ => Mirrors.done ⟨laid,same,rfl⟩)
  have filled : Mirrors Untroubled (PrevsLie places) _ _ :=
    Mirrors.along (List.range' m.getMaxHeight (height-m.getMaxHeight))
      (fun p q i _ same => writeMirrors same laid.head i) same
  exact Mirrors.bound filled fun p q last => Mirrors.done ⟨raisedLaid laid height,last,rfl⟩

theorem locateMirrors (laid : Laid l places others m w) (key : Key) (height : Nat) :
    Mirrors Untroubled (fun r r' => Laid l places others r.1 r'.1 ∧ PrevsLie places r.2 r'.2 ∧ r'.1.use = w.use)
      (m.locate compare_ key height) (w.locate l compare_ key height) := by
  refine Mirrors.bound (findGreateOrEqualMirrors laid key (.some (uninitialisedLies places))) ?_
  intro r r' found
  obtain ⟨x,p⟩ := r
  obtain ⟨a,q⟩ := r'
  obtain ⟨after,prev⟩ := found
  have fresh : Mirrors Untroubled (fun _ _ => True) (m.assertFresh compare_ key x)
      (w.assertFresh l compare_ key a) := by
    cases after with
    | none => exact Mirrors.done trivial
    | some here =>
      refine Mirrors.bound (nodeMirrors laid here) ?_
      intro n k same
      subst same
      exact Mirrors.choice (fun _ => Mirrors.faulted _) (fun _ => Mirrors.done trivial)
  have array : PrevsLie places (p.getD Prev.uninitialised) (q.getD Prev.uninitialised) := by
    cases prev with
    | none => exact uninitialisedLies places
    | some same => exact same
  exact Mirrors.bound fresh fun _ _ _ => growToMirrors laid height array

theorem linkLevelMirrors (laid : Laid l places others m w) {x a : Nat} (here : Lies places x a) {p q : Prev}
    (same : PrevsLie places p q) (i : Nat) :
    Mirrors Untroubled (Laid l places others) (linkLevel x p m i) (w.linkLevel l a q i) := by
  refine Mirrors.bound (readMirrors same i) ?_
  intro z b before
  refine Mirrors.bound (nextMirrors laid before i) ?_
  intro y c after m2 ran
  obtain ⟨m1,first,last⟩ := Machine.okBind ran
  have own := setNextLaid laid here after first
  exact .inl ⟨_,rfl,setNextLaid own before (.some here) last⟩

/- All that may keep the code on an image behind: operator new[] has no block for what
it asks of the arena. -/
def Exhausted (operatorNew : Arena.OperatorNew) (s : Arena.State) (asks : Option Arena.Call) (trap : Trap) : Prop :=
  trap = .arena .badAlloc ∧ ∃ call, asks = some call ∧ call.Refuses operatorNew s

theorem insertHeightMirrors (honest : Arena.Honest operatorNew) (addressed : Addressed operatorNew)
    (laid : Laid l places others m w) (key : Key) {height : Nat} (low : height ≤ s_max_height_) :
    Mirrors (Exhausted operatorNew w.use.state (some (.allocateAligned (l.nodeBytes height))))
      (fun m' w' => ∃ more, Laid l (places ++ more) others m' w')
      (m.insertHeight compare_ key height) (w.insertHeight l compare_ operatorNew key height) := by
  rw [insertHeightLocates]
  refine Mirrors.bound (Mirrors.renamed (locateMirrors laid key height) Trap.list) ?_
  intro r r' found
  obtain ⟨m1,p⟩ := r
  obtain ⟨w1,q⟩ := r'
  obtain ⟨laid1,same,use⟩ := found
  rcases requestCases honest addressed laid1.arena laid1.high (nodeSized l low) with
    ⟨failed,refused⟩ | ⟨w2,res,got,requested⟩
  · have stopped : w1.newNode l operatorNew key height = .error .badAlloc := by
      simp only [Image.newNode,failed,bind,Except.bind]
    simp only [stopped,Except.mapError,bind,Except.bind]
    exact Mirrors.excused ⟨rfl,_,rfl,use ▸ refused⟩
  · have made : w1.newNode l operatorNew key height =
        .ok ({w2 with memory := w2.memory.store res (l.bytes key)},res) := by
      simp only [Image.newNode,got,bind,Except.bind]
    have head : Lies (places ++ [⟨res,l.nodeBytes height⟩]) head_ w2.head_ := by
      rw [requested.rest]
      exact atMore laid1.head _
    have laid2 : Laid l _ others _ _ := ⟨newNodeHoused laid1.toHoused key requested,head⟩
    have here : Lies (places ++ [⟨res,l.nodeBytes height⟩]) m1.nodes.length res := by
      simp [Lies,← laid1.count]
    have linked : Mirrors Untroubled (Laid l _ others) _ _ := Mirrors.along (List.range height)
      (fun m w i _ laid => linkLevelMirrors laid here (prevsMore same _) i) laid2
    simp only [made,Except.mapError,bind,Except.bind]
    exact Mirrors.weaker (Mirrors.renamed linked Trap.list) fun m' w' laid' => ⟨_,laid'⟩

theorem insertMirrors (honest : Arena.Honest operatorNew) (addressed : Addressed operatorNew)
    (laid : Laid l places others m w) (key : Key) :
    Mirrors (Exhausted operatorNew w.use.state (some (.allocateAligned (l.nodeBytes (randomHeight m.rnd_).1))))
      (fun m' w' => ∃ more, Laid l (places ++ more) others m' w')
      (m.insert compare_ key) (w.insert l compare_ operatorNew key) := by
  unfold SkipList.insert Image.insert
  rw [laid.rnd]
  have drawn : ∀ rnd_, Laid l places others {m with rnd_ := rnd_} {w with rnd_ := rnd_} := fun rnd_ =>
    ⟨⟨laid.count,laid.height,rfl,laid.arena,laid.high,laid.split,laid.aligned,laid.nodes,laid.kept⟩,laid.head⟩
  exact insertHeightMirrors honest addressed (drawn _) key (randomHeightBounds m.rnd_).2

end Inserting

section Tenancy

variable {Key ι : Type} {l : Layout Key} {compare_ : Key → Key → Int} {operatorNew : Arena.OperatorNew}

def Matches (l : Layout Key) (s : Users Key ι) (t : Tenants ι) : Prop :=
  ∃ places, Laid l places t.others s.list t.image ∧ ∀ i, IteratorLies places (s.iterators i) (t.iterators i)

/- The arena's other users ask for a size that does not wrap and write only to what
they were given. -/
def Contained : List Nat → List (Act Key ι) → Prop
  | _, [] => True
  | sizes, .list _::acts => Contained sizes acts
  | sizes, .allocate call::acts => call.Sized ∧ Contained (sizes ++ [call.bytes]) acts
  | sizes, .write other offset data::acts =>
    (∃ size, sizes[other]? = some size ∧ offset+data.length ≤ size) ∧ Contained sizes acts

def Tenants.sizes (t : Tenants ι) : List Nat := t.others.map fun o => o.data.length

/- What relates the two levels while a run has the acts left. -/
structure Running (l : Layout Key) (compare_ : Key → Key → Int) [DecidableEq ι] (acts : List (Act Key ι))
    (s : Users Key ι) (t : Tenants ι) : Prop where
  matched : Matches l s t
  legal : Machine.Legal (Users.Pre compare_) (Users.step compare_) s (acts.filterMap Act.op)
  contained : Contained t.sizes acts

theorem updateLies [DecidableEq ι] {places : List Region} {f g : ι → Iterator}
    (old : ∀ i, IteratorLies places (f i) (g i)) {i : ι} {it jt : Iterator} (new : IteratorLies places it jt) :
    ∀ j, IteratorLies places (Function.update f i it j) (Function.update g i jt j) := by
  intro j
  by_cases same : j = i
  · subst same
    simpa using new
  · simpa [Function.update_of_ne same] using old j

variable [DecidableEq ι] {s : Users Key ι} {t : Tenants ι}

/- An iterator's call changes the iterator only. -/
theorem moveMirrors {excuse : Trap → Prop} {places : List Region} (laid : Laid l places t.others s.list t.image)
    (iterators : ∀ i, IteratorLies places (s.iterators i) (t.iterators i)) (i : ι) {x y : Except Fault Iterator}
    (moves : Mirrors Untroubled (IteratorLies places) x y) :
    Mirrors excuse (fun s' t' => Matches l s' t' ∧ t'.others = t.others)
      (do let it ← x; .ok (s.set i it)) (do let it ← y.mapError Trap.list; .ok (t.set i it)) := by
  refine Mirrors.bound (Mirrors.renamed moves Trap.list) ?_
  intro it jt new
  exact Mirrors.done ⟨⟨places,laid,updateLies iterators new⟩,rfl⟩

theorem listStepMirrors (honest : Arena.Honest operatorNew) (addressed : Addressed operatorNew)
    (matched : Matches l s t) {op : Op Key ι} (pre : Users.Pre compare_ s op) :
    Mirrors (Exhausted operatorNew t.image.use.state (Act.request l (.list op)))
      (fun s' t' => Matches l s' t' ∧ t'.others = t.others) (s.step compare_ op)
      (t.listStep l compare_ operatorNew op) := by
  obtain ⟨places,laid,iterators⟩ := matched
  cases op with
  | insert key height =>
    refine Mirrors.bound (insertHeightMirrors honest addressed laid key pre.2.2) ?_
    intro m w grown
    obtain ⟨more,laid'⟩ := grown
    exact Mirrors.done ⟨⟨_,laid',fun i => relMore (iterators i) more⟩,rfl⟩
  | construct i => exact Mirrors.done ⟨⟨places,laid,updateLies iterators .none⟩,rfl⟩
  | seek i target => exact moveMirrors laid iterators i (seekMirrors laid target)
  | seekToFirst i => exact moveMirrors laid iterators i (seekToFirstMirrors laid)
  | seekToLast i => exact moveMirrors laid iterators i (seekToLastMirrors laid)
  | next i => exact moveMirrors laid iterators i (iteratorNextMirrors laid (iterators i))
  | prev i => exact moveMirrors laid iterators i (iteratorPrevMirrors laid (iterators i))

omit [DecidableEq ι] in
theorem allocateMirrors (honest : Arena.Honest operatorNew) (addressed : Addressed operatorNew)
    (matched : Matches l s t) {call : Arena.Call} (sized : call.Sized) :
    Mirrors (Exhausted operatorNew t.image.use.state (some call))
      (fun s' t' => Matches l s' t' ∧ t'.sizes = t.sizes ++ [call.bytes])
      (.ok s : Except Fault (Users Key ι)) ((t.allocate operatorNew call).mapError .arena) := by
  obtain ⟨places,laid,iterators⟩ := matched
  rcases requestCases honest addressed laid.arena laid.high sized with ⟨failed,refused⟩ | ⟨w,res,got,requested⟩
  · have stopped : t.allocate operatorNew call = .error .badAlloc := by
      simp only [Tenants.allocate,failed,bind,Except.bind]
    rw [stopped]
    exact Mirrors.excused ⟨rfl,call,rfl,refused⟩
  · have made : t.allocate operatorNew call =
        .ok {t with image := w, others := t.others ++ [⟨res,w.memory.view ⟨res,call.bytes⟩⟩]} := by
      simp only [Tenants.allocate,got,bind,Except.bind]
    rw [made]
    exact Mirrors.done ⟨⟨places,allocateLaid laid requested,iterators⟩,by simp [Tenants.sizes]⟩

omit [DecidableEq ι] in
theorem writeMatches (matched : Matches l s t) {other offset : Nat} {data : Bytes}
    (inside : ∃ size, t.sizes[other]? = some size ∧ offset+data.length ≤ size) :
    ∃ t', t.write other offset data = some t' ∧ Matches l s t' ∧ t'.sizes = t.sizes := by
  obtain ⟨places,laid,iterators⟩ := matched
  obtain ⟨size,held,fits⟩ := inside
  rw [Tenants.sizes,List.getElem?_map,Option.map_eq_some_iff] at held
  obtain ⟨o,own,length⟩ := held
  subst length
  have room : offset + (data.map some).length ≤ o.data.length := by simpa using fits
  obtain ⟨left,written,same⟩ := Buffer.writeInside room
  have made : t.write other offset data = some {t with
      image := {t.image with memory := t.image.memory.store (o.base+offset) data}
      others := t.others.set other {o with data := left}} := by
    simp only [Tenants.write,own,written,bind,Option.bind]
  exact ⟨_,made,⟨places,writeLaid laid own written,iterators⟩,setKeeps own same⟩

theorem actsFollow (honest : Arena.Honest operatorNew) (addressed : Addressed operatorNew) (acts : List (Act Key ι))
    (start : Running l compare_ acts s t) :
    Mirrors (fun trap => Machine.Stops (Tenants.step l compare_ operatorNew)
        (fun u act => Exhausted operatorNew u.image.use.state (act.request l) trap) t acts)
      (Running l compare_ ([] : List (Act Key ι)))
      ((acts.filterMap Act.op).foldlM (Users.step compare_) s)
      (acts.foldlM (Tenants.step l compare_ operatorNew) t) := by
  refine Mirrors.run (Q := Running l compare_) ?_ ?_ acts start
  · intro s t op act acts seen running
    cases act with
    | list op' =>
      cases seen
      obtain ⟨matched,legal,contained⟩ := running
      obtain ⟨pre,rest⟩ := legal
      intro s' ran
      rcases listStepMirrors honest addressed matched pre s' ran with ⟨t',ran',matched',same⟩ | failed
      · have contained' : Contained t'.sizes acts := by
          rw [Tenants.sizes,same]
          exact contained
        exact .inl ⟨t',ran',matched',rest s' ran,contained'⟩
      · exact .inr failed
    | allocate call => cases seen
    | write other offset data => cases seen
  · intro s t act acts unseen running
    obtain ⟨matched,legal,contained⟩ := running
    cases act with
    | list op => cases unseen
    | allocate call =>
      intro s' same
      cases same
      rcases allocateMirrors honest addressed matched contained.1 s rfl with ⟨t',ran,matched',sizes⟩ | failed
      · have contained' : Contained t'.sizes acts := by
          rw [sizes]
          exact contained.2
        exact .inl ⟨t',ran,matched',legal,contained'⟩
      · exact .inr failed
    | write other offset data =>
      obtain ⟨t',wrote,matched',same⟩ := writeMatches matched contained.1
      have ran : t.step l compare_ operatorNew (.write other offset data) = .ok t' := by
        simp only [Tenants.step,wrote]
      have contained' : Contained t'.sizes acts := by
        rw [same]
        exact contained.2
      rw [ran]
      exact Mirrors.done ⟨matched',legal,contained'⟩

/- The constructor: nothing is housed before newNode makes the head. -/
theorem emptyHoused (l : Layout Key) (memory : Memory UInt8) :
    Housed l [] [] (⟨[],1,Random.new 0xdeadbeef⟩ : SkipList Key) ⟨.new,memory,0,1,Random.new 0xdeadbeef⟩ where
  count := rfl
  height := rfl
  rnd := rfl
  arena := Arena.newPlaced
  high := by simp [Arena.Use.new]
  split := List.Perm.refl []
  aligned := by simp
  nodes := by simp
  kept := by simp

theorem nullsLaid {places : List Region} {others : List Other} {levels : List Nat} {m m' : SkipList Key} {w : Image}
    (laid : Laid l places others m w) (ran : levels.foldlM (fun m i => m.setNext head_ i none) m = .ok m') :
    Laid l places others m' (levels.foldl (fun w i => w.setNext l w.head_ i none) w) := by
  induction levels generalizing m w with
  | nil =>
    cases ran
    exact laid
  | cons i levels ih =>
    obtain ⟨m1,first,rest⟩ := Machine.okBind ran
    exact ih (setNextLaid laid laid.head .none first) rest

omit [DecidableEq ι] in
theorem newMirrors (honest : Arena.Honest operatorNew) (addressed : Addressed operatorNew) (memory : Memory UInt8)
    (zero : Key) : Mirrors
      (Exhausted operatorNew Arena.Use.new.state (some (.allocateAligned (l.nodeBytes s_max_height_))))
      (fun s t => Matches l s t ∧ t.others = []) (Users.new zero)
      (Tenants.new l operatorNew memory zero : Except Trap (Tenants ι)) := by
  intro s ran
  obtain ⟨m,made,last⟩ := Machine.okBind ran
  cases last
  have housed := emptyHoused l memory
  rcases requestCases honest addressed housed.arena housed.high (nodeSized l (Nat.le_refl s_max_height_)) with
    ⟨failed,refused⟩ | ⟨w,res,got,requested⟩
  · have stopped : (Tenants.new l operatorNew memory zero : Except Trap (Tenants ι)) = .error (.arena .badAlloc) := by
      simp only [Tenants.new,Image.new,Image.newNode,failed,bind,Except.bind,Except.mapError]
    exact .inr ⟨_,stopped,rfl,_,rfl,refused⟩
  · have first := newNodeHoused housed zero requested
    have laid : Laid l [⟨res,l.nodeBytes s_max_height_⟩] [] _
        {w with memory := w.memory.store res (l.bytes zero), head_ := res} :=
      ⟨⟨first.count,first.height,first.rnd,first.arena,first.high,first.split,first.aligned,first.nodes,first.kept⟩,rfl⟩
    have started : (Tenants.new l operatorNew memory zero : Except Trap (Tenants ι)) =
        .ok ⟨(List.range s_max_height_).foldl (fun w i => w.setNext l w.head_ i none)
          {w with memory := w.memory.store res (l.bytes zero), head_ := res},fun _ => Iterator.new,[]⟩ := by
      simp only [Tenants.new,Image.new,Image.newNode,got,bind,Except.bind,Except.mapError]
    exact .inl ⟨_,started,⟨_,nullsLaid laid made,fun _ => .none⟩,rfl⟩

end Tenancy

section Results

variable {Key ι : Type} [DecidableEq ι] {l : Layout Key} {compare_ : Key → Key → Int}

/- What the bytes tell a caller is the ordered set and its cursors. -/
structure Presents (l : Layout Key) (compare_ : Key → Key → Int) (t : Tenants ι) (a : OrderedCursor.State Key ι) :
    Prop where
  contains : ∀ key, ∃ found, t.image.contains l compare_ key = .ok found ∧
    (found = true ↔ ∃ k ∈ a.keys, compare_ key k = 0)
  valid : ∀ i, (t.iterators i).valid = (a.position i).isSome
  key : ∀ i k, a.position i = some k → t.image.iteratorKey l (t.iterators i) = .ok k

/- Every node has a place of its own in one of the arena's blocks, apart from all
that others were given. -/
structure Resident (places : List Region) (t : Tenants ι) : Prop where
  apart : (places ++ t.others.map Other.region).Pairwise Region.Apart
  inside : ∀ r ∈ places, ∃ b ∈ t.image.use.state.heap, b.base ∈ t.image.use.state.arena.blocks_ ∧ r.Within b

theorem iteratorSome {places : List Region} {it jt : Iterator} (same : IteratorLies places it jt) :
    it.valid = jt.valid := by
  obtain ⟨x⟩ := it
  obtain ⟨a⟩ := jt
  cases same with
  | none => rfl
  | some here => rfl

omit [DecidableEq ι] in
theorem laidResident {places : List Region} {m : SkipList Key} {t : Tenants ι}
    (laid : Laid l places t.others m t.image) : Resident places t := by
  refine ⟨laidApart laid,?_⟩
  intro r mem
  obtain ⟨b,block,within⟩ := laidInside laid mem
  refine ⟨b,block,?_,within⟩
  rw [laid.arena.recorded.held]
  exact List.mem_map_of_mem block

omit [DecidableEq ι] in
theorem simulatesPresents (lawful : ThreeWay.Lawful compare_) {s : Users Key ι} {t : Tenants ι}
    {a : OrderedCursor.State Key ι} (sim : Simulates compare_ s a) {places : List Region}
    (laid : Laid l places t.others s.list t.image)
    (iterators : ∀ i, IteratorLies places (s.iterators i) (t.iterators i)) : Presents l compare_ t a := by
  have shows := simulatesShows sim
  obtain ⟨order,sim⟩ := sim
  have contains : ∀ key, ∃ found, t.image.contains l compare_ key = .ok found ∧
      (found = true ↔ ∃ k ∈ a.keys, compare_ key k = 0) := by
    intro key
    obtain ⟨found,ran,same⟩ := containsOk lawful sim.represents key
    rcases containsMirrors laid key found ran with ⟨found',ran',equal⟩ | ⟨_,_,never⟩
    · subst equal
      refine ⟨found',ran',same.trans ?_⟩
      rw [sim.keys]
      simp [keysOf]
    · exact never.elim
  have valid : ∀ i, (t.iterators i).valid = (a.position i).isSome := by
    intro i
    rw [← shows.valid i]
    exact (iteratorSome (iterators i)).symm
  have key : ∀ i k, a.position i = some k → t.image.iteratorKey l (t.iterators i) = .ok k := by
    intro i k here
    rcases iteratorKeyMirrors laid (iterators i) k (shows.key i k here).1 with ⟨k',ran,same⟩ | ⟨_,_,never⟩
    · rw [ran,same]
    · exact never.elim
  exact ⟨contains,valid,key⟩

/- The whole life of a list on a fresh arena: its constructor and any acts after it. -/
def Tenants.life (l : Layout Key) (compare_ : Key → Key → Int) (operatorNew : Arena.OperatorNew)
    (memory : Memory UInt8) (zero : Key) (acts : List (Act Key ι)) : Except Trap (Tenants ι) := do
  let t ← Tenants.new l operatorNew memory zero
  acts.foldlM (Tenants.step l compare_ operatorNew) t

/- The run's own request that operator new[] refuses: the constructor's for the head,
or that of an act, in the state which the acts before it reach. -/
def Tenants.Refused (l : Layout Key) (compare_ : Key → Key → Int) (operatorNew : Arena.OperatorNew)
    (memory : Memory UInt8) (zero : Key) (acts : List (Act Key ι)) : Prop :=
  (Arena.Call.allocateAligned (l.nodeBytes s_max_height_)).Refuses operatorNew Arena.Use.new.state ∨
  ∃ t, Tenants.new l operatorNew memory zero = .ok t ∧ Machine.Stops (Tenants.step l compare_ operatorNew)
    (fun u act => ∃ call, act.request l = some call ∧ call.Refuses operatorNew u.image.use.state) t acts

theorem beyondPositive (heap : List Region) : 8 ≤ Arena.beyond heap := by
  induction heap with
  | nil => exact Nat.le_refl 8
  | cons b heap ih => exact Nat.le_trans ih (Nat.le_max_right ..)

theorem beyondAddressed : Addressed Arena.operatorNewBeyond := by
  intro heap size res got
  have positive := beyondPositive heap
  unfold Arena.operatorNewBeyond at got
  split at got
  · cases got
    omega
  · cases got

def Layout.uint64 : Layout UInt64 where
  sizeofKey := 8
  bytes := encodeFixed64
  read := decodeFixed64
  sized := fun _ => rfl
  readBytes := fun key => by simpa using fixed64RoundTrip key []
  small := by decide

def byValue (x y : UInt64) : Int := (x.toNat : Int)-y.toNat

theorem byValueLawful : ThreeWay.Lawful byValue :=
  ThreeWay.comap (fun x : UInt64 => (x.toNat : Int)) ThreeWay.differenceLawful

end Results
end KVStorage.SkipList
