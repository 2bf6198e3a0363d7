import KVStorage.SkipListLinearizable
import KVStorage.SkipListVisibility
import KVStorage.SnapshotLookup

/-! Lookups at a snapshot beside a writer that goes on inserting versions. As long
as no version that the snapshot sees comes later, a lookup finds at any time what
it would have found when the snapshot was taken. -/
namespace KVStorage

open Support InternalKeyComparator

/- The version that a lookup of u at s is for. -/
def Newest (E : Set ParsedInternalKey) (u : Bytes) (s : SequenceNumber) (e : ParsedInternalKey) : Prop :=
  e ∈ E ∧ Visible u s e ∧ ∀ d ∈ E, Visible u s d → NoNewer d e

section Versions

variable {E F : Set ParsedInternalKey} {u : Bytes} {s : SequenceNumber} {d e : ParsedInternalKey}

theorem noNewerBoth (left : NoNewer d e) (right : NoNewer e d) : d.sequence = e.sequence ∧ d.type = e.type := by
  have sequence : d.sequence = e.sequence := by
    rcases left with less | ⟨same,_⟩
    · rcases right with more | ⟨same,_⟩
      · exact absurd (UInt64.lt_trans less more) (UInt64.lt_irrefl _)
      · exact same.symm
    · exact same
  have below : d.type.toByte ≤ e.type.toByte :=
    (left.resolve_left (fun less => UInt64.ne_of_lt less sequence)).2
  have above : e.type.toByte ≤ d.type.toByte :=
    (right.resolve_left (fun less => UInt64.ne_of_lt less sequence.symm)).2
  have bytes := UInt8.le_antisymm below above
  refine ⟨sequence,?_⟩
  cases hd : d.type <;> cases he : e.type <;> simp [hd,he,ValueType.toByte] at bytes ⊢

theorem newestUnique (first : Newest E u s d) (second : Newest E u s e) : d = e := by
  obtain ⟨hd,seenD,mostD⟩ := first
  obtain ⟨he,seenE,mostE⟩ := second
  obtain ⟨sequence,type⟩ := noNewerBoth (mostE d hd seenD) (mostD e he seenE)
  have user : d.user_key = e.user_key := seenD.1.trans seenE.1.symm
  obtain ⟨ud,sd,td⟩ := d
  obtain ⟨ue,se,te⟩ := e
  dsimp only at user sequence type
  rw [user,sequence,type]

theorem newestAgree (same : ∀ d, Visible u s d → (d ∈ E ↔ d ∈ F)) : Newest E u s e ↔ Newest F u s e := by
  constructor
  · intro newest
    obtain ⟨mem,seen,most⟩ := newest
    exact ⟨(same e seen).mp mem,seen,fun d hd visible => most d ((same d visible).mpr hd) visible⟩
  · intro newest
    obtain ⟨mem,seen,most⟩ := newest
    exact ⟨(same e seen).mpr mem,seen,fun d hd visible => most d ((same d visible).mp hd) visible⟩

/- Where the search lands on the user key, it lands on the newest version. -/
theorem findsNewest {r : Option ParsedInternalKey} (finds : FindsVersion E u s r) :
    (r = some e ∧ e.user_key = u) ↔ Newest E u s e := by
  cases r with
  | none =>
    constructor
    · intro found
      exact absurd found.1 (by simp)
    · intro newest
      exact absurd newest.2.1 (finds e newest.1).1
  | some d =>
    obtain ⟨mem,found⟩ := finds
    rcases found with ⟨seen,most⟩ | ⟨hidden,greater,_⟩
    · have here : Newest E u s d := ⟨mem,seen,most⟩
      constructor
      · intro same
        cases Option.some.inj same.1
        exact here
      · intro newest
        exact ⟨congrArg some (newestUnique here newest),newest.2.1.1⟩
    · constructor
      · intro same
        cases Option.some.inj same.1
        exact absurd (same.2 ▸ greater) (List.lt_irrefl u)
      · intro newest
        exact absurd newest.2.1 (hidden e newest.1)

/- The search does not miss the user key where a version can be seen. -/
theorem findsVisible {r : Option ParsedInternalKey} (finds : FindsVersion E u s r) (mem : d ∈ E)
    (seen : Visible u s d) : ∃ e, Newest E u s e := by
  cases r with
  | none => exact absurd seen (finds d mem).1
  | some e =>
    obtain ⟨inside,found⟩ := finds
    rcases found with ⟨seen',most⟩ | ⟨hidden,_,_⟩
    · exact ⟨e,inside,seen',most⟩
    · exact absurd seen (hidden d mem)

end Versions

/- The keys of the list are keys that insert was called with. -/
namespace SkipList

open ReleaseAcquire

variable {Key ι : Type} {compare_ : Key → Key → Int} {m m' : SkipList Key}

/- The insertion that is under way. -/
def Writer.op : Writer Key → Option (Insertion Key)
  | .idle => none
  | .begin op | .find op _ | .compareHeight op _ | .fillPrev op _ | .storeMaxHeight op _ | .newNode op _ => some op
  | .loadNext op .. | .storeOwn op .. | .storePrev op .. => some op

theorem linkFromOp (op : Insertion Key) (prev : Prev) (x : Ptr) (i : Nat) :
    (linkFrom op prev x i).op = none ∨ (linkFrom op prev x i).op = some op := by
  rcases linkFromPending op prev x i with ⟨_,more⟩ | ⟨_,stop⟩
  · exact .inr (by rw [more]; rfl)
  · exact .inl (by rw [stop]; rfl)

theorem stepOp {w w' : Writer Key} (run : w.step compare_ m = .ok (m',w')) : w'.op = none ∨ w'.op = w.op := by
  cases w with
  | idle | begin | storeMaxHeight =>
    cases Except.ok.inj run
    exact .inr rfl
  | find op s =>
    obtain ⟨round,_,rest⟩ := Machine.okBind run
    cases round with
    | again t =>
      cases Except.ok.inj rest
      exact .inr rfl
    | done f =>
      obtain ⟨_,_,last⟩ := Machine.okBind rest
      cases Except.ok.inj last
      exact .inr rfl
  | compareHeight op prev =>
    simp only [Writer.step] at run
    split at run <;> cases Except.ok.inj run <;> exact .inr rfl
  | fillPrev op prev =>
    obtain ⟨_,_,last⟩ := Machine.okBind run
    cases Except.ok.inj last
    exact .inr rfl
  | newNode op prev =>
    cases Except.ok.inj run
    exact linkFromOp ..
  | loadNext op prev x i =>
    obtain ⟨_,_,rest⟩ := Machine.okBind run
    obtain ⟨_,_,last⟩ := Machine.okBind rest
    cases Except.ok.inj last
    exact .inr rfl
  | storeOwn op prev x i after =>
    obtain ⟨_,_,last⟩ := Machine.okBind run
    cases Except.ok.inj last
    exact .inr rfl
  | storePrev op prev x i =>
    obtain ⟨_,_,rest⟩ := Machine.okBind run
    obtain ⟨_,_,last⟩ := Machine.okBind rest
    cases Except.ok.inj last
    exact linkFromOp ..

theorem linksOp {w : Writer Key} {op : Insertion Key} (links : w.links = some op) : w.op = some op := by
  cases w with
  | storePrev op' prev x i =>
    cases i with
    | zero => exact links
    | succ i => contradiction
  | _ => contradiction

/- A property of every key inserted, or about to be, is one of every key linked. -/
structure Keys (P : Key → Prop) (s : WeakThreads Key ι) : Prop where
  linked : ∀ k ∈ s.list.linkedKeys, P k
  pending : ∀ op, s.writer.op = some op → P op.key

variable [DecidableEq ι] {s t : WeakThreads Key ι} {orders : Nat → List (Entry Key)} {P : Key → Prop}

theorem stepKeys (lawful : ThreeWay.Lawful compare_) {e : WeakThreads.Event Key ι}
    (all : WeakThreads.Lagging compare_ orders s) (step : WeakThreads.Step compare_ s e t)
    (given : ∀ op, e = .insert op → P op.key) (keys : Keys P s) : Keys P t := by
  cases step with
  | insert idle fresh one low =>
    refine ⟨keys.linked,?_⟩
    intro op eq
    cases Option.some.inj eq
    exact given _ rfl
  | write ok =>
    rename_i list writer
    have current : (record s.history list (s.writer.store s.list)).current = list := recordCurrent (stepStores ok)
    refine ⟨?_,?_⟩
    · intro k mem
      rw [WeakThreads.list,current] at mem
      rcases writerLinks lawful (all.recorded.steady _ (Nat.le_refl _)) all.writer ok with ⟨_,same⟩ | ⟨op,links,more,_⟩
      · exact keys.linked k (same ▸ mem)
      · rw [more] at mem
        rcases mem with rfl | old
        · exact keys.pending op (linksOp links)
        · exact keys.linked k old
    · intro op eq
      rcases stepOp ok with none | same
      · rw [none] at eq
        contradiction
      · exact keys.pending op (same ▸ eq)
  | synchronise | call | read => exact ⟨keys.linked,keys.pending⟩

theorem runKeys (lawful : ThreeWay.Lawful compare_) {es : List (WeakThreads.Event Key ι)}
    (all : WeakThreads.Lagging compare_ orders s) (run : Machine.Run (WeakThreads.Step compare_) s es t)
    (given : ∀ op, .insert op ∈ es → P op.key) (keys : Keys P s) : Keys P t := by
  induction run generalizing orders with
  | nil => exact keys
  | cons head tail ih =>
    obtain ⟨orders',all',_⟩ := WeakThreads.stepLagging lawful all head
    have next := stepKeys lawful all head (fun op eq => given op (by simp [eq])) keys
    exact ih all' (fun op mem => given op (List.mem_cons_of_mem _ mem)) next

/- Every key linked in a run from an empty list is one that insert was called with. -/
theorem runCalled (lawful : ThreeWay.Lawful compare_) {es : List (WeakThreads.Event Key ι)}
    (all : WeakThreads.Lagging compare_ (fun _ => []) s) (idle : s.writer = .idle)
    (run : Machine.Run (WeakThreads.Step compare_) s es t) (k : Key) (mem : k ∈ t.list.linkedKeys) :
    ∃ op, .insert op ∈ es ∧ op.key = k := by
  have empty : s.list.linkedKeys = ∅ := by
    refine (linkedKeysOf (all.recorded.steady _ (Nat.le_refl _)).linked).trans ?_
    simp [keysOf,level]
  have blank : Keys (fun k => ∃ op, .insert op ∈ es ∧ op.key = k) s := ⟨by simp [empty],by simp [idle,Writer.op]⟩
  exact (runKeys lawful all run (fun op called => ⟨op,called,rfl⟩) blank).linked k mem

end SkipList

open SkipList

section Reads

variable {ι : Type} [DecidableEq ι] {m : SkipList Extractable} {order' : List (Entry Extractable)}
variable {u : Bytes} {s : SequenceNumber}

def versionsOf (m : SkipList Extractable) : Set ParsedInternalKey :=
  {e | ∃ k ∈ m.linkedKeys, parseInternalKey k.1 = some e}

/- An exact answer of seek is where the lookup has to land. -/
theorem answerLands (linked : Linked (order BytewiseComparator) m order')
    (built : ∀ k ∈ m.linkedKeys, ∃ e : ParsedInternalKey, e.Valid ∧ appendInternalKey [] e = some k.1)
    (low : s ≤ s_max_sequence_number) {node_ : Option Ptr}
    (answer : Answers (order BytewiseComparator) m m (.seek (lookupTarget u s).extractable node_)) :
    ∃ r, FindsVersion (versionsOf m) u s r ∧ ∀ e,
      (∃ x k, node_ = some x ∧ m.Holds x k ∧ parseInternalKey k.1 = some e ∧ e.user_key = u) ↔
        r = some e ∧ e.user_key = u := by
  have lawful := orderLawful BytewiseComparator Slice.compareLawful
  have keys := linkedKeysOf linked
  let entries : List Extractable := (level order' 0).map Entry.key
  have members : ∀ k, k ∈ entries ↔ k ∈ m.linkedKeys := by
    intro k
    rw [keys,List.mem_map]
    rfl
  have versions : parsedOf entries = versionsOf m := by
    ext d
    simp only [parsedOf,versionsOf,members]
  have madeOf : Built entries := fun k mem => built k ((members k).mp mem)
  cases node_ with
  | none =>
    have least : OrderedCursor.Least (order BytewiseComparator) {k | k ∈ entries}
        (fun k => order BytewiseComparator (lookupTarget u s).extractable k ≤ 0) none :=
      fun k mem reached => answer k ((members k).mp mem) (lawful.nonposIff.mp reached)
    exact ⟨none,versions ▸ leastLands madeOf low least,by simp⟩
  | some x =>
    obtain ⟨k,holds,reached,first⟩ := answer
    have least : OrderedCursor.Least (order BytewiseComparator) {k | k ∈ entries}
        (fun k => order BytewiseComparator (lookupTarget u s).extractable k ≤ 0) (some k) := by
      refine ⟨(members k).mpr ⟨x,holds⟩,lawful.nonposIff.mpr reached,?_⟩
      intro d mem far
      have notBefore := first d ((members d).mp mem) (lawful.nonposIff.mp far)
      exact lawful.nonposIff.mpr (Int.not_lt.mp notBefore)
    obtain ⟨_,e0,parsed,finds,_⟩ := leastLands madeOf low least
    rw [versions] at finds
    refine ⟨some e0,finds,?_⟩
    intro e
    constructor
    · intro found
      obtain ⟨x',k',eq,holds',parsed',user⟩ := found
      cases Option.some.inj eq
      cases holdsKey holds holds'
      exact ⟨parsed.symm.trans parsed',user⟩
    · intro found
      exact ⟨x,k,rfl,holds,parsed.trans found.1,found.2⟩

end Reads

theorem newLow {l : LookupKey} (made : LookupKey.new u s = some l) : s ≤ s_max_sequence_number := by
  by_contra high
  have packs : packSequenceAndType s s_value_type_for_seek = none := if_neg high
  simp [LookupKey.new,packs] at made

theorem newTarget {l : LookupKey} {target : Extractable} (made : LookupKey.new u s = some l)
    (key : l.internalKey = target.1) : target = (lookupTarget u s).extractable := by
  obtain ⟨l',made',key',_⟩ := lookupKeyBytes (u := u) (newLow made)
  cases Option.some.inj (made.symm.trans made')
  exact Subtype.ext (key.symm.trans key')

theorem builtVersion {k : Extractable} {d e : ParsedInternalKey} (valid : e.Valid)
    (made : appendInternalKey [] e = some k.1) (parsed : parseInternalKey k.1 = some d) : e = d := by
  have bytes : e.encode = k.1 := Option.some.inj ((appendEncodes valid []).symm.trans made)
  exact Option.some.inj ((parseEncoded valid).symm.trans (bytes ▸ parsed))

/-- Lookups at a snapshot are repeatable. Whatever runs after the state in which
the snapshot was taken, and whatever stores the loads take, a seek for the lookup
key of u at s ends on the newest version of u up to s that the reader knew then, if
it knew any, as long as every other version that is inserted is of another key or
later. -/
theorem snapshotReads {ι : Type} [DecidableEq ι] (zero : Extractable) :
    ∃ s0 : WeakThreads Extractable ι, WeakThreads.new zero = .ok s0 ∧
      ∀ before began after s i n (u : Bytes) (sequence : SequenceNumber) l (target : Extractable) node_ t,
        LookupKey.new u sequence = some l → l.internalKey = target.1 →
        Machine.Run (WeakThreads.Step (order BytewiseComparator)) s0 before began →
        Machine.Run (WeakThreads.Step (order BytewiseComparator)) began after s →
        WeakThreads.Step (order BytewiseComparator) s (.read i n (some (.seek target node_))) t →
        (∀ op, .insert op ∈ before ++ after →
        ∃ e : ParsedInternalKey, e.Valid ∧ appendInternalKey [] e = some op.key.1 ∧
          (op.key ∈ (began.known i).linkedKeys ∨ ¬ Visible u sequence e)) →
        (∀ e, (∃ x k, node_ = some x ∧ (t.known i).Holds x k ∧ parseInternalKey k.1 = some e ∧ e.user_key = u) ↔
          Newest (versionsOf (began.known i)) u sequence e) ∧
        ((∃ d ∈ versionsOf (began.known i), Visible u sequence d) → ∃ x k e, node_ = some x ∧
          (t.known i).Holds x k ∧ parseInternalKey k.1 = some e ∧ e.user_key = u) := by
  have lawful := orderLawful BytewiseComparator Slice.compareLawful
  obtain ⟨s0,fresh,all,idle⟩ := WeakThreads.startLagging (ι := ι) (order BytewiseComparator) zero
  refine ⟨s0,fresh,?_⟩
  intro before began after s i n u sequence l target node_ t made key first rest read inserted
  obtain ⟨_,allB,_⟩ := WeakThreads.runLagging lawful all first
  obtain ⟨_,allS,later⟩ := WeakThreads.runLagging lawful allB rest
  obtain ⟨_,allT,last⟩ := WeakThreads.stepLagging lawful allS read
  have origin : ∀ k ∈ (t.known i).linkedKeys, ∃ op, .insert op ∈ before ++ after ∧ op.key = k := by
    intro k mem
    have inList := mem.imp fun x => recordedHolds allT.recorded (allT.seen i) (Nat.le_refl _) x k
    obtain ⟨op,called,same⟩ := runCalled lawful all idle (Machine.runSnoc (Machine.runAppend first rest) read) k inList
    exact ⟨op,by simpa using called,same⟩
  have grows : ∀ k ∈ (began.known i).linkedKeys, k ∈ (t.known i).linkedKeys := fun k mem =>
    mem.imp fun x => WeakThreads.knownLater allB.seen allT (WeakThreads.laterTrans later last) i x k
  have built : ∀ k ∈ (t.known i).linkedKeys, ∃ e : ParsedInternalKey, e.Valid ∧ appendInternalKey [] e = some k.1 := by
    intro k mem
    obtain ⟨op,called,rfl⟩ := origin k mem
    obtain ⟨e,valid,bytes,_⟩ := inserted op called
    exact ⟨e,valid,bytes⟩
  have agree : ∀ d, Visible u sequence d → (d ∈ versionsOf (t.known i) ↔ d ∈ versionsOf (began.known i)) := by
    intro d seen
    constructor
    · intro there
      obtain ⟨k,mem,parsed⟩ := there
      obtain ⟨op,called,rfl⟩ := origin k mem
      obtain ⟨e,valid,bytes,known⟩ := inserted op called
      cases builtVersion valid bytes parsed
      exact ⟨op.key,known.resolve_right (fun hidden => hidden seen),parsed⟩
    · intro there
      obtain ⟨k,mem,parsed⟩ := there
      exact ⟨k,grows k mem,parsed⟩
  have exact' := WeakThreads.readExact lawful allS read
  rw [newTarget made key] at exact'
  have linked := (allT.recorded.steady _ (allT.seen i)).linked
  obtain ⟨r,finds,lands⟩ := answerLands linked built (newLow made) exact'
  have newest := fun e => (lands e).trans (findsNewest finds)
  refine ⟨fun e => (newest e).trans (newestAgree agree),?_⟩
  intro known
  obtain ⟨d,mem,seen⟩ := known
  obtain ⟨e,best⟩ := findsVisible finds ((agree d seen).mpr mem) seen
  obtain ⟨x,k,found⟩ := (newest e).mpr best
  exact ⟨x,k,e,found⟩

/- One version is inserted, the reader learns of its three stores, and looks the
key up one sequence number later. -/
def version : Extractable := ParsedInternalKey.extractable ⟨[97],5,.TypeValue⟩

def sought : Extractable := (lookupTarget [97] 6).extractable

theorem versionRun : ∃ s0 began s t : WeakThreads Extractable Unit, WeakThreads.new sought = .ok s0 ∧
    Machine.Run (WeakThreads.Step (order BytewiseComparator)) s0
      [.insert ⟨version,1⟩,.write,.write,.write,.write,.write,.write,.write,.synchronise () 3] began ∧
    Machine.Run (WeakThreads.Step (order BytewiseComparator)) began
      [.call () (.find .seek sought),.read () 3 none] s ∧
    WeakThreads.Step (order BytewiseComparator) s (.read () 3 (some (.seek sought (some 1)))) t ∧
    (began.known ()).Holds 1 version := by
  obtain ⟨m,start,rep⟩ := newRepresents (order BytewiseComparator) sought
  have empty : m.linkedKeys = ∅ := (linkedKeysOf rep.linked).trans (by simp [keysOf,level])
  have fresh : ∀ k ∈ m.linkedKeys, order BytewiseComparator version k ≠ 0 := by simp [empty]
  have blank : WeakThreads.new sought =
      .ok (⟨⟨m,[]⟩,.idle,fun _ => ⟨.idle,Iterator.new⟩,fun _ => ReleaseAcquire.View.new⟩ :
        WeakThreads Extractable Unit) := by
    simp only [WeakThreads.new,start,bind,Except.bind]
  cases Except.ok.inj (start.symm.trans (newIs sought))
  exact ⟨_,_,_,_,blank,
    .cons (.insert rfl fresh (by decide) (by decide)) (.cons (.write rfl) (.cons (.write rfl) (.cons (.write rfl)
      (.cons (.write rfl) (.cons (.write rfl) (.cons (.write rfl) (.cons (.write rfl)
        (.cons (.synchronise (by decide)) (.nil _))))))))),
    .cons (.call rfl (by simp)) (.cons (.read (fun c eq => ⟨by decide,by cases eq; decide,by decide⟩) rfl) (.nil _)),
    .read (fun c eq => ⟨by decide,by cases eq; decide,by decide⟩) rfl,[1],_,⟨rfl,rfl⟩,by simp,rfl,rfl⟩

theorem snapshotReadsVersion : ∃ s0 began t : WeakThreads Extractable Unit, WeakThreads.new sought = .ok s0 ∧
    (began.known ()).Holds 1 version ∧
    (∀ e, (∃ x k, some 1 = some x ∧ (t.known ()).Holds x k ∧ parseInternalKey k.1 = some e ∧ e.user_key = [97]) ↔
      Newest (versionsOf (began.known ())) [97] 6 e) ∧
    ∃ x k e, some 1 = some x ∧ (t.known ()).Holds x k ∧ parseInternalKey k.1 = some e ∧ e.user_key = [97] := by
  obtain ⟨s0,fresh,reads⟩ := snapshotReads (ι := Unit) sought
  obtain ⟨s0',began,s,t,blank,before,after,read,holds⟩ := versionRun
  cases Except.ok.inj (fresh.symm.trans blank)
  obtain ⟨l,made,key,_⟩ := lookupKeyBytes (u := [97]) (s := 6) (by decide)
  have inserted : ∀ op, .insert op ∈ [WeakThreads.Event.insert ⟨version,1⟩,.write,.write,.write,.write,.write,.write,
      .write,.synchronise () 3] ++ [.call () (.find .seek sought),.read () 3 none] →
      ∃ e : ParsedInternalKey, e.Valid ∧ appendInternalKey [] e = some op.key.1 ∧
        (op.key ∈ (began.known ()).linkedKeys ∨ ¬ Visible [97] 6 e) := by
    intro op called
    have only : op = ⟨version,1⟩ := by simpa using called
    subst only
    exact ⟨⟨[97],5,.TypeValue⟩,by decide,appendEncodes (by decide) [],.inl ⟨1,holds⟩⟩
  obtain ⟨newest,answers⟩ := reads _ _ _ _ _ _ _ _ l sought _ _ made key before after read inserted
  have known : (⟨[97],5,.TypeValue⟩ : ParsedInternalKey) ∈ versionsOf (began.known ()) :=
    ⟨version,⟨1,holds⟩,parseEncoded (by decide)⟩
  exact ⟨s0,began,t,fresh,holds,newest,answers ⟨_,known,rfl,by decide⟩⟩

end KVStorage
