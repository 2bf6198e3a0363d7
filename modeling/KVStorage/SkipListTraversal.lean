import KVStorage.SkipListConcurrent
import Mathlib.Data.List.Pairwise

/-! What one reader sees from a seek on, while the writer goes on inserting. -/
namespace KVStorage.SkipList

open Support

variable {Key ι : Type} {compare_ : Key → Key → Int}
variable {m : SkipList Key} {order : List (Entry Key)}
variable {began now : SkipList Key} {target : Key} {nodes : List (Ptr × Key)} {ended : Bool}

/- The node that a call of seek or next puts its iterator on. -/
def Return.reached : Return Key → Option (Option Ptr)
  | .seek _ x | .next _ x => some x
  | .contains _ _ => none

def visit [DecidableEq ι] (i : ι) : Event Key ι → Option (Option Ptr)
  | .read j back => if j = i then back.bind Return.reached else none
  | _ => none

/- The nodes visited since `began` from a target on, and whether null was met:
a key that was there is among them, or still to come. -/
structure Covers (compare_ : Key → Key → Int) (began now : SkipList Key) (target : Key)
    (visited : List (Option Ptr)) (nodes : List (Ptr × Key)) (ended : Bool) : Prop where
  shown : visited = nodes.map (fun a => some a.1) ++ if ended then [none] else []
  held : ∀ a ∈ nodes, now.Holds a.1 a.2 ∧ compare_ a.2 target ≥ 0
  increasing : nodes.Pairwise (fun a b => compare_ a.2 b.2 < 0)
  complete : ∀ k ∈ began.linkedKeys, compare_ k target ≥ 0 →
    k ∈ nodes.map Prod.snd ∨ (ended = false ∧ ∀ a ∈ nodes, compare_ a.2 k < 0)

def Traversed (compare_ : Key → Key → Int) (began now : SkipList Key) (target : Key)
    (visited : List (Option Ptr)) : Prop :=
  ∃ nodes ended, Covers compare_ began now target visited nodes ended

def Arrived (x : Option Ptr) (nodes : List (Ptr × Key)) (ended : Bool) : Prop :=
  x = (if ended then none else nodes.getLast?.map Prod.fst) ∧ (ended = false → nodes ≠ [])

/- Where the reader is: its seek still runs, or its iterator is at the last node. -/
def Follows (r : Reader Key) (target : Key) (nodes : List (Ptr × Key)) (ended : Bool) : Prop :=
  (r.seeking = some target ∧ nodes = [] ∧ ended = false) ∨
  (r.seeking = none ∧ Arrived r.it.node_ nodes ended)

theorem holdsKey {x : Ptr} {k k' : Key} (left : m.Holds x k) (right : m.Holds x k') : k = k' := by
  obtain ⟨_,node,_,_,found,key⟩ := left
  obtain ⟨_,node',_,_,found',key'⟩ := right
  cases Except.ok.inj (found.symm.trans found')
  exact key.symm.trans key'

theorem coversLater {later : SkipList Key} {visited : List (Option Ptr)}
    (grows : ∀ x k, now.Holds x k → later.Holds x k)
    (covers : Covers compare_ began now target visited nodes ended) :
    Covers compare_ began later target visited nodes ended :=
  ⟨covers.shown,fun a mem => ⟨grows _ _ (covers.held a mem).1,(covers.held a mem).2⟩,
    covers.increasing,covers.complete⟩

section Lawful

variable (lawful : ThreeWay.Lawful compare_)

include lawful in
theorem sameKey (linked : Linked compare_ m order) {k k' : Key} (left : k ∈ m.linkedKeys)
    (right : k' ∈ m.linkedKeys) (same : compare_ k k' = 0) : k = k' := by
  obtain ⟨_,holds⟩ := left
  obtain ⟨_,holds'⟩ := right
  obtain ⟨e,he,_,_,rfl⟩ := (holdsIff linked).mp holds
  obtain ⟨d,hd,_,_,rfl⟩ := (holdsIff linked).mp holds'
  have comparable : order.Pairwise (fun a b => compare_ a.key b.key ≠ 0) :=
    linked.sorted.imp (fun less zero => by omega)
  have symmetric : Std.Symm (fun a b : Entry Key => compare_ a.key b.key ≠ 0) :=
    ⟨fun a b apart zero => apart (lawful.zeroIff.mp zero)⟩
  by_contra apart
  exact comparable.forall he hd (fun eq => apart (congrArg Entry.key eq)) same

include lawful in
theorem coversNext {visited : List (Option Ptr)} {x : Option Ptr} (linked : Linked compare_ m order)
    (fewer : began.linkedKeys ⊆ m.linkedKeys)
    (covers : Covers compare_ began m target visited nodes false)
    (finds : Finds compare_ (fun k => compare_ k target ≥ 0 ∧ ∀ a ∈ nodes, compare_ a.2 k < 0) m m x) :
    ∃ nodes' ended', Covers compare_ began m target (visited ++ [x]) nodes' ended' ∧
      Arrived x nodes' ended' := by
  have shown := covers.shown
  cases x with
  | none =>
    have complete : ∀ k ∈ began.linkedKeys, compare_ k target ≥ 0 →
        k ∈ nodes.map Prod.snd ∨ (true = false ∧ ∀ a ∈ nodes, compare_ a.2 k < 0) := by
      intro k mem from_
      rcases covers.complete k mem from_ with seen | ⟨_,ahead⟩
      · exact .inl seen
      · exact absurd ⟨from_,ahead⟩ (finds k (fewer mem))
    exact ⟨nodes,true,⟨by simp [shown],covers.held,covers.increasing,complete⟩,rfl,by simp⟩
  | some y =>
    obtain ⟨ky,holds,⟨from_,after⟩,least⟩ := finds
    have held : ∀ a ∈ nodes ++ [(y,ky)], m.Holds a.1 a.2 ∧ compare_ a.2 target ≥ 0 := by
      intro a mem
      rcases List.mem_append.mp mem with old | new
      · exact covers.held a old
      · cases List.mem_singleton.mp new
        exact ⟨holds,from_⟩
    have increasing : (nodes ++ [(y,ky)]).Pairwise (fun a b => compare_ a.2 b.2 < 0) := by
      refine List.pairwise_append.mpr ⟨covers.increasing,List.pairwise_singleton ..,?_⟩
      intro a mem b last
      cases List.mem_singleton.mp last
      exact after a mem
    have complete : ∀ k ∈ began.linkedKeys, compare_ k target ≥ 0 →
        k ∈ (nodes ++ [(y,ky)]).map Prod.snd ∨
          (false = false ∧ ∀ a ∈ nodes ++ [(y,ky)], compare_ a.2 k < 0) := by
      intro k mem fromTarget
      rcases covers.complete k mem fromTarget with seen | ⟨_,ahead⟩
      · exact .inl (by simp [seen])
      · have notBefore := least k (fewer mem) ⟨fromTarget,ahead⟩
        have le : compare_ ky k ≤ 0 := lawful.nonposIff.mpr (Int.not_lt.mp notBefore)
        rcases Int.lt_or_eq_of_le le with less | same
        · refine .inr ⟨rfl,?_⟩
          intro a ha
          rcases List.mem_append.mp ha with old | new
          · exact ahead a old
          · cases List.mem_singleton.mp new
            exact less
        · have eq := sameKey lawful linked ⟨y,holds⟩ (fewer mem) same
          exact .inl (by simp [eq])
    exact ⟨nodes ++ [(y,ky)],false,⟨by simp [shown],held,increasing,complete⟩,by simp,by simp⟩

include lawful in
theorem aheadOfLast {n : Ptr} {k : Key} {front : List (Ptr × Key)} {visited : List (Option Ptr)}
    (covers : Covers compare_ began m target visited (front ++ [(n,k)]) false) (c : Key) :
    (compare_ c target ≥ 0 ∧ ∀ a ∈ front ++ [(n,k)], compare_ a.2 c < 0) ↔ compare_ k c < 0 := by
  constructor
  · intro ahead
    exact ahead.2 (n,k) (by simp)
  · intro less
    have fromTarget := (covers.held (n,k) (by simp)).2
    have after := lawful.ltOfLeOfLt (lawful.nonposIff.mpr fromTarget) less
    refine ⟨Int.le_of_lt (lawful.negIff.mp after),?_⟩
    intro a mem
    rcases List.mem_append.mp mem with before | last
    · exact lawful.ltTrans ((List.pairwise_append.mp covers.increasing).2.2 a before (n,k) (by simp)) less
    · cases List.mem_singleton.mp last
      exact less

include lawful in
theorem nextCovers {n : Ptr} {visited : List (Option Ptr)} {x : Option Ptr} (linked : Linked compare_ m order)
    (fewer : began.linkedKeys ⊆ m.linkedKeys) (covers : Covers compare_ began m target visited nodes ended)
    (arrived : Arrived (some n) nodes ended) (answers : Answers compare_ m m (.next n x)) :
    ∃ nodes' ended', Covers compare_ began m target (visited ++ [x]) nodes' ended' ∧
      Arrived x nodes' ended' := by
  cases ended with
  | true => simp [Arrived] at arrived
  | false =>
    obtain ⟨a,last,node⟩ := Option.map_eq_some_iff.mp arrived.1.symm
    obtain ⟨front,rfl⟩ := List.getLast?_eq_some_iff.mp last
    obtain ⟨k,holds,finds⟩ := answers
    obtain ⟨n',k'⟩ := a
    cases node
    have key : k' = k := holdsKey (covers.held (n',k') (by simp)).1 holds
    subst k'
    have same : (fun c => compare_ k c < 0) =
        fun c => compare_ c target ≥ 0 ∧ ∀ a ∈ front ++ [(n',k)], compare_ a.2 c < 0 :=
      funext fun c => propext (aheadOfLast lawful covers c).symm
    rw [same] at finds
    exact coversNext lawful linked fewer covers finds

include lawful in
theorem readCovers {r r' : Reader Key} {back : Option (Return Key)} {visited : List (Option Ptr)}
    (linked : Linked compare_ m order) (moved : ReaderMoved compare_ m order r r' back)
    (fewer : began.linkedKeys ⊆ m.linkedKeys) (covers : Covers compare_ began m target visited nodes ended)
    (follows : Follows r target nodes ended) [DecidableEq ι] (i : ι) :
    ∃ nodes' ended', Covers compare_ began m target (visited ++ (visit i (.read i back)).toList) nodes' ended' ∧
      Follows r' target nodes' ended' := by
  have ends := moved.ends
  cases back with
  | none =>
    have still : Follows r' target nodes ended := by
      unfold Follows
      rw [ends.1,ends.2]
      exact follows
    exact ⟨nodes,ended,by simpa [visit] using covers,still⟩
  | some b =>
    have answers := moved.answer b rfl
    cases b with
    | seek t x =>
      obtain ⟨seeking,idle,it⟩ := ends
      rcases follows with ⟨mine,rfl,rfl⟩ | ⟨none,_⟩
      · cases Option.some.inj (seeking.symm.trans mine)
        have finds : Finds compare_ (fun k => compare_ k target ≥ 0 ∧
            ∀ a ∈ ([] : List (Ptr × Key)), compare_ a.2 k < 0) m m x := by
          simpa [Answers] using answers
        obtain ⟨nodes',ended',covers',arrived⟩ := coversNext lawful linked fewer covers finds
        exact ⟨nodes',ended',by simpa [visit,Return.reached] using covers',.inr ⟨idle,by rw [it]; exact arrived⟩⟩
      · rw [seeking] at none
        contradiction
    | contains t found =>
      obtain ⟨before,idle,it⟩ := ends
      rcases follows with ⟨mine,_⟩ | ⟨_,arrived⟩
      · rw [before] at mine
        contradiction
      · exact ⟨nodes,ended,by simpa [visit,Return.reached] using covers,.inr ⟨idle,by rw [it]; exact arrived⟩⟩
    | next n x =>
      obtain ⟨before,idle,on,it⟩ := ends
      rcases follows with ⟨mine,_⟩ | ⟨_,arrived⟩
      · rw [before] at mine
        contradiction
      · rw [on] at arrived
        obtain ⟨nodes',ended',covers',arrived'⟩ := nextCovers lawful linked fewer covers arrived answers
        exact ⟨nodes',ended',by simpa [visit,Return.reached] using covers',.inr ⟨idle,by rw [it]; exact arrived'⟩⟩

variable [DecidableEq ι] {s t : Threads Key ι} {e : Event Key ι} {i : ι}

include lawful in
theorem stepCovers {visited : List (Option Ptr)} (all : Together compare_ order s)
    (step : Threads.Step compare_ s e t) (quiet : ∀ t', e ≠ .call i (.find .seek t'))
    (fewer : began.linkedKeys ⊆ s.list.linkedKeys)
    (covers : Covers compare_ began s.list target visited nodes ended)
    (follows : Follows (s.readers i) target nodes ended) :
    ∃ nodes' ended', Covers compare_ began t.list target (visited ++ (visit i e).toList) nodes' ended' ∧
      Follows (t.readers i) target nodes' ended' := by
  cases step with
  | insert idle fresh one low => exact ⟨nodes,ended,by simpa [visit] using covers,follows⟩
  | write ok =>
    obtain ⟨m',w',order',run,steady,_,grows⟩ := writerMoves lawful all.steady all.writer
    cases Except.ok.inj (ok.symm.trans run)
    have later := coversLater (fun _ _ => holdsGrows all.steady.linked steady.linked grows) covers
    exact ⟨nodes,ended,by simpa [visit] using later,follows⟩
  | call idle valid =>
    rename_i j q
    have after : Follows ((s.set j {s.readers j with phase := .begin q}).readers i) target nodes ended := by
      by_cases same : i = j
      · subst j
        have before : (s.readers i).seeking = none := by simp [Reader.seeking,idle]
        have still : ({s.readers i with phase := .begin q} : Reader Key).seeking = none := by
          unfold Reader.seeking
          split
          · rename_i t' eq
            cases eq
            exact absurd rfl (quiet t')
          · contradiction
          · rfl
        rcases follows with ⟨mine,_⟩ | ⟨_,arrived⟩
        · rw [before] at mine
          contradiction
        · have here : Follows {s.readers i with phase := .begin q} target nodes ended := .inr ⟨still,arrived⟩
          simpa [Threads.set] using here
      · simpa [Threads.set,same] using follows
    exact ⟨nodes,ended,by simpa [visit,Threads.set] using covers,after⟩
  | read ok =>
    rename_i j r back
    by_cases same : i = j
    · subst j
      obtain ⟨r',back',moved⟩ := readerMoves lawful all.steady (all.readers i)
      cases Except.ok.inj (ok.symm.trans moved.run)
      obtain ⟨nodes',ended',covers',follows'⟩ :=
        readCovers lawful all.steady.linked moved fewer covers follows i
      exact ⟨nodes',ended',covers',by simpa [Threads.set] using follows'⟩
    · have elsewhere : visit i (.read j back : Event Key ι) = none := if_neg (Ne.symm same)
      exact ⟨nodes,ended,by simpa [elsewhere,Threads.set] using covers,by simpa [Threads.set,same] using follows⟩

include lawful in
theorem runCovers {es : List (Event Key ι)} {visited : List (Option Ptr)} (all : Together compare_ order s)
    (run : Machine.Run (Threads.Step compare_) s es t) (quiet : ∀ t', .call i (.find .seek t') ∉ es)
    (fewer : began.linkedKeys ⊆ s.list.linkedKeys)
    (covers : Covers compare_ began s.list target visited nodes ended)
    (follows : Follows (s.readers i) target nodes ended) :
    Traversed compare_ began t.list target (visited ++ es.filterMap (visit i)) := by
  induction run generalizing order visited nodes ended with
  | nil => exact ⟨nodes,ended,by simpa using covers⟩
  | @cons s e u es t head tail ih =>
    have calm : ∀ t', e ≠ .call i (.find .seek t') := by
      intro t' eq
      exact quiet t' (by simp [eq])
    obtain ⟨nodes1,ended1,covers1,follows1⟩ := stepCovers lawful all head calm fewer covers follows
    obtain ⟨order1,all1,grows⟩ := stepTogether lawful all head
    have fewer1 : began.linkedKeys ⊆ u.list.linkedKeys := by
      intro k mem
      obtain ⟨x,holds⟩ := fewer mem
      exact ⟨x,holdsGrows all.steady.linked all1.steady.linked grows holds⟩
    have rest := ih all1 (fun t' mem => quiet t' (List.mem_cons_of_mem _ mem)) fewer1 covers1 follows1
    cases seen : visit i e with
    | none => simpa [seen] using rest
    | some x => simpa [seen] using rest

/- What holds of a state and of everything that runs on from it. Every answer
is measured against any earlier state, so also against the one its call began
in; `traversals` follows one reader from a seek to before its next seek. -/
structure Observed (compare_ : Key → Key → Int) (began : Threads Key ι) : Prop where
  writes : ∃ r, began.writer.step compare_ began.list = .ok r
  reads : ∀ i, ∃ r, (began.readers i).step compare_ began.list = .ok r
  answers : ∀ es s i b t, Machine.Run (Threads.Step compare_) began es s →
    Threads.Step compare_ s (.read i (some b)) t → Answers compare_ began.list t.list b
  traversals : ∀ es s i target,
    Machine.Run (Threads.Step compare_) began (.call i (.find .seek target)::es) s →
    (∀ t', .call i (.find .seek t') ∉ es) →
    Traversed compare_ began.list s.list target (es.filterMap (visit i))

include lawful in
theorem togetherObserved {began : Threads Key ι} (all : Together compare_ order began) :
    Observed compare_ began := by
  obtain ⟨m',w',_,wrote,_⟩ := writerMoves lawful all.steady all.writer
  refine ⟨⟨_,wrote⟩,?_,?_,?_⟩
  · intro i
    obtain ⟨r',back,moved⟩ := readerMoves lawful all.steady (all.readers i)
    exact ⟨_,moved.run⟩
  · intro es s i b t run step
    obtain ⟨order',all',grows⟩ := runTogether lawful all run
    cases step with
    | read ok =>
      obtain ⟨r',back,moved⟩ := readerMoves lawful all'.steady (all'.readers i)
      cases Except.ok.inj (ok.symm.trans moved.run)
      have fewer : began.list.linkedKeys ⊆ s.list.linkedKeys := fun k mem =>
        mem.imp fun _ => holdsGrows all.steady.linked all'.steady.linked grows
      exact answersEarlier fewer (moved.answer b rfl)
  · intro es s i target run quiet
    cases run with
    | cons head tail =>
      obtain ⟨order',all',_⟩ := stepTogether lawful all head
      cases head with
      | call idle valid =>
        have covers : Covers compare_ began.list began.list target [] [] false :=
          ⟨rfl,by simp,List.Pairwise.nil,fun _ _ _ => .inr ⟨rfl,by simp⟩⟩
        have follows : Follows ((began.set i {began.readers i with phase := .begin (.find .seek target)}).readers i)
            target [] false := .inl ⟨by simp [Threads.set,Reader.seeking],rfl,rfl⟩
        exact runCovers lawful all' tail quiet (fun _ mem => mem) covers follows

end Lawful

/-- One writer and any number of readers on a fresh list, in any interleaving:
no step of a reached state faults, so none loads a cell that was not stored to;
every answer of a reader is right for each state before it; and a traversal
visits keys in increasing order and misses none that was linked at its start. -/
theorem readersMissNothing [DecidableEq ι] (lawful : ThreeWay.Lawful compare_) (zero : Key) :
    ∃ s0 : Threads Key ι, Threads.new zero = .ok s0 ∧
      ∀ es began, Machine.Run (Threads.Step compare_) s0 es began → Observed compare_ began := by
  obtain ⟨m,start,rep⟩ := newRepresents compare_ zero
  have all : Together compare_ [] (⟨m,.idle,fun _ => ⟨.idle,Iterator.new⟩⟩ : Threads Key ι) :=
    ⟨representsSteady rep,rep,fun _ => idleAt (by simp [OnNode,Iterator.new])⟩
  have fresh : Threads.new zero = .ok (⟨m,.idle,fun _ => ⟨.idle,Iterator.new⟩⟩ : Threads Key ι) := by
    simp only [Threads.new,start,bind,Except.bind]
  refine ⟨_,fresh,?_⟩
  intro es began run
  obtain ⟨order,here,_⟩ := runTogether lawful all run
  exact togetherObserved lawful here

theorem seekAfterInsert : ∃ s0, Threads.new (0 : Int) = .ok s0 ∧
    ∃ began, Machine.Run (Threads.Step (fun a b => a - b)) s0 (.insert ⟨5,1⟩::List.replicate 7 .write) began ∧
    ∃ s, Machine.Run (Threads.Step (fun a b => a - b)) began
      [.call (0 : Nat) (.find .seek 3),.read 0 none,.read 0 (some (.seek 3 (some 1)))] s ∧ s.writer = .idle := by
  refine ⟨_,rfl,Machine.runHead (.insert rfl (newFresh 0 rfl) (by decide) (by decide)) ?_⟩
  iterate 7 refine Machine.runHead (.write rfl) ?_
  refine ⟨_,.nil _,Machine.runHead (.call rfl (by simp)) ?_⟩
  exact Machine.runHead (.read rfl) (Machine.runHead (.read rfl) ⟨_,.nil _,rfl⟩)

theorem readersMissNothingInt : ∃ s0 began s, Threads.new (0 : Int) = .ok s0 ∧
    Machine.Run (Threads.Step (fun a b => a - b)) s0 (.insert ⟨5,1⟩::List.replicate 7 .write) began ∧
    Machine.Run (Threads.Step (fun a b => a - b)) began
      [.call (0 : Nat) (.find .seek 3),.read 0 none,.read 0 (some (.seek 3 (some 1)))] s ∧
    Observed (fun a b => a - b) began := by
  obtain ⟨s0,start,observed⟩ := readersMissNothing (ι := Nat) ThreeWay.differenceLawful 0
  obtain ⟨s1,start',began,inserts,s,seeks,_⟩ := seekAfterInsert
  cases Except.ok.inj (start.symm.trans start')
  exact ⟨s0,began,s,start,inserts,seeks,observed _ began inserts⟩

end KVStorage.SkipList
