import KVStorage.StatusOwnership

/-! Statuses where operator new[] throws. What the operation was to build is not there,
and every object is as it was before, but for an error that is assigned to another
error: it has released its buffer by then and keeps the pointer. -/
namespace KVStorage.HeapStatus

open Support StatusHeap
open Ownership (Owned)

/- An operation calls operator new[] once at most, where the last of these holds. -/
def failing : NewArray := fun _ _ => none

def MayThrow (new : NewArray) : Prop :=
  ∀ heap size, new heap size = none ∨
    ∃ p bytes, new heap size = some (p,bytes) ∧ live heap p = none ∧ bytes.length = size

/- Nothing is asked of the lengths, as no buffer gets filled. -/
def Applies (s : State) : Op → Prop
  | .make x _ _ _ => s.vars x = none
  | op => Wellformed s op

def Allocates (s : State) : Op → Prop
  | .make _ _ _ _ => True
  | .copyConstruct _ y => (s.owner y).isSome
  | .copyAssign x y => (s.owner y).isSome ∧ s.owner x ≠ s.owner y
  | _ => False

/- The bytes that the constructor of an error asks for. -/
def stateBytes (msg msg2 : Bytes) : Nat :=
  let len1 := UInt32.ofNat msg.length
  let len2 := UInt32.ofNat msg2.length
  (len1 + (if len2 ≠ 0 then 2 + len2 else 0) + 5).toNat

/- The heap that operator new[] meets in an operation, and the size it is asked for. -/
def State.asks (s : State) : Op → Option (StatusHeap × Nat)
  | .make _ _ msg msg2 => some (s.heap,stateBytes msg msg2)
  | .copyConstruct _ y => do
    let state ← s.owner y
    let size ← (loadSize s.heap state).toOption
    some (s.heap,(size + 5).toNat)
  | .copyAssign x y => do
    let heap ← (s.heap.deleteArray (s.owner x)).toOption
    let state ← s.owner y
    let size ← (loadSize heap state).toOption
    some (heap,(size + 5).toNat)
  | _ => none

/- The operation's own request is refused. -/
structure Refused (s : State) (move : Op × NewArray) : Prop where
  allocates : Allocates s move.1
  none : ∃ heap size, s.asks move.1 = some (heap,size) ∧ move.2 heap size = none

/- Both objects hold an error. -/
def Dangles (s : State) : Op → Prop
  | .copyAssign x y => x ≠ y ∧ (s.owner x).isSome ∧ (s.owner y).isSome
  | _ => False

section Throws

variable {s : State} {t : Nat → Option Status} {x y p : Nat} {o : HeapStatus} {v : Status} {heap : StatusHeap}

theorem buildThrows (f : Factory) (msg msg2 : Bytes) (heap : StatusHeap) :
    f.build msg msg2 failing heap = .ok (none,heap) := by
  rw [buildIs,construct,if_neg (codeError f)]
  rfl

theorem copyStateThrows {state : StatuCode × Bytes} (there : live heap p = some (layout state)) :
    copyState p failing heap = .ok (none,heap) := by
  simp only [copyState,loadSizeSpec there,bind,Except.bind]
  rfl

/- The exception leaves the assignment behind the delete[]. -/
theorem assignThrows {o' : HeapStatus} {heap' : StatusHeap} {state : StatuCode × Bytes} (differ : o.state_ ≠ o'.state_)
    (released : heap.deleteArray o.state_ = .ok heap') (holds : o'.state_ = some p)
    (there : live heap' p = some (layout state)) : HeapStatus.copyAssign o o' failing heap = .ok (false,o,heap') := by
  rw [holds] at differ
  simp only [HeapStatus.copyAssign,holds,if_pos differ,released,copyStateThrows there,bind,Except.bind]

theorem stateOf (rep : Represents s t) (has : s.vars x = some o) (holds : o.state_ = some p) :
    ∃ state, live s.heap p = some (layout state) := by
  obtain ⟨v,value⟩ := valueOf rep has
  obtain ⟨pointer⟩ := o
  subst holds
  cases shown rep has value with
  | @error q state there sized => exact ⟨state,there⟩

theorem objectOf (owns : s.owner x = some p) : ∃ o, s.vars x = some o ∧ o.state_ = some p :=
  Option.bind_eq_some_iff.mp owns

/- Without an old buffer to release, the exception leaves everything as it was. -/
theorem throwKeeps (rep : Represents s t) {op : Op} (applies : Applies s op) (allocates : Allocates s op)
    (safe : ¬ Dangles s op) : step s (op,failing) = .ok s := by
  cases op with
  | make x f msg msg2 =>
    have dead : s.vars x = none := applies
    simp only [step,buildThrows,bind,Except.bind]
    rw [← dead,Function.update_eq_self]
  | copyConstruct x y =>
    obtain ⟨dead,alive⟩ := applies
    obtain ⟨o,has⟩ := Option.isSome_iff_exists.mp alive
    obtain ⟨p,owns⟩ := Option.isSome_iff_exists.mp allocates
    have holds : o.state_ = some p := (ownerOf has).symm.trans owns
    obtain ⟨state,there⟩ := stateOf rep has holds
    simp only [step,objectOk has,HeapStatus.copyConstruct,holds,copyStateThrows there,bind,Except.bind,Option.map_none]
    rw [← dead,Function.update_eq_self]
  | copyAssign x y =>
    obtain ⟨o,has⟩ := Option.isSome_iff_exists.mp applies.1
    obtain ⟨o',has'⟩ := Option.isSome_iff_exists.mp applies.2
    obtain ⟨p,owns⟩ := Option.isSome_iff_exists.mp allocates.1
    have holds : o'.state_ = some p := (ownerOf has').symm.trans owns
    obtain ⟨state,there⟩ := stateOf rep has' holds
    have null : o.state_ = none := by
      rw [← ownerOf has]
      by_contra error
      have apart : x ≠ y := fun eq => allocates.2 (congrArg s.owner eq)
      exact safe ⟨apart,Option.isSome_iff_ne_none.mpr error,allocates.1⟩
    have differ : o.state_ ≠ o'.state_ := by
      intro same
      rw [null,holds] at same
      cases same
    have released : s.heap.deleteArray o.state_ = .ok s.heap := by
      rw [null]
      rfl
    have thrown := assignThrows differ released holds there
    simp only [step,objectOk has,objectOk has',thrown,bind,Except.bind]
    rw [← has,Function.update_eq_self]
  | success x => exact absurd allocates id
  | moveConstruct x y => exact absurd allocates id
  | moveAssign x y => exact absurd allocates id
  | destroy x => exact absurd allocates id

/- The buffer of x is gone, and x still points to it. -/
theorem throwDangles (rep : Represents s t) (dangles : Dangles s (.copyAssign x y)) :
    ∃ p, s.owner x = some p ∧ step s (.copyAssign x y,failing) = .ok ⟨s.heap.erase p,s.vars⟩ := by
  obtain ⟨apart,first,second⟩ := dangles
  obtain ⟨p,owns⟩ := Option.isSome_iff_exists.mp first
  obtain ⟨q,owns'⟩ := Option.isSome_iff_exists.mp second
  obtain ⟨o,has,holds⟩ := objectOf owns
  obtain ⟨o',has',holds'⟩ := objectOf owns'
  have different : q ≠ p := fun eq => apart (rep.owned.alone x y p owns (eq ▸ owns'))
  obtain ⟨bytes,mine⟩ := rep.owned.held x p owns
  obtain ⟨state,there⟩ := stateOf rep has' holds'
  have kept : live (s.heap.erase p) q = some (layout state) := by
    rw [eraseLive,Function.update_of_ne different,there]
  have differ : o.state_ ≠ o'.state_ := by
    rw [holds,holds']
    exact fun eq => different (Option.some.inj eq).symm
  have thrown := assignThrows differ (holds ▸ deleteLive mine) holds' kept
  refine ⟨p,owns,?_⟩
  simp only [step,objectOk has,objectOk has',thrown,bind,Except.bind]
  rw [← has,Function.update_eq_self]

theorem danglesBreaks (owns : s.owner x = some p) : ¬ Represents ⟨s.heap.erase p,s.vars⟩ t := by
  intro rep
  obtain ⟨bytes,there⟩ := rep.owned.held x p owns
  rw [eraseLive,Function.update_self] at there
  cases there

theorem danglesFaults (owns : s.owner x = some p) (new : NewArray) :
    step ⟨s.heap.erase p,s.vars⟩ (.destroy x,new) = .error .notLive := by
  obtain ⟨o,has,holds⟩ := objectOf owns
  have gone : (s.heap.erase p).lookup p = none := AList.lookup_erase p s.heap
  have object : State.object ⟨s.heap.erase p,s.vars⟩ x = .ok o := objectOk has
  simp only [step,object,HeapStatus.destroy,holds,deleteArray,buffer,gone,bind,Except.bind]

end Throws

/- The allocator that does not throw, and is the given one where that does not. -/
def orAbove (new : NewArray) : NewArray := fun heap size => (new heap size).or (newAbove heap size)

theorem orAboveHonest {new : NewArray} (mayThrow : MayThrow new) : Honest (orAbove new) := by
  intro heap size
  rcases mayThrow heap size with thrown | ⟨p,bytes,made,free,length⟩
  · rw [orAbove,thrown,Option.none_or]
    exact aboveHonest heap size
  · exact ⟨p,bytes,by rw [orAbove,made,Option.some_or],free,length⟩

section Either

variable (new : NewArray) (heap : StatusHeap)

theorem newEither (size : Nat) : newArray new heap size = newArray (orAbove new) heap size ∨
    (new heap size = none ∧ newArray new heap size = newArray failing heap size) := by
  cases made : new heap size with
  | none => exact .inr ⟨rfl,by rw [newArray,made]; rfl⟩
  | some r => exact .inl (by rw [newArray,newArray,orAbove,made,Option.some_or])

theorem constructEither (code : StatuCode) (msg msg2 : Bytes) :
    construct code msg msg2 new heap = construct code msg msg2 (orAbove new) heap ∨
      (new heap (stateBytes msg msg2) = none ∧
        construct code msg msg2 new heap = construct code msg msg2 failing heap) := by
  simp only [construct]
  rcases newEither new heap (stateBytes msg msg2) with same | ⟨refused,same⟩
  · simp only [stateBytes] at same
    exact .inl (by rw [same])
  · simp only [stateBytes] at same
    exact .inr ⟨refused,by rw [same]⟩

theorem buildEither (f : Factory) (msg msg2 : Bytes) : f.build msg msg2 new heap = f.build msg msg2 (orAbove new) heap ∨
    (new heap (stateBytes msg msg2) = none ∧ f.build msg msg2 new heap = f.build msg msg2 failing heap) := by
  rw [buildIs]
  exact constructEither new heap f.code msg msg2

theorem copyStateEither (p : Nat) : copyState p new heap = copyState p (orAbove new) heap ∨
    ∃ size, loadSize heap p = .ok size ∧ new heap (size + 5).toNat = none ∧
      copyState p new heap = copyState p failing heap := by
  simp only [copyState,bind,Except.bind]
  cases loadSize heap p with
  | error e => exact .inl rfl
  | ok size =>
    rcases newEither new heap (size + 5).toNat with same | ⟨refused,same⟩
    · exact .inl (by simp only [same])
    · exact .inr ⟨size,rfl,refused,by simp only [same]⟩

theorem copyConstructEither (o : HeapStatus) :
    o.copyConstruct new heap = o.copyConstruct (orAbove new) heap ∨
      ∃ p size, o.state_ = some p ∧ loadSize heap p = .ok size ∧ new heap (size + 5).toNat = none ∧
        o.copyConstruct new heap = o.copyConstruct failing heap := by
  obtain ⟨pointer⟩ := o
  cases pointer with
  | none => exact .inl rfl
  | some p =>
    rcases copyStateEither new heap p with same | ⟨size,loaded,refused,same⟩
    · exact .inl (by simp only [HeapStatus.copyConstruct,same])
    · exact .inr ⟨p,size,rfl,loaded,refused,by simp only [HeapStatus.copyConstruct,same]⟩

theorem copyAssignEither (o o' : HeapStatus) :
    o.copyAssign o' new heap = o.copyAssign o' (orAbove new) heap ∨
      ∃ p size heap', o'.state_ = some p ∧ o.state_ ≠ o'.state_ ∧ heap.deleteArray o.state_ = .ok heap' ∧
        loadSize heap' p = .ok size ∧ new heap' (size + 5).toNat = none ∧
        o.copyAssign o' new heap = o.copyAssign o' failing heap := by
  by_cases differ : o.state_ ≠ o'.state_
  · simp only [HeapStatus.copyAssign,if_pos differ]
    cases released : heap.deleteArray o.state_ with
    | error e => exact .inl rfl
    | ok heap' =>
      cases pointer : o'.state_ with
      | none => exact .inl rfl
      | some p =>
        rcases copyStateEither new heap' p with same | ⟨size,loaded,refused,same⟩
        · exact .inl (by simp only [bind,Except.bind,same])
        · exact .inr ⟨p,size,heap',rfl,pointer ▸ differ,rfl,loaded,refused,by simp only [bind,Except.bind,same]⟩
  · have stays : ∀ other, o.copyAssign o' other heap = .ok (true,o,heap) := fun _ => if_neg differ
    exact .inl (by rw [stays,stays])

end Either

theorem objectFound {s : State} {x : Nat} {o : HeapStatus} (found : s.object x = .ok o) : s.vars x = some o := by
  unfold State.object at found
  split at found
  · cases found
  · rename_i has
    cases found
    exact has

/- One call of operator new[] at most, which returns or throws. -/
theorem stepEither (s : State) (op : Op) (new : NewArray) : step s (op,new) = step s (op,orAbove new) ∨
    (Refused s (op,new) ∧ step s (op,new) = step s (op,failing)) := by
  cases op with
  | make x f msg msg2 =>
    rcases buildEither new s.heap f msg msg2 with same | ⟨refused,same⟩
    · exact .inl (by simp only [step,same])
    · exact .inr ⟨⟨trivial,_,_,rfl,refused⟩,by simp only [step,same]⟩
  | copyConstruct x y =>
    cases object : s.object y with
    | error e => exact .inl (by simp only [step,object]; rfl)
    | ok o =>
      rcases copyConstructEither new s.heap o with same | ⟨p,size,error,loaded,refused,same⟩
      · exact .inl (by simp only [step,object,bind,Except.bind,same])
      · have owns : s.owner y = some p := (ownerOf (objectFound object)).trans error
        have asks : s.asks (.copyConstruct x y) = some (s.heap,(size + 5).toNat) := by
          simp only [State.asks,owns,loaded,Except.toOption,bind,Option.bind]
        have allocates : Allocates s (.copyConstruct x y) := by
          rw [Allocates,owns]
          rfl
        exact .inr ⟨⟨allocates,_,_,asks,refused⟩,by simp only [step,object,bind,Except.bind,same]⟩
  | copyAssign x y =>
    cases object : s.object x with
    | error e => exact .inl (by simp only [step,object]; rfl)
    | ok o =>
      cases object' : s.object y with
      | error e => exact .inl (by simp only [step,object,object']; rfl)
      | ok o' =>
        rcases copyAssignEither new s.heap o o' with
          same | ⟨p,size,heap',error,differ,released,loaded,refused,same⟩
        · exact .inl (by simp only [step,object,object',bind,Except.bind,same])
        · have owns : s.owner y = some p := (ownerOf (objectFound object')).trans error
          have holds : s.owner x = o.state_ := ownerOf (objectFound object)
          have asks : s.asks (.copyAssign x y) = some (heap',(size + 5).toNat) := by
            simp only [State.asks,holds,released,owns,loaded,Except.toOption,bind,Option.bind]
          have allocates : Allocates s (.copyAssign x y) := by
            refine ⟨by rw [owns]; rfl,?_⟩
            rw [holds,owns,← error]
            exact differ
          exact .inr ⟨⟨allocates,_,_,asks,refused⟩,by simp only [step,object,object',bind,Except.bind,same]⟩
  | success x => exact .inl rfl
  | moveConstruct x y => exact .inl rfl
  | moveAssign x y => exact .inl rfl
  | destroy x => exact .inl rfl

/- An error is assigned to another one only where operator new[] returns. -/
def Tolerable (s : State) (move : Op × NewArray) : Prop :=
  MayThrow move.2 ∧ Wellformed s move.1 ∧ (Dangles s move.1 → Honest move.2)

/- Objects and values make one step together. Where the step's own request is refused,
nothing has happened. -/
def Resolves (p : State × (Nat → Option Status)) (move : Op × NewArray) (q : State × (Nat → Option Status)) : Prop :=
  step p.1 move = .ok q.1 ∧ (q.2 = valueStep p.2 move.1 ∨ (Refused p.1 move ∧ q = p))

theorem wellformedApplies {s : State} {op : Op} (wellformed : Wellformed s op) : Applies s op := by
  cases op with
  | make x f msg msg2 => exact wellformed.1
  | success x => exact wellformed
  | copyConstruct x y => exact wellformed
  | copyAssign x y => exact wellformed
  | moveConstruct x y => exact wellformed
  | moveAssign x y => exact wellformed
  | destroy x => exact wellformed

/- The objects of a joint state, with values that describe them. -/
def Joint (s : State) (p : State × (Nat → Option Status)) : Prop := p.1 = s ∧ Represents p.1 p.2

theorem stepTolerates (s : State) (p : State × (Nat → Option Status)) (move : Op × NewArray) (joint : Joint s p)
    (tolerable : Tolerable s move) : ∃ s' q, step s move = .ok s' ∧ Resolves p move q ∧ Joint s' q := by
  obtain ⟨s,t⟩ := p
  obtain ⟨rfl,rep⟩ := joint
  obtain ⟨op,new⟩ := move
  obtain ⟨mayThrow,wellformed,safe⟩ := tolerable
  have returns := fun other honest => stepRepresents s t (op,other) rep ⟨honest,wellformed⟩
  by_cases honest : Honest new
  · obtain ⟨s',t',run,value,rep'⟩ := returns new honest
    exact ⟨s',(s',t'),run,⟨run,.inl value⟩,rfl,rep'⟩
  · rcases stepEither s op new with same | ⟨refused,same⟩
    · obtain ⟨s',t',run,value,rep'⟩ := returns (orAbove new) (orAboveHonest mayThrow)
      have run' := same.trans run
      exact ⟨s',(s',t'),run',⟨run',.inl value⟩,rfl,rep'⟩
    · have kept := throwKeeps rep (wellformedApplies wellformed) refused.allocates
        (fun dangles => honest (safe dangles))
      have run := same.trans kept
      exact ⟨s,(s,t),run,⟨run,.inr ⟨refused,rfl⟩⟩,rfl,rep⟩

/- The exception leaves the objects as they are described in t. -/
def Survives (s : State) (t : Nat → Option Status) (op : Op) : Prop :=
  ∃ s', step s (op,failing) = .ok s' ∧ Represents s' t

theorem survives {s : State} {t : Nat → Option Status} (rep : Represents s t) {op : Op} (applies : Applies s op)
    (allocates : Allocates s op) : Survives s t op ↔ ¬ Dangles s op := by
  constructor
  · intro ⟨s',run,rep'⟩ dangles
    cases op with
    | copyAssign x y =>
      obtain ⟨p,owns,left⟩ := throwDangles rep dangles
      cases Except.ok.inj (left.symm.trans run)
      exact danglesBreaks owns rep'
    | _ => exact dangles
  · intro safe
    exact ⟨s,throwKeeps rep applies allocates safe,rep⟩

theorem allocationFailures (s : State) (t : Nat → Option Status) (rep : Represents s t) :
    (∀ op, Applies s op → Allocates s op → (Survives s t op ↔ ¬ Dangles s op)) ∧
    ∀ moves, Machine.Legal Tolerable step s moves →
      ∃ s' t', moves.foldlM step s = .ok s' ∧ Machine.Run Resolves (s,t) moves (s',t') ∧ Represents s' t' ∧
        ∀ x o v, s'.vars x = some o → t' x = some v → Observed s'.heap o v := by
  refine ⟨fun op applies allocates => survives rep applies allocates,?_⟩
  intro moves legal
  have simulated : ∃ s' q, moves.foldlM step s = .ok s' ∧ Machine.Run Resolves (s,t) (moves.map id) q ∧ Joint s' q :=
    Machine.simulation stepTolerates ⟨rfl,rep⟩ legal
  obtain ⟨s',⟨_,t'⟩,run,values,rfl,rep'⟩ := simulated
  rw [List.map_id] at values
  exact ⟨_,t',run,values,rep',fun x o v has value => shownObserved (shown rep' has value)⟩

/- Two errors, the variables 0 and 1. -/
def twoErrors : List (Op × NewArray) :=
  [(.make 0 .notFound [107] [],newAbove),(.make 1 .ioError [101] [],newAbove)]

structure TwoErrors (s : State) (t : Nat → Option Status) : Prop where
  run : twoErrors.foldlM step State.empty = .ok s
  rep : Represents s t
  alive : (s.vars 0).isSome ∧ (s.vars 1).isSome ∧ s.vars 2 = none
  errors : (s.owner 0).isSome ∧ (s.owner 1).isSome

theorem errorOwns {s : State} {t : Nat → Option Status} {x : Nat} {state : StatuCode × Bytes} (rep : Represents s t)
    (value : t x = some ⟨some state⟩) : (s.vars x).isSome ∧ (s.owner x).isSome := by
  have content := congrFun rep.content x
  simp only [Function.comp_apply,image,value,Option.bind_some,Option.map_some] at content
  obtain ⟨p,owns,_⟩ := Option.bind_eq_some_iff.mp content
  obtain ⟨o,has,_⟩ := objectOf owns
  exact ⟨by rw [has]; rfl,by rw [owns]; rfl⟩

theorem twoErrorsMade : ∃ s t, TwoErrors s t := by
  have legal : Machine.Legal Allowed step State.empty twoErrors := by
    refine Machine.legalCons ⟨aboveHonest,rfl,by decide⟩ rfl ?_
    exact Machine.legalCons ⟨aboveHonest,rfl,by decide⟩ rfl trivial
  obtain ⟨s,t,run,values,rep⟩ := Machine.simulation stepRepresents emptyRepresents legal
  have folded := Machine.runFold values
  have first : t 0 = some ⟨some (.NotFound,[107])⟩ := congrFun folded 0
  have second : t 1 = some ⟨some (.IOError,[101])⟩ := congrFun folded 1
  have third : t 2 = none := congrFun folded 2
  obtain ⟨alive,owns⟩ := errorOwns rep first
  obtain ⟨alive',owns'⟩ := errorOwns rep second
  have free : s.vars 2 = none := by
    have same := rep.alive 2
    rwa [third,Option.isSome_none,Option.isSome_eq_false_iff,Option.isNone_iff_eq_none] at same
  exact ⟨s,t,run,rep,⟨alive,alive',free⟩,owns,owns'⟩

/- A copy of the first error that is not made leaves both as they are, and the first
one can be destroyed then. -/
theorem allocationFailuresTwo : ∃ s t, TwoErrors s t ∧ Survives s t (.copyConstruct 2 0) ∧
    ∃ s', [(Op.copyConstruct 2 0,failing),(.destroy 0,failing)].foldlM step s = .ok s' := by
  obtain ⟨s,t,two⟩ := twoErrorsMade
  obtain ⟨once,runs⟩ := allocationFailures s t two.rep
  have applies : Applies s (.copyConstruct 2 0) := ⟨two.alive.2.2,two.alive.1⟩
  have survived := (once (.copyConstruct 2 0) applies two.errors.1).mpr id
  have mayThrow : MayThrow failing := fun _ _ => .inl rfl
  have kept := throwKeeps two.rep applies two.errors.1 id
  have legal : Machine.Legal Tolerable step s [(Op.copyConstruct 2 0,failing),(.destroy 0,failing)] :=
    Machine.legalCons ⟨mayThrow,applies,False.elim⟩ kept ⟨⟨mayThrow,two.alive.1,False.elim⟩,fun _ _ => trivial⟩
  obtain ⟨s',_,run,_⟩ := runs _ legal
  exact ⟨s,t,two,survived,s',run⟩

/- The first error is to become a copy of the second, and is destroyed then. -/
theorem assignmentReleasesTwice : ∃ s t s', TwoErrors s t ∧
    Applies s (.copyAssign 0 1) ∧ Allocates s (.copyAssign 0 1) ∧ ¬ Survives s t (.copyAssign 0 1) ∧
    step s (.copyAssign 0 1,failing) = .ok s' ∧ step s' (.destroy 0,newAbove) = .error .notLive := by
  obtain ⟨s,t,two⟩ := twoErrorsMade
  obtain ⟨owns,owns'⟩ := two.errors
  have dangles : Dangles s (.copyAssign 0 1) := ⟨by decide,owns,owns'⟩
  have applies : Applies s (.copyAssign 0 1) := ⟨two.alive.1,two.alive.2.1⟩
  have differ : s.owner 0 ≠ s.owner 1 := by
    intro same
    obtain ⟨p,has⟩ := Option.isSome_iff_exists.mp owns
    exact absurd (two.rep.owned.alone 0 1 p has (same ▸ has)) (by decide)
  have allocates : Allocates s (.copyAssign 0 1) := ⟨owns',differ⟩
  obtain ⟨p,has,left⟩ := throwDangles two.rep dangles
  have broken : ¬ Survives s t (.copyAssign 0 1) :=
    fun survived => (survives two.rep applies allocates).mp survived dangles
  exact ⟨s,t,_,two,applies,allocates,broken,left,danglesFaults has newAbove⟩

end KVStorage.HeapStatus
