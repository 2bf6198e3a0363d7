import KVStorage.StatusBuffers
import Mathlib.Data.List.MinMax

/-! Statuses have value semantics: over any sequence of operations each object
alone owns its live buffer, and its observers answer as those of a plain value. -/
namespace KVStorage.HeapStatus

open Support StatusHeap
open Ownership (Owned)

/- The variables of a program; nothing stands for one that is not alive. -/
structure State where
  heap : StatusHeap
  vars : Nat → Option HeapStatus

def State.empty : State := ⟨∅,fun _ => none⟩

inductive Op where
  | make (x : Nat) (f : Factory) (msg msg2 : Bytes)
  | success (x : Nat)
  | copyConstruct (x y : Nat)
  | copyAssign (x y : Nat)
  | moveConstruct (x y : Nat)
  | moveAssign (x y : Nat)
  | destroy (x : Nat)
  deriving DecidableEq, Repr

def State.object (s : State) (x : Nat) : Except StatusHeap.Fault HeapStatus :=
  match s.vars x with
  | none => .error .noObject
  | some o => .ok o

/- One operation with the operator new[] it meets. -/
def step (s : State) (move : Op × NewArray) : Except StatusHeap.Fault State :=
  match move.1 with
  | .make x f msg msg2 => do
    let (made,heap) ← f.build msg msg2 move.2 s.heap
    .ok ⟨heap,Function.update s.vars x made⟩
  | .success x => .ok ⟨s.heap,Function.update s.vars x (some HeapStatus.success)⟩
  | .copyConstruct x y => do
    let (made,heap) ← HeapStatus.copyConstruct (← s.object y) move.2 s.heap
    .ok ⟨heap,Function.update s.vars x made⟩
  | .copyAssign x y => do
    let (_,assigned,heap) ← HeapStatus.copyAssign (← s.object x) (← s.object y) move.2 s.heap
    .ok ⟨heap,Function.update s.vars x (some assigned)⟩
  | .moveConstruct x y => do
    let (made,source) := HeapStatus.moveConstruct (← s.object y)
    .ok ⟨s.heap,Function.update (Function.update s.vars x (some made)) y (some source)⟩
  | .moveAssign x y => do
    let (target,source) := HeapStatus.moveAssign (← s.object x) (← s.object y)
    .ok ⟨s.heap,Function.update (Function.update s.vars x (some target)) y (some source)⟩
  | .destroy x => do
    let heap ← HeapStatus.destroy (← s.object x) s.heap
    .ok ⟨heap,Function.update s.vars x none⟩

/- An object is constructed where none is alive, and used while it is alive. -/
def Wellformed (s : State) : Op → Prop
  | .make x _ msg msg2 => s.vars x = none ∧ msg.length + msg2.length + 7 < 2^32
  | .success x => s.vars x = none
  | .copyConstruct x y => s.vars x = none ∧ (s.vars y).isSome
  | .copyAssign x y => (s.vars x).isSome ∧ (s.vars y).isSome
  | .moveConstruct x y => s.vars x = none ∧ (s.vars y).isSome
  | .moveAssign x y => (s.vars x).isSome ∧ (s.vars y).isSome
  | .destroy x => (s.vars x).isSome

def Allowed (s : State) (move : Op × NewArray) : Prop := Honest move.2 ∧ Wellformed s move.1

/- The same operations on variables that hold values. -/
def valueStep (t : Nat → Option Status) : Op → Nat → Option Status
  | .make x f msg msg2 => Function.update t x (some (f.value msg msg2))
  | .success x => Function.update t x (some .success)
  | .copyConstruct x y => Function.update t x (t y)
  | .copyAssign x y => Function.update t x (t y)
  | .moveConstruct x y => Function.update (Function.update t x (t y)) y (some .success)
  | .moveAssign x y => Function.update (Function.update t x (t y)) y (t x)
  | .destroy x => Function.update t x none

def ValueMoves (t : Nat → Option Status) (op : Op) (t' : Nat → Option Status) : Prop := t' = valueStep t op

/- Who holds which buffer, and the bytes a value asks for. -/
def State.owner (s : State) : Nat → Option Nat := (Option.bind · HeapStatus.state_) ∘ s.vars

def image (v : Option Status) : Option Bytes := (v.bind Status.state_).map layout

structure Represents (s : State) (t : Nat → Option Status) : Prop where
  owned : Owned (live s.heap) s.owner
  content : Ownership.content (live s.heap) s.owner = image ∘ t
  alive : ∀ x, (s.vars x).isSome = (t x).isSome
  sized : ∀ x v state, t x = some v → v.state_ = some state → Sized state

section Steps

variable {s : State} {t : Nat → Option Status} {x y : Nat} {o : HeapStatus} {v : Status} {new : NewArray}

theorem objectOk (has : s.vars x = some o) : s.object x = .ok o := by rw [State.object,has]

theorem ownerUpdate (heap : StatusHeap) (vars : Nat → Option HeapStatus) (x : Nat) (o : Option HeapStatus) :
    State.owner ⟨heap,Function.update vars x o⟩ =
      Function.update (State.owner ⟨heap,vars⟩) x (o.bind HeapStatus.state_) := Function.comp_update ..

theorem ownerOf (has : s.vars x = some o) : s.owner x = o.state_ := by
  simp only [State.owner,Function.comp_apply,has,Option.bind_some]

theorem valueOf (rep : Represents s t) (has : s.vars x = some o) : ∃ v, t x = some v := by
  have alive := rep.alive x
  rw [has] at alive
  exact Option.isSome_iff_exists.mp alive.symm

theorem shown (rep : Represents s t) (has : s.vars x = some o) (value : t x = some v) : Shows s.heap o v := by
  have content := congrFun rep.content x
  simp only [Function.comp_apply,image,value,Option.bind_some] at content
  obtain ⟨pointer⟩ := o
  obtain ⟨held⟩ := v
  cases pointer with
  | none =>
    rw [Ownership.content,ownerOf has,Option.bind_none] at content
    have nothing : held = none := Option.map_eq_none_iff.mp content.symm
    subst nothing
    exact .success
  | some p =>
    obtain ⟨bytes,there,seen⟩ := Ownership.contentSome rep.owned (ownerOf has)
    obtain ⟨state,holds,eq⟩ := Option.map_eq_some_iff.mp (content.symm.trans seen)
    subst holds eq
    exact .error there (rep.sized x _ state value rfl)

theorem aliveUpdate (rep : Represents s t) {o : Option HeapStatus} {v : Option Status} (same : o.isSome = v.isSome)
    (z : Nat) : (Function.update s.vars x o z).isSome = (Function.update t x v z).isSome := by
  by_cases here : z = x
  · subst here
    rw [Function.update_self,Function.update_self,same]
  · rw [Function.update_of_ne here,Function.update_of_ne here,rep.alive z]

theorem sizedUpdate (rep : Represents s t) {v : Option Status}
    (sized : ∀ state, v.bind Status.state_ = some state → Sized state) (z : Nat) (w : Status)
    (state : StatuCode × Bytes) (value : Function.update t x v z = some w) (holds : w.state_ = some state) :
    Sized state := by
  by_cases here : z = x
  · subst here
    rw [Function.update_self] at value
    exact sized state (by rw [value,Option.bind_some,holds])
  · rw [Function.update_of_ne here] at value
    exact rep.sized z w state value holds

theorem nothingSized {v : Option Status} (empty : v.bind Status.state_ = none) (state : StatuCode × Bytes)
    (holds : v.bind Status.state_ = some state) : Sized state := by
  rw [empty] at holds
  cases holds

/- A variable gives up what it holds, if anything, and is null or dead afterwards. -/
theorem clears (rep : Represents s t) (x : Nat) : ∃ heap, s.heap.deleteArray (s.owner x) = .ok heap ∧
    ∀ (o : Option HeapStatus) (v : Option Status), o.bind HeapStatus.state_ = none → v.bind Status.state_ = none →
      o.isSome = v.isSome → Represents ⟨heap,Function.update s.vars x o⟩ (Function.update t x v) := by
  cases holds : s.owner x with
  | none =>
    refine ⟨s.heap,rfl,?_⟩
    intro o v null empty same
    have owner : State.owner ⟨s.heap,Function.update s.vars x o⟩ = s.owner := by
      rw [ownerUpdate,null,← holds]
      exact Function.update_eq_self x _
    have before := congrFun rep.content x
    have content : image ∘ Function.update t x v = image ∘ t := by
      have nothing : image v = image (t x) := by
        have idle : Ownership.content (live s.heap) s.owner x = none := by
          rw [Ownership.content,holds,Option.bind_none]
        rw [← Function.comp_apply (f := image),← before,idle,image,empty,Option.map_none]
      rw [Function.comp_update,nothing]
      exact Function.update_eq_self x _
    exact ⟨owner ▸ rep.owned,by rw [owner,content]; exact rep.content,aliveUpdate rep same,
      sizedUpdate rep (nothingSized empty)⟩
  | some p =>
    obtain ⟨bytes,there⟩ := rep.owned.held x p holds
    refine ⟨s.heap.erase p,deleteLive there,?_⟩
    intro o v null empty same
    have owner : State.owner ⟨s.heap.erase p,Function.update s.vars x o⟩ = Function.update s.owner x none := by
      rw [ownerUpdate,null]
      rfl
    have owned := Ownership.releaseOwned rep.owned holds
    have content := Ownership.releaseContent rep.owned holds
    rw [← eraseLive,← owner] at owned content
    have nothing : image v = none := by rw [image,empty,Option.map_none]
    have seen : image ∘ Function.update t x v = Function.update (image ∘ t) x none := by
      rw [Function.comp_update,nothing]
    exact ⟨owned,by rw [content,rep.content,seen],aliveUpdate rep same,sizedUpdate rep (nothingSized empty)⟩

/- A variable that holds nothing gets a new buffer. -/
theorem installs (rep : Represents s t) (idle : s.owner x = none) {state : StatuCode × Bytes} (sized : Sized state)
    {p : Nat} {heap : StatusHeap} (free : live s.heap p = none)
    (after : live heap = Function.update (live s.heap) p (some (layout state))) :
    Represents ⟨heap,Function.update s.vars x (some ⟨some p⟩)⟩ (Function.update t x (some ⟨some state⟩)) := by
  have owner : State.owner ⟨heap,Function.update s.vars x (some ⟨some p⟩)⟩ = Function.update s.owner x (some p) :=
    ownerUpdate ..
  have owned := Ownership.takeOwned (b := layout state) rep.owned idle free
  have content := Ownership.takeContent (i := x) (b := layout state) rep.owned free
  rw [← after,← owner] at owned content
  have seen : image ∘ Function.update t x (some ⟨some state⟩) =
      Function.update (image ∘ t) x (some (layout state)) := Function.comp_update ..
  have sized' : ∀ other, (some (Status.mk (some state))).bind Status.state_ = some other → Sized other := by
    intro other eq
    cases eq
    exact sized
  exact ⟨owned,by rw [content,rep.content,seen],aliveUpdate rep rfl,sizedUpdate rep sized'⟩

theorem exchanges (rep : Represents s t) (e : Equiv.Perm Nat) : Represents ⟨s.heap,s.vars ∘ e⟩ (t ∘ e) where
  owned := Ownership.exchangeOwned rep.owned e
  content := by
    have moved := congrArg (· ∘ e) rep.content
    exact moved
  alive z := rep.alive (e z)
  sized z := rep.sized (e z)

theorem setsNull (rep : Represents s t) (idle : s.owner x = none) :
    Represents ⟨s.heap,Function.update s.vars x (some ⟨none⟩)⟩ (Function.update t x (some ⟨none⟩)) := by
  obtain ⟨heap,run,after⟩ := clears rep x
  rw [idle] at run
  cases run
  exact after _ _ rfl rfl rfl

theorem copies (honest : Honest new) (rep : Represents s t) (idle : s.owner x = none) (has : s.vars y = some o)
    (value : t y = some v) : ∃ made heap, HeapStatus.copyConstruct o new s.heap = .ok (some made,heap) ∧
      Represents ⟨heap,Function.update s.vars x (some made)⟩ (Function.update t x (some v)) := by
  cases shown rep has value with
  | success => exact ⟨⟨none⟩,s.heap,rfl,setsNull rep idle⟩
  | error there sized =>
    obtain ⟨p,heap,run,free,after⟩ := copyStateSpec honest there sized
    refine ⟨⟨some p⟩,heap,?_,installs rep idle sized free after⟩
    simp only [HeapStatus.copyConstruct,run,bind,Except.bind,Option.map_some]

theorem deadIdle (dead : s.vars x = none) : s.owner x = none := by
  simp only [State.owner,Function.comp_apply,dead,Option.bind_none]

/- Objects with one pointer are both null or the same variable, so leaving them
alone is a copy. -/
theorem samePointer (rep : Represents s t) {o' : HeapStatus} {v' : Status} (has : s.vars x = some o)
    (value : t x = some v) (has' : s.vars y = some o') (value' : t y = some v') (same : o.state_ = o'.state_) :
    v = v' := by
  have left := shown rep has value
  have right := shown rep has' value'
  cases left with
  | success =>
    cases right with
    | success => rfl
    | error there sized => cases same
  | error there sized =>
    have eq : x = y := rep.owned.alone x y _ (ownerOf has) ((ownerOf has').trans same.symm)
    subst eq
    exact Option.some.inj (value.symm.trans value')

theorem assigns (honest : Honest new) (rep : Represents s t) {o' : HeapStatus} {v' : Status} (has : s.vars x = some o)
    (value : t x = some v) (has' : s.vars y = some o') (value' : t y = some v') :
    ∃ assigned heap, HeapStatus.copyAssign o o' new s.heap = .ok (true,assigned,heap) ∧
      Represents ⟨heap,Function.update s.vars x (some assigned)⟩ (Function.update t x (some v')) := by
  unfold HeapStatus.copyAssign
  by_cases same : o.state_ = o'.state_
  · rw [if_neg (not_not.mpr same)]
    refine ⟨o,s.heap,rfl,?_⟩
    rw [← samePointer rep has value has' value' same,← has,← value,Function.update_eq_self,Function.update_eq_self]
    exact rep
  · rw [if_pos same]
    obtain ⟨heap,run,after⟩ := clears rep x
    rw [ownerOf has] at run
    have cleared := after (some ⟨none⟩) (some ⟨none⟩) rfl rfl rfl
    have apart : y ≠ x := by
      intro eq
      subst eq
      exact same (congrArg HeapStatus.state_ (Option.some.inj (has.symm.trans has')))
    have idle : State.owner ⟨heap,Function.update s.vars x (some ⟨none⟩)⟩ x = none := by
      rw [ownerUpdate,Function.update_self]
      rfl
    have source : Function.update s.vars x (some ⟨none⟩) y = some o' := by rw [Function.update_of_ne apart,has']
    have copied : Function.update t x (some ⟨none⟩) y = some v' := by rw [Function.update_of_ne apart,value']
    obtain ⟨made,heap',run',done⟩ := copies honest cleared idle source copied
    rw [Function.update_idem,Function.update_idem] at done
    refine ⟨made,heap',?_,done⟩
    unfold HeapStatus.copyConstruct at run'
    cases pointer : o'.state_ with
    | none =>
      rw [pointer] at run'
      cases run'
      simp only [run,bind,Except.bind]
    | some p =>
      rw [pointer] at run'
      obtain ⟨⟨copied,_⟩,did,rest⟩ := Machine.okBind run'
      cases copied with
      | none => cases rest
      | some q =>
        cases rest
        simp only [run,did,bind,Except.bind]

theorem swapsVars (s : State) (x y : Nat) {o o' : HeapStatus} (has : s.vars x = some o) (has' : s.vars y = some o') :
    Function.update (Function.update s.vars x (some o')) y (some o) = s.vars ∘ Equiv.swap x y := by
  rw [← has,← has']
  exact Ownership.swapUpdates s.vars x y

end Steps

theorem stepRepresents (s : State) (t : Nat → Option Status) (move : Op × NewArray) (rep : Represents s t)
    (allowed : Allowed s move) :
    ∃ s' t', step s move = .ok s' ∧ ValueMoves t move.1 t' ∧ Represents s' t' := by
  obtain ⟨op,new⟩ := move
  obtain ⟨honest,wellformed⟩ := allowed
  cases op with
  | make x f msg msg2 =>
    obtain ⟨dead,small⟩ := wellformed
    obtain ⟨state,holds,sized,p,heap,run,free,after⟩ := buildSpec honest s.heap f small
    have value : f.value msg msg2 = ⟨some state⟩ := by rw [← holds]
    have rep' := installs rep (deadIdle dead) sized free after
    rw [← value] at rep'
    exact ⟨_,_,by simp only [step,run,bind,Except.bind],rfl,rep'⟩
  | success x => exact ⟨_,_,rfl,rfl,setsNull rep (deadIdle wellformed)⟩
  | copyConstruct x y =>
    obtain ⟨dead,alive⟩ := wellformed
    obtain ⟨o,has⟩ := Option.isSome_iff_exists.mp alive
    obtain ⟨v,value⟩ := valueOf rep has
    obtain ⟨made,heap,run,rep'⟩ := copies honest rep (deadIdle dead) has value
    rw [← value] at rep'
    exact ⟨_,_,by simp only [step,objectOk has,run,bind,Except.bind],rfl,rep'⟩
  | copyAssign x y =>
    obtain ⟨o,has⟩ := Option.isSome_iff_exists.mp wellformed.1
    obtain ⟨o',has'⟩ := Option.isSome_iff_exists.mp wellformed.2
    obtain ⟨v,value⟩ := valueOf rep has
    obtain ⟨v',value'⟩ := valueOf rep has'
    obtain ⟨assigned,heap,run,rep'⟩ := assigns honest rep has value has' value'
    rw [← value'] at rep'
    exact ⟨_,_,by simp only [step,objectOk has,objectOk has',run,bind,Except.bind],rfl,rep'⟩
  | moveConstruct x y =>
    obtain ⟨dead,alive⟩ := wellformed
    obtain ⟨o,has⟩ := Option.isSome_iff_exists.mp alive
    have apart : y ≠ x := by
      intro eq
      rw [eq,dead] at has
      cases has
    have rep' := exchanges (setsNull rep (deadIdle dead)) (Equiv.swap x y)
    simp only [← Ownership.swapUpdates,Function.update_self,Function.update_of_ne apart,Function.update_idem,
      has] at rep'
    exact ⟨_,_,by simp only [step,objectOk has,HeapStatus.moveConstruct,bind,Except.bind],rfl,rep'⟩
  | moveAssign x y =>
    obtain ⟨o,has⟩ := Option.isSome_iff_exists.mp wellformed.1
    obtain ⟨o',has'⟩ := Option.isSome_iff_exists.mp wellformed.2
    have rep' := exchanges rep (Equiv.swap x y)
    rw [← swapsVars s x y has has',← Ownership.swapUpdates t x y] at rep'
    exact ⟨_,_,by simp only [step,objectOk has,objectOk has',HeapStatus.moveAssign,bind,Except.bind],rfl,rep'⟩
  | destroy x =>
    obtain ⟨o,has⟩ := Option.isSome_iff_exists.mp wellformed
    obtain ⟨heap,run,after⟩ := clears rep x
    rw [ownerOf has] at run
    have rep' := after none none rfl rfl rfl
    exact ⟨_,_,by simp only [step,objectOk has,HeapStatus.destroy,run,bind,Except.bind],rfl,rep'⟩

theorem emptyRepresents : Represents State.empty (fun _ => none) where
  owned := Ownership.emptyOwned
  content := rfl
  alive _ := rfl
  sized := nofun

/- The text that toString gives for an error made by each factory. -/
def Factory.text : Factory → String
  | .notFound => "NotFound: "
  | .corruption => "Corruption: "
  | .notSupported => "Not implemented: "
  | .invalidArgument => "Invalid argument: "
  | .ioError => "IO error: "

theorem factoryText (f : Factory) (msg msg2 : Bytes) : (f.value msg msg2).toString =
    ascii f.text ++ msg ++ if msg2 = [] then [] else ascii ": " ++ msg2 := by
  have message : (if msg2 = [] then msg else msg ++ [58,32] ++ msg2) =
      msg ++ if msg2 = [] then [] else ascii ": " ++ msg2 := by
    have separator : ascii ": " = [58,32] := rfl
    split
    · rw [List.append_nil]
    · rw [separator,List.append_assoc]
  rw [List.append_assoc,← message]
  cases f <;> rfl

theorem valueSemantics (moves : List (Op × NewArray)) (legal : Machine.Legal Allowed step State.empty moves) :
    ∃ s, moves.foldlM step State.empty = .ok s ∧ Owned (live s.heap) s.owner ∧
      (∀ x, (s.vars x).isSome = ((moves.map Prod.fst).foldl valueStep (fun _ => none) x).isSome) ∧
      (∀ x o v, s.vars x = some o → (moves.map Prod.fst).foldl valueStep (fun _ => none) x = some v →
        Observed s.heap o v) ∧
      ∀ (f : Factory) (msg msg2 : Bytes) (new : NewArray), Honest new → msg.length + msg2.length + 7 < 2^32 →
        ∃ o heap, f.build msg msg2 new s.heap = .ok (some o,heap) ∧ o.toString heap =
          .ok (ascii f.text ++ msg ++ if msg2 = [] then [] else ascii ": " ++ msg2) := by
  obtain ⟨s,t,run,values,rep⟩ := Machine.simulation stepRepresents emptyRepresents legal
  have folded := Machine.runFold values
  subst folded
  have observed := fun x o v has value => shownObserved (shown (x := x) (o := o) (v := v) rep has value)
  refine ⟨s,run,rep.owned,rep.alive,observed,?_⟩
  intro f msg msg2 new honest small
  obtain ⟨state,holds,sized,p,heap,built,free,after⟩ := buildSpec honest s.heap f small
  have value : f.value msg msg2 = ⟨some state⟩ := by rw [← holds]
  have there : live heap p = some (layout state) := by rw [after,Function.update_self]
  have text := toStringShown (Shows.error there sized)
  rw [← value,factoryText] at text
  exact ⟨⟨some p⟩,heap,built,text⟩

/- An operator new[] that goes upwards and zeroes its blocks. -/
def newAbove : NewArray := fun heap size => some (heap.keys.foldr max 0 + 1,List.replicate size 0)

theorem aboveHonest : Honest newAbove := by
  intro heap size
  have free : live heap (heap.keys.foldr max 0 + 1) = none := by
    refine AList.lookup_eq_none.mpr ?_
    intro member
    have below : heap.keys.foldr max 0 + 1 ≤ heap.keys.foldr max 0 := List.le_max_of_le member (Nat.le_refl _)
    omega
  exact ⟨_,_,rfl,free,List.length_replicate⟩

/- An error is copied, assigned to itself in both ways, moved, and overwritten by the
success that the move left; the copy is destroyed. -/
def copyMoves : List (Op × NewArray) :=
  [(.make 0 .notFound [107] [],newAbove),(.copyConstruct 1 0,newAbove),(.copyAssign 1 1,newAbove),
    (.moveAssign 1 1,newAbove),(.moveConstruct 2 0,newAbove),(.copyAssign 2 0,newAbove),(.destroy 1,newAbove)]

theorem valueSemanticsCopies : ∃ s, copyMoves.foldlM step State.empty = .ok s ∧
    Owned (live s.heap) s.owner ∧ s.heap.keys = [] := by
  have legal : Machine.Legal Allowed step State.empty copyMoves := by
    refine Machine.legalCons ⟨aboveHonest,rfl,by decide⟩ rfl ?_
    refine Machine.legalCons ⟨aboveHonest,rfl,rfl⟩ rfl ?_
    refine Machine.legalCons ⟨aboveHonest,rfl,rfl⟩ rfl ?_
    refine Machine.legalCons ⟨aboveHonest,rfl,rfl⟩ rfl ?_
    refine Machine.legalCons ⟨aboveHonest,rfl,rfl⟩ rfl ?_
    refine Machine.legalCons ⟨aboveHonest,rfl,rfl⟩ rfl ?_
    exact Machine.legalCons ⟨aboveHonest,rfl⟩ rfl trivial
  obtain ⟨s,run,owned,_,_,_⟩ := valueSemantics copyMoves legal
  refine ⟨s,run,owned,?_⟩
  cases run
  rfl

end KVStorage.HeapStatus
