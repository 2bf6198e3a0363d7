import KVStorage.Arena
import Mathlib.Data.List.Pairwise
import Mathlib.Logic.Function.Basic

/-! Arenas that come and go in one process. They share the heap; operator new[] may hand
out again what a destructor gave back, and a throw of it is caught by the caller, who
may ask again. The owner of a block is known to the proofs only. -/
namespace KVStorage.Arena

open Support

variable {ι : Type}

structure Block (ι : Type) where
  owner : ι
  region : Region
  deriving DecidableEq, Repr

structure Tenant where
  arena : Arena
  issued : List Issued

structure Process (ι : Type) where
  heap : List (Block ι)
  arenas : ι → Option Tenant

/- A block that is not there is deleted: undefined behaviour. -/
inductive Misuse where
  | notAllocated
  | noArena
  | arena (fault : Fault)
  deriving DecidableEq, Repr

def deleteBlock (heap : List (Block ι)) (base : Nat) : Except Misuse (List (Block ι)) :=
  if heap.any (fun b => b.region.base == base) then .ok (heap.eraseP fun b => b.region.base == base)
  else .error .notAllocated

/- ~Arena. -/
def destroy (a : Arena) (heap : List (Block ι)) : Except Misuse (List (Block ι)) := a.blocks_.foldlM deleteBlock heap

inductive Life (ι : Type) where
  | construct (i : ι)
  | allocate (i : ι) (call : Call)
  | destroy (i : ι)

namespace Process

variable [DecidableEq ι]

def set (p : Process ι) (i : ι) (t : Option Tenant) : Process ι := {p with arenas := Function.update p.arenas i t}

/- Each move meets an operator new[] of its own: one that refuses says nothing about
the next, and what was given back may come again or not. -/
def step (p : Process ι) : Life ι × OperatorNew → Except Misuse (Process ι)
  | (.construct i,_) => .ok (p.set i (some ⟨Arena.new,[]⟩))
  | (.allocate i call,operatorNew) =>
    match p.arenas i with
    | none => .error .noArena
    | some t =>
      match call.serve operatorNew ⟨t.arena,p.heap.map Block.region⟩ with
      | .ok (res,s) => .ok {p.set i (some ⟨s.arena,t.issued ++ [⟨call,res⟩]⟩) with
          heap := p.heap ++ (s.heap.drop p.heap.length).map (Block.mk i)}
      | .error .badAlloc => .ok p
      | .error fault => .error (.arena fault)
  | (.destroy i,_) =>
    match p.arenas i with
    | none => .error .noArena
    | some t => do
      let heap ← Arena.destroy t.arena p.heap
      .ok {p.set i none with heap}

def new : Process ι := ⟨[],fun _ => none⟩

/- A name is constructed while it is free, and used and destroyed while it is not. -/
def Pre (p : Process ι) : Life ι → Prop
  | .construct i => p.arenas i = none
  | .allocate i call => (p.arenas i).isSome ∧ call.Sized
  | .destroy i => (p.arenas i).isSome

def Allowed (p : Process ι) (move : Life ι × OperatorNew) : Prop := Honest move.2 ∧ Pre p move.1

def own (heap : List (Block ι)) (i : ι) : List Region := (heap.filter fun b => b.owner = i).map Block.region

/- Every block is owned by an arena that lives, and each arena's own blocks are what
its records say. -/
structure Sound (p : Process ι) : Prop where
  apart : p.heap.Pairwise fun a b => a.region.Apart b.region
  positive : ∀ b ∈ p.heap, 0 < b.region.size
  owned : ∀ b ∈ p.heap, (p.arenas b.owner).isSome
  placed : ∀ i t, p.arenas i = some t → Placed ⟨⟨t.arena,own p.heap i⟩,t.issued⟩

section Heaps

variable {heap : List (Block ι)} {i : ι}

theorem ownAppend (heap more : List (Block ι)) (i : ι) : own (heap ++ more) i = own heap i ++ own more i := by
  simp [own]

theorem ownMine (i : ι) (regions : List Region) : own (regions.map (Block.mk i)) i = regions := by
  simp [own,List.filter_eq_self.mpr,Function.comp_def]

theorem ownOther {i j : ι} (differ : j ≠ i) (regions : List Region) : own (regions.map (Block.mk i)) j = [] := by
  simp [own,Ne.symm differ]

theorem ownWithout {i j : ι} (differ : j ≠ i) : own (heap.filter fun b => b.owner ≠ i) j = own heap j := by
  unfold own
  rw [List.filter_filter]
  congr 1
  refine List.filter_congr ?_
  intro b _
  by_cases same : b.owner = j
  · simp [same,differ]
  · simp [same]

theorem ownMem {r : Region} (mem : r ∈ own heap i) : ∃ b ∈ heap, b.owner = i ∧ b.region = r := by
  obtain ⟨b,inside,region⟩ := List.mem_map.mp mem
  obtain ⟨here,owner⟩ := List.mem_filter.mp inside
  exact ⟨b,here,of_decide_eq_true owner,region⟩

omit [DecidableEq ι] in
theorem deletePast {b : Block ι} {bases : List Nat} (differ : ∀ base ∈ bases, b.region.base ≠ base) :
    bases.foldlM deleteBlock (b::heap) = (bases.foldlM deleteBlock heap).map (b::·) := by
  induction bases generalizing heap with
  | nil => rfl
  | cons base bases ih =>
    have first : (b.region.base == base) = false := beq_false_of_ne (differ base List.mem_cons_self)
    have later : ∀ base ∈ bases, b.region.base ≠ base := fun c mem => differ c (List.mem_cons_of_mem base mem)
    have step : deleteBlock (b::heap) base = (deleteBlock heap base).map (b::·) := by
      unfold deleteBlock
      simp only [List.any_cons,first,Bool.false_or,List.eraseP_cons,cond_false]
      split <;> rfl
    rw [List.foldlM_cons,List.foldlM_cons,step]
    cases deleteBlock heap base with
    | error e => rfl
    | ok rest => exact ih later

/- The destructor's loop takes away the arena's own blocks and nothing else. -/
theorem deleteOwn (apart : heap.Pairwise fun a b => a.region.Apart b.region) (positive : ∀ b ∈ heap, 0 < b.region.size)
    (i : ι) : ((own heap i).map Region.base).foldlM deleteBlock heap = .ok (heap.filter fun b => b.owner ≠ i) := by
  induction heap with
  | nil => rfl
  | cons b heap ih =>
    obtain ⟨first,rest⟩ := List.pairwise_cons.mp apart
    have tail := ih rest (fun c mem => positive c (List.mem_cons_of_mem b mem))
    by_cases mine : b.owner = i
    · have front : own (b::heap) i = b.region::own heap i := by simp [own,mine]
      have gone : deleteBlock (b::heap) b.region.base = .ok heap := by simp [deleteBlock]
      rw [front,List.map_cons,List.foldlM_cons,gone,List.filter_cons_of_neg (by simpa using mine)]
      exact tail
    · have same : own (b::heap) i = own heap i := by simp [own,mine]
      have differ : ∀ base ∈ (own heap i).map Region.base, b.region.base ≠ base := by
        intro base mem equal
        obtain ⟨r,inside,here⟩ := List.mem_map.mp mem
        obtain ⟨c,block,_,region⟩ := ownMem inside
        have away := first c block
        have large := positive b List.mem_cons_self
        have large' := positive c (List.mem_cons_of_mem b block)
        subst region here
        simp only [Region.Apart,Region.stop] at away
        omega
      rw [same,deletePast differ,tail]
      simp [mine,Except.map]

theorem ownWithin (heap : List (Block ι)) (i : ι) : ∀ r ∈ own heap i, r ∈ heap.map Block.region := by
  intro r mem
  obtain ⟨b,here,_,region⟩ := ownMem mem
  exact List.mem_map.mpr ⟨b,here,region⟩

end Heaps

section Serving

variable {operatorNew : OperatorNew}

theorem placedNext {u : Use} {v : State} {c : Call} {res : Nat} (placed : Placed u)
    (step : Pool.Step kBlockSize u.pool ⟨res,c.bytes⟩ (v.pool (u.issued.map Issued.region ++ [⟨res,c.bytes⟩])))
    (recorded : v.Recorded) (aligned : c.Aligned → res % align = 0) : Placed ⟨v,u.issued ++ [⟨c,res⟩]⟩ := by
  have sound : Pool.Sound kBlockSize (Use.pool ⟨v,u.issued ++ [⟨c,res⟩]⟩) := by
    have after := Pool.stepSound placed.sound step
    simp only [Use.pool,List.map_append,List.map_cons,List.map_nil]
    exact after
  exact ⟨sound,recorded,Snoc.all placed.aligned aligned⟩

/- The blocks that a request adds, apart from all that operator new[] was shown. -/
structure Fresh (heap more : List Region) : Prop where
  apart : ∀ r ∈ more, ∀ old ∈ heap, old.Apart r
  among : more.Pairwise Region.Apart
  positive : ∀ r ∈ more, 0 < r.size

theorem freshNone (heap : List Region) : Fresh heap [] := ⟨by simp,.nil,by simp⟩

theorem freshOne (honest : Honest operatorNew) {heap : List Region} {size res : Nat} (positive : 0 < size)
    (got : operatorNew heap size = some res) : Fresh heap [⟨res,size⟩] := by
  refine ⟨?_,List.pairwise_singleton _ _,by simpa using positive⟩
  intro r mem
  cases List.mem_singleton.mp mem
  exact (honest _ _ _ got).2

/- An arena that is shown a heap with the blocks of others in it stays as it would be
with its own blocks alone. -/
theorem servesAmong (honest : Honest operatorNew) {a : Arena} {heap mine : List Region} {issued : List Issued}
    (among : ∀ r ∈ mine, r ∈ heap) (placed : Placed ⟨⟨a,mine⟩,issued⟩) {c : Call} (positive : 0 < c.bytes)
    {out : Nat × State} (serves : Serves operatorNew ⟨a,heap⟩ c out) (aligned : c.Aligned → out.1 % align = 0) :
    ∃ more, out.2.heap = heap ++ more ∧ Fresh heap more ∧
      Placed ⟨⟨out.2.arena,mine ++ more⟩,issued ++ [⟨c,out.1⟩]⟩ := by
  cases serves with
  | carved fits =>
    have step : Pool.Step kBlockSize (Use.pool ⟨⟨a,mine⟩,issued⟩) _ _ := .carve positive fits
    have recorded : State.Recorded ⟨a.bump (c.slop ⟨a,heap⟩+c.bytes),mine⟩ :=
      ⟨placed.recorded.held,placed.recorded.usage⟩
    refine ⟨[],(List.append_nil heap).symm,freshNone heap,?_⟩
    rw [List.append_nil]
    exact placedNext placed step recorded aligned
  | @dedicated res tight big got =>
    have fresh := freshOne honest positive got
    have step : Pool.Step kBlockSize (Use.pool ⟨⟨a,mine⟩,issued⟩) ⟨res,c.bytes⟩ _ :=
      .dedicate positive fun old mem => (honest _ _ _ got).2 old (among old mem)
    exact ⟨_,rfl,fresh,placedNext placed step (grownRecorded placed.recorded c.bytes) aligned⟩
  | @refilled res tight small got =>
    have fresh := freshOne honest (by decide) got
    have below : c.bytes < kBlockSize := by
      simp only [kBlockSize] at *
      omega
    have step : Pool.Step kBlockSize (Use.pool ⟨⟨a,mine⟩,issued⟩) (Region.taken ⟨res,kBlockSize⟩ 0 c.bytes) _ :=
      .refill positive below rfl fun old mem => (honest _ _ _ got).2 old (among old mem)
    have grown := @grownRecorded ⟨a,mine⟩ res placed.recorded kBlockSize
    exact ⟨_,rfl,fresh,placedNext placed step ⟨grown.held,grown.usage⟩ aligned⟩

end Serving

section Steps

variable {operatorNew : OperatorNew} {p : Process ι}

theorem newSound : Sound (new : Process ι) := ⟨.nil,by simp [new],by simp [new],by simp [new]⟩

theorem setSame (p : Process ι) (i : ι) (t : Option Tenant) : (p.set i t).arenas i = t := by simp [set]

theorem setOther (p : Process ι) {i j : ι} (t : Option Tenant) (differ : j ≠ i) :
    (p.set i t).arenas j = p.arenas j := by simp [set,differ]

theorem constructSound (sound : Sound p) {i : ι} (free : p.arenas i = none) :
    Sound (p.set i (some ⟨Arena.new,[]⟩)) := by
  have nothing : own p.heap i = [] := by
    by_contra some
    obtain ⟨r,mem⟩ := List.exists_mem_of_ne_nil _ some
    obtain ⟨b,here,owner,_⟩ := ownMem mem
    have lives := sound.owned b here
    rw [owner,free] at lives
    cases lives
  have owned : ∀ b ∈ p.heap, ((p.set i (some ⟨Arena.new,[]⟩)).arenas b.owner).isSome := by
    intro b mem
    by_cases mine : b.owner = i
    · rw [mine,setSame]
      rfl
    · rw [setOther p _ mine]
      exact sound.owned b mem
  refine ⟨sound.apart,sound.positive,owned,?_⟩
  intro j t lives
  by_cases mine : j = i
  · subst mine
    rw [setSame] at lives
    cases lives
    simp only [set,nothing]
    exact newPlaced
  · rw [setOther p _ mine] at lives
    exact sound.placed j t lives

theorem allocateSound (honest : Honest operatorNew) (sound : Sound p) {i : ι} {t : Tenant}
    (lives : p.arenas i = some t) {c : Call} (sized : c.Sized) {out : Nat × State}
    (serves : Serves operatorNew ⟨t.arena,p.heap.map Block.region⟩ c out) (aligned : c.Aligned → out.1 % align = 0) :
    Sound {p.set i (some ⟨out.2.arena,t.issued ++ [⟨c,out.1⟩]⟩) with
      heap := p.heap ++ (out.2.heap.drop p.heap.length).map (Block.mk i)} := by
  obtain ⟨more,heap,fresh,placed⟩ :=
    servesAmong honest (ownWithin p.heap i) (sound.placed i t lives) sized.1 serves aligned
  have added : out.2.heap.drop p.heap.length = more := by
    rw [heap,List.drop_left' (List.length_map _)]
  rw [added]
  have apart : (p.heap ++ more.map (Block.mk i)).Pairwise fun a b : Block ι => a.region.Apart b.region := by
    have among : (more.map (Block.mk i)).Pairwise fun a b : Block ι => a.region.Apart b.region :=
      List.pairwise_map.mpr fresh.among
    refine List.pairwise_append.mpr ⟨sound.apart,among,?_⟩
    intro a old b mem
    obtain ⟨r,new,block⟩ := List.mem_map.mp mem
    subst block
    exact fresh.apart r new a.region (List.mem_map_of_mem old)
  have positive : ∀ b ∈ p.heap ++ more.map (Block.mk i), 0 < b.region.size := by
    intro b mem
    rcases List.mem_append.mp mem with old | mine
    · exact sound.positive b old
    · obtain ⟨r,new,block⟩ := List.mem_map.mp mine
      subst block
      exact fresh.positive r new
  have owned : ∀ b ∈ p.heap ++ more.map (Block.mk i),
      ((p.set i (some ⟨out.2.arena,t.issued ++ [⟨c,out.1⟩]⟩)).arenas b.owner).isSome := by
    intro b mem
    by_cases mine : b.owner = i
    · rw [mine,setSame]
      rfl
    · rw [setOther p _ mine]
      rcases List.mem_append.mp mem with old | new
      · exact sound.owned b old
      · obtain ⟨r,_,block⟩ := List.mem_map.mp new
        subst block
        exact absurd rfl mine
  refine ⟨apart,positive,owned,?_⟩
  intro j u lives'
  by_cases mine : j = i
  · subst mine
    have here := setSame p j (some ⟨out.2.arena,t.issued ++ [⟨c,out.1⟩]⟩)
    cases Option.some.inj (here.symm.trans lives')
    simp only [ownAppend,ownMine]
    exact placed
  · have kept := (setOther p (some ⟨out.2.arena,t.issued ++ [⟨c,out.1⟩]⟩) mine).symm.trans lives'
    simp only [ownAppend,ownOther mine,List.append_nil]
    exact sound.placed j u kept

theorem destroySound (sound : Sound p) {i : ι} {t : Tenant} (lives : p.arenas i = some t) :
    Arena.destroy t.arena p.heap = .ok (p.heap.filter fun b => b.owner ≠ i) ∧
      Sound {p.set i none with heap := p.heap.filter fun b => b.owner ≠ i} := by
  have held := (sound.placed i t lives).recorded.held
  have gone : Arena.destroy t.arena p.heap = .ok (p.heap.filter fun b => b.owner ≠ i) := by
    simp only at held
    rw [Arena.destroy,held]
    exact deleteOwn sound.apart sound.positive i
  have owned : ∀ b ∈ p.heap.filter fun b => b.owner ≠ i, ((p.set i none).arenas b.owner).isSome := by
    intro b mem
    obtain ⟨here,other⟩ := List.mem_filter.mp mem
    rw [setOther p none (of_decide_eq_true other)]
    exact sound.owned b here
  refine ⟨gone,sound.apart.filter _,fun b mem => sound.positive b (List.mem_of_mem_filter mem),owned,?_⟩
  intro j u lives'
  by_cases mine : j = i
  · subst mine
    cases (setSame p j none).symm.trans lives'
  · have kept := (setOther p none mine).symm.trans lives'
    simp only [ownWithout mine]
    exact sound.placed j u kept

/- What becomes of a request: nothing where operator new[] refuses it, else an answer. -/
def Answered (p : Process ι) (i : ι) (call : Call) (operatorNew : OperatorNew) : Prop :=
  ∃ t, p.arenas i = some t ∧
    ((step p (.allocate i call,operatorNew) = .ok p ∧ call.Refuses operatorNew ⟨t.arena,p.heap.map Block.region⟩) ∨
      ∃ q u res, step p (.allocate i call,operatorNew) = .ok q ∧ q.arenas i = some u ∧
        u.issued = t.issued ++ [⟨call,res⟩])

theorem allocateAnswers (honest : Honest operatorNew) (sound : Sound p) {i : ι} {call : Call}
    (pre : Pre p (.allocate i call)) :
    (∃ q, step p (.allocate i call,operatorNew) = .ok q ∧ Sound q) ∧ Answered p i call operatorNew := by
  obtain ⟨lives,sized⟩ := pre
  obtain ⟨t,tenant⟩ := Option.isSome_iff_exists.mp lives
  rcases serveCases (honestAligned honest) ⟨t.arena,p.heap.map Block.region⟩ sized with
    ⟨run,refused⟩ | ⟨out,run,aligned,serves⟩
  · have caught : step p (.allocate i call,operatorNew) = .ok p := by simp only [step,tenant,run]
    exact ⟨⟨p,caught,sound⟩,t,tenant,.inl ⟨caught,refused⟩⟩
  · have next := allocateSound honest sound tenant sized serves aligned
    have served : step p (.allocate i call,operatorNew) =
        .ok {p.set i (some ⟨out.2.arena,t.issued ++ [⟨call,out.1⟩]⟩) with
          heap := p.heap ++ (out.2.heap.drop p.heap.length).map (Block.mk i)} := by
      simp only [step,tenant,run]
    exact ⟨⟨_,served,next⟩,t,tenant,.inr ⟨_,_,out.1,served,setSame p i _,rfl⟩⟩

theorem stepSound (sound : Sound p) {move : Life ι × OperatorNew} (allowed : Allowed p move) :
    ∃ q, step p move = .ok q ∧ Sound q := by
  obtain ⟨life,operatorNew⟩ := move
  obtain ⟨honest,pre⟩ := allowed
  cases life with
  | construct i => exact ⟨_,rfl,constructSound sound pre⟩
  | allocate i call => exact (allocateAnswers honest sound pre).1
  | destroy i =>
    obtain ⟨t,tenant⟩ := Option.isSome_iff_exists.mp pre
    obtain ⟨gone,next⟩ := destroySound sound tenant
    simp only [step,tenant,gone,bind,Except.bind]
    exact ⟨_,rfl,next⟩

end Steps

/- Answers of two arenas lie in blocks of two owners. -/
theorem arenasApart {p : Process ι} (sound : Sound p) {i j : ι} (differ : i ≠ j)
    {r s : Region} (here : r ∈ own p.heap i)
    (there : s ∈ own p.heap j) : r.Apart s := by
  obtain ⟨b,left,mine,region⟩ := ownMem here
  obtain ⟨c,right,other,region'⟩ := ownMem there
  have blocks : b ≠ c := by
    intro same
    exact differ (mine.symm.trans ((congrArg Block.owner same).trans other))
  have symmetric : Std.Symm fun a b : Block ι => a.region.Apart b.region := ⟨fun _ _ => Region.apartSymm⟩
  have apart := sound.apart.forall left right blocks
  rw [region,region'] at apart
  exact apart

/- What one arena holds. -/
structure Holds (p : Process ι) (i : ι) (t : Tenant) : Prop where
  blocks : t.arena.blocks_ = (own p.heap i).map Region.base
  usage : t.arena.memoryUsage = ((own p.heap i).map fun b => b.size+8).sum % 2^64
  inside : ∀ a ∈ t.issued, ∃ r ∈ own p.heap i, a.region.Within r
  apart : (t.issued.map Issued.region).Pairwise Region.Apart
  aligned : ∀ a ∈ t.issued, a.call.Aligned → a.res % 8 = 0

theorem soundHolds {p : Process ι} (sound : Sound p) {i : ι} {t : Tenant} (lives : p.arenas i = some t) :
    Holds p i t := by
  have placed := sound.placed i t lives
  have inside : ∀ a ∈ t.issued, ∃ r ∈ own p.heap i, a.region.Within r :=
    fun a mem => placed.sound.inside a.region (List.mem_map_of_mem mem)
  exact ⟨placed.recorded.held,placed.recorded.usage,inside,placed.sound.issuedApart,placed.aligned⟩

/- A block stands in the records of its owner and of no other arena. -/
theorem soundOwner {p : Process ι} (sound : Sound p) {b : Block ι} (mem : b ∈ p.heap) :
    ∃! i, ∃ t, p.arenas i = some t ∧ b.region.base ∈ t.arena.blocks_ := by
  obtain ⟨t,lives⟩ := Option.isSome_iff_exists.mp (sound.owned b mem)
  have mine : b.region ∈ own p.heap b.owner :=
    List.mem_map_of_mem (List.mem_filter.mpr ⟨mem,by simp⟩)
  have held : b.region.base ∈ t.arena.blocks_ := by
    rw [(soundHolds sound lives).blocks]
    exact List.mem_map_of_mem mine
  refine ⟨b.owner,⟨t,lives,held⟩,?_⟩
  intro i other
  obtain ⟨u,lives',held'⟩ := other
  rw [(soundHolds sound lives').blocks] at held'
  obtain ⟨r,inside,base⟩ := List.mem_map.mp held'
  by_contra differ
  have away := arenasApart sound differ inside mine
  obtain ⟨c,block,_,region⟩ := ownMem inside
  have large := sound.positive b mem
  have large' := sound.positive c block
  subst region
  simp only [Region.Apart,Region.stop] at away
  omega

def operatorNewNone : OperatorNew := fun _ _ => none

/- Two arenas: a request is refused and made again, and the second arena is given back
an address that it had before. -/
def twoArenas : List (Life Bool × OperatorNew) :=
  [(.construct true,operatorNewBeyond),(.allocate true (.allocateAligned 3000),operatorNewBeyond),
    (.construct false,operatorNewBeyond),(.allocate false (.allocate 5),operatorNewNone),
    (.allocate false (.allocate 5),operatorNewBeyond),(.destroy false,operatorNewBeyond),
    (.construct false,operatorNewBeyond),(.allocate false (.allocate 2000),operatorNewBeyond),
    (.allocate true (.allocate 7),operatorNewBeyond)]

theorem twoArenasLegal : Machine.Legal Allowed step new twoArenas := by
  have none : Honest operatorNewNone := nofun
  refine Machine.legalCons ⟨beyondHonest,rfl⟩ rfl ?_
  refine Machine.legalCons ⟨beyondHonest,rfl,by decide⟩ rfl ?_
  refine Machine.legalCons ⟨beyondHonest,rfl⟩ rfl ?_
  refine Machine.legalCons ⟨none,rfl,by decide⟩ rfl ?_
  refine Machine.legalCons ⟨beyondHonest,rfl,by decide⟩ rfl ?_
  refine Machine.legalCons ⟨beyondHonest,rfl⟩ rfl ?_
  refine Machine.legalCons ⟨beyondHonest,rfl⟩ rfl ?_
  refine Machine.legalCons ⟨beyondHonest,rfl,by decide⟩ rfl ?_
  exact Machine.legalCons ⟨beyondHonest,rfl,by decide⟩ rfl trivial

end Process
end KVStorage.Arena
