import KVStorage.Support.Machine
import KVStorage.Support.Regions
import Mathlib.Algebra.BigOperators.Group.List.Basic
import Mathlib.Algebra.Ring.Nat

/-! The arena. Addresses are numbers and the null pointer is zero; sizes wrap at
the width of size_t. operator new[] picks an address from the blocks it has
handed out so far, or throws. -/
namespace KVStorage

open Support

structure Arena where
  alloc_ptr_ : Nat
  alloc_bytes_remaining_ : Nat
  blocks_ : List Nat
  memory_usage_ : Nat
  deriving DecidableEq, Repr

namespace Arena

inductive Fault where
  | assertion
  | badAlloc
  deriving DecidableEq, Repr

abbrev OperatorNew := List Region → Nat → Option Nat

def kBlockSize : Nat := 4096

def align : Nat := 8

def sizeofPointer : Nat := 8

def new : Arena := ⟨0,0,[],0⟩

def memoryUsage (a : Arena) : Nat := a.memory_usage_

def bump (a : Arena) (bytes : Nat) : Arena :=
  {a with alloc_ptr_ := a.alloc_ptr_+bytes, alloc_bytes_remaining_ := a.alloc_bytes_remaining_-bytes}

/- The arena with the blocks that operator new[] has handed out to it. -/
structure State where
  arena : Arena
  heap : List Region
  deriving DecidableEq, Repr

def State.grown (s : State) (res block_bytes : Nat) : State where
  arena := {s.arena with
    blocks_ := s.arena.blocks_ ++ [res]
    memory_usage_ := (s.arena.memory_usage_+(block_bytes+sizeofPointer)) % 2^64}
  heap := s.heap ++ [⟨res,block_bytes⟩]

section Calls

variable (operatorNew : OperatorNew)

def allocateNewBlock (s : State) (block_bytes : Nat) : Except Fault (Nat × State) :=
  match operatorNew s.heap block_bytes with
  | none => .error .badAlloc
  | some res => .ok (res,s.grown res block_bytes)

def allocateFallback (s : State) (bytes : Nat) : Except Fault (Nat × State) :=
  if bytes > kBlockSize/4 then allocateNewBlock operatorNew s bytes
  else do
    let (block,s) ← allocateNewBlock operatorNew s kBlockSize
    let a := {s.arena with alloc_ptr_ := block, alloc_bytes_remaining_ := kBlockSize}
    .ok (a.alloc_ptr_,{s with arena := a.bump bytes})

def allocate (s : State) (bytes : Nat) : Except Fault (Nat × State) :=
  if bytes = 0 then .error .assertion
  else if bytes ≤ s.arena.alloc_bytes_remaining_ then
    .ok (s.arena.alloc_ptr_,{s with arena := s.arena.bump bytes})
  else allocateFallback operatorNew s bytes

def slopOf (alloc_ptr_ : Nat) : Nat :=
  let current_mod := alloc_ptr_ &&& (align-1)
  if current_mod = 0 then 0 else align-current_mod

def assertAligned (out : Nat × State) : Except Fault (Nat × State) :=
  if out.1 &&& (align-1) = 0 then .ok out else .error .assertion

def allocateAligned (s : State) (bytes : Nat) : Except Fault (Nat × State) := do
  let slop := slopOf s.arena.alloc_ptr_
  let needed := (bytes+slop) % 2^64
  let out ← if needed ≤ s.arena.alloc_bytes_remaining_ then
      .ok (s.arena.alloc_ptr_+slop,{s with arena := s.arena.bump needed})
    else allocateFallback operatorNew s bytes
  assertAligned out

end Calls

/- A client's requests and what they were answered. -/
inductive Call where
  | allocate (bytes : Nat)
  | allocateAligned (bytes : Nat)
  deriving DecidableEq, Repr

def Call.bytes : Call → Nat
  | .allocate bytes => bytes
  | .allocateAligned bytes => bytes

def Call.serve (operatorNew : OperatorNew) (s : State) : Call → Except Fault (Nat × State)
  | .allocate bytes => Arena.allocate operatorNew s bytes
  | .allocateAligned bytes => Arena.allocateAligned operatorNew s bytes

structure Issued where
  call : Call
  res : Nat
  deriving DecidableEq, Repr

def Issued.region (i : Issued) : Region := ⟨i.res,i.call.bytes⟩

structure Use where
  state : State
  issued : List Issued
  deriving DecidableEq, Repr

def Use.new : Use := ⟨⟨Arena.new,[]⟩,[]⟩

def Use.step (operatorNew : OperatorNew) (u : Use) (c : Call) : Except Fault Use := do
  let (res,s) ← c.serve operatorNew u.state
  .ok ⟨s,u.issued ++ [⟨c,res⟩]⟩

/- What is asked of operator new[]: aligned blocks apart from all it gave before. -/
def Honest (operatorNew : OperatorNew) : Prop :=
  ∀ heap size res, operatorNew heap size = some res →
    res % align = 0 ∧ ∀ old ∈ heap, Region.Apart old ⟨res,size⟩

def State.pool (s : State) (issued : List Region) : Pool :=
  ⟨s.heap,issued,⟨s.arena.alloc_ptr_,s.arena.alloc_bytes_remaining_⟩⟩

def Use.pool (u : Use) : Pool := u.state.pool (u.issued.map Issued.region)

/- The arena's own records agree with the heap. -/
structure State.Recorded (s : State) : Prop where
  held : s.arena.blocks_ = s.heap.map Region.base
  usage : s.arena.memoryUsage = (s.heap.map (fun b => b.size+sizeofPointer)).sum % 2^64

def AlignedNew (operatorNew : OperatorNew) : Prop :=
  ∀ heap size res, operatorNew heap size = some res → res % align = 0

theorem honestAligned {operatorNew : OperatorNew} (honest : Honest operatorNew) : AlignedNew operatorNew :=
  fun heap size res got => (honest heap size res got).1

def Call.Aligned : Call → Prop
  | .allocate _ => False
  | .allocateAligned _ => True

def Call.Sized (c : Call) : Prop := 1 ≤ c.bytes ∧ c.bytes+7 < 2^64

instance (c : Call) : Decidable c.Sized := inferInstanceAs (Decidable (_ ∧ _))

/- The padding in front of an answer, and whether both lie in the current block. -/
def Call.slop (s : State) : Call → Nat
  | .allocate _ => 0
  | .allocateAligned _ => slopOf s.arena.alloc_ptr_

def Call.Fits (s : State) (c : Call) : Prop := c.slop s+c.bytes ≤ s.arena.alloc_bytes_remaining_

instance (s : State) (c : Call) : Decidable (c.Fits s) := inferInstanceAs (Decidable (_ ≤ _))

/- What the fallback asks of operator new[]. -/
def blockBytes (bytes : Nat) : Nat := if bytes > kBlockSize/4 then bytes else kBlockSize

/- The request needs a new block and operator new[] has none of that size to give. -/
structure Call.Refuses (operatorNew : OperatorNew) (s : State) (c : Call) : Prop where
  tight : ¬ c.Fits s
  none : operatorNew s.heap (blockBytes c.bytes) = none

def State.carved (s : State) (bytes : Nat) : State := {s with arena := s.arena.bump bytes}

def State.refilled (s : State) (res bytes : Nat) : State where
  arena := {(s.grown res kBlockSize).arena with
    alloc_ptr_ := res+bytes
    alloc_bytes_remaining_ := kBlockSize-bytes}
  heap := s.heap ++ [⟨res,kBlockSize⟩]

/- All that a request does where it returns: it is carved out of the current block,
gets a block of its own, or is the first in a new shared block. -/
inductive Serves (operatorNew : OperatorNew) (s : State) (c : Call) : Nat × State → Prop where
  | carved (fits : c.Fits s) :
      Serves operatorNew s c (s.arena.alloc_ptr_+c.slop s,s.carved (c.slop s+c.bytes))
  | dedicated {res : Nat} (tight : ¬ c.Fits s) (big : c.bytes > kBlockSize/4)
      (got : operatorNew s.heap c.bytes = some res) : Serves operatorNew s c (res,s.grown res c.bytes)
  | refilled {res : Nat} (tight : ¬ c.Fits s) (small : c.bytes ≤ kBlockSize/4)
      (got : operatorNew s.heap kBlockSize = some res) : Serves operatorNew s c (res,s.refilled res c.bytes)

section Cases

variable {operatorNew : OperatorNew} {s : State} {c : Call}

theorem maskIsMod (n : Nat) : n &&& (align-1) = n % align := Nat.and_two_pow_sub_one_eq_mod n 3

theorem slopAligns (alloc_ptr_ : Nat) :
    (alloc_ptr_+slopOf alloc_ptr_) % align = 0 ∧ slopOf alloc_ptr_ ≤ 7 := by
  unfold slopOf
  simp only [maskIsMod]
  by_cases aligned : alloc_ptr_ % align = 0
  · rw [if_pos aligned]
    exact ⟨aligned,by omega⟩
  · rw [if_neg aligned]
    simp only [align] at *
    omega

theorem assertAlignedOk {out : Nat × State} (aligned : out.1 % align = 0) : assertAligned out = .ok out := by
  unfold assertAligned
  rw [maskIsMod,if_pos aligned]

theorem fallbackCases (aligned : AlignedNew operatorNew) (tight : ¬ c.Fits s) :
    (allocateFallback operatorNew s c.bytes = .error .badAlloc ∧ c.Refuses operatorNew s) ∨
    ∃ out, allocateFallback operatorNew s c.bytes = .ok out ∧ out.1 % align = 0 ∧ Serves operatorNew s c out := by
  unfold allocateFallback allocateNewBlock
  by_cases big : c.bytes > kBlockSize/4
  · have size : blockBytes c.bytes = c.bytes := if_pos big
    rw [if_pos big]
    cases got : operatorNew s.heap c.bytes with
    | none => exact .inl ⟨rfl,tight,size.symm ▸ got⟩
    | some res => exact .inr ⟨_,rfl,aligned _ _ _ got,.dedicated tight big got⟩
  · have size : blockBytes c.bytes = kBlockSize := if_neg big
    rw [if_neg big]
    cases got : operatorNew s.heap kBlockSize with
    | none => exact .inl ⟨rfl,tight,size.symm ▸ got⟩
    | some res => exact .inr ⟨_,rfl,aligned _ _ _ got,.refilled tight (Nat.not_lt.mp big) got⟩

/- The sum that decides the fast path does not wrap, and the assertions hold on
every path. -/
theorem serveCases (aligned : AlignedNew operatorNew) (s : State) (sized : c.Sized) :
    (c.serve operatorNew s = .error .badAlloc ∧ c.Refuses operatorNew s) ∨
    ∃ out, c.serve operatorNew s = .ok out ∧ (c.Aligned → out.1 % align = 0) ∧ Serves operatorNew s c out := by
  obtain ⟨positive,room⟩ := sized
  cases c with
  | allocate bytes =>
    simp only [Call.bytes] at positive
    simp only [Call.serve,allocate,if_neg (Nat.ne_of_gt positive)]
    by_cases fits : bytes ≤ s.arena.alloc_bytes_remaining_
    · have fits' : (Call.allocate bytes).Fits s := by
        rw [Call.Fits,Call.slop,Nat.zero_add]
        exact fits
      have carved : Serves operatorNew s (.allocate bytes) _ := .carved fits'
      rw [Call.slop,Nat.zero_add] at carved
      rw [if_pos fits]
      exact .inr ⟨_,rfl,False.elim,carved⟩
    · have tight : ¬ (Call.allocate bytes).Fits s := by
        rw [Call.Fits,Call.slop,Nat.zero_add]
        exact fits
      rw [if_neg fits]
      exact (fallbackCases (c := .allocate bytes) aligned tight).imp id
        fun ⟨out,run,_,serves⟩ => ⟨out,run,False.elim,serves⟩
  | allocateAligned bytes =>
    simp only [Call.bytes] at room
    obtain ⟨slopped,small⟩ := slopAligns s.arena.alloc_ptr_
    have exact : (bytes+slopOf s.arena.alloc_ptr_) % 2^64 = slopOf s.arena.alloc_ptr_+bytes := by
      rw [Nat.mod_eq_of_lt (by omega),Nat.add_comm]
    simp only [Call.serve,allocateAligned,exact]
    by_cases fits : slopOf s.arena.alloc_ptr_+bytes ≤ s.arena.alloc_bytes_remaining_
    · simp only [if_pos fits,bind,Except.bind]
      exact .inr ⟨_,assertAlignedOk slopped,fun _ => slopped,.carved fits⟩
    · simp only [if_neg fits]
      rcases fallbackCases (c := .allocateAligned bytes) aligned fits with
        ⟨run,refused⟩ | ⟨out,run,aligned,serves⟩
      · exact .inl ⟨by simp only [Call.bytes] at run; simp only [run,bind,Except.bind],refused⟩
      · have done : (allocateFallback operatorNew s bytes >>= assertAligned) = .ok out := by
          simp only [Call.bytes] at run
          simp only [run,bind,Except.bind,assertAlignedOk aligned]
        exact .inr ⟨out,done,fun _ => aligned,serves⟩

end Cases

/- One request, as a step of the abstract pool. -/
structure Served (s : State) (bytes : Nat) (out : Nat × State) : Prop where
  step : ∀ issued, Pool.Step kBlockSize (s.pool issued) ⟨out.1,bytes⟩ (out.2.pool (issued ++ [⟨out.1,bytes⟩]))
  recorded : s.Recorded → out.2.Recorded

section Serving

variable {operatorNew : OperatorNew} {s : State}

theorem grownRecorded {res : Nat} (old : s.Recorded) (size : Nat) : (s.grown res size).Recorded := by
  have held : (s.grown res size).arena.blocks_ = (s.grown res size).heap.map Region.base := by
    simp [State.grown,old.held]
  have usage := old.usage
  simp only [memoryUsage] at usage
  have total : (s.grown res size).arena.memoryUsage =
      ((s.grown res size).heap.map (fun b => b.size+sizeofPointer)).sum % 2^64 := by
    simp only [State.grown,memoryUsage,usage,List.map_append,List.sum_append,List.map_cons,List.map_nil,
      List.sum_cons,List.sum_nil,Nat.add_zero,Nat.mod_add_mod]
  exact ⟨held,total⟩

theorem servesRecorded {c : Call} {out : Nat × State} (serves : Serves operatorNew s c out) (old : s.Recorded) :
    out.2.Recorded := by
  cases serves with
  | carved fits => exact ⟨old.held,old.usage⟩
  | dedicated tight big got => exact grownRecorded old c.bytes
  | @refilled res tight small got =>
    obtain ⟨held,usage⟩ := @grownRecorded s res old kBlockSize
    exact ⟨held,usage⟩

theorem servesServed (honest : Honest operatorNew) {c : Call} (positive : 0 < c.bytes) {out : Nat × State}
    (serves : Serves operatorNew s c out) : Served s c.bytes out := by
  have recorded := servesRecorded serves
  cases serves with
  | carved fits => exact ⟨fun issued => Pool.Step.carve (p := s.pool issued) positive fits,recorded⟩
  | dedicated tight big got =>
    have fresh := (honest _ _ _ got).2
    exact ⟨fun issued => Pool.Step.dedicate (p := s.pool issued) positive fresh,recorded⟩
  | @refilled res tight small got =>
    have fresh := (honest _ _ _ got).2
    have below : c.bytes < kBlockSize := by
      simp only [kBlockSize] at *
      omega
    have step : ∀ issued, Pool.Step kBlockSize (s.pool issued) ⟨res,c.bytes⟩ ((s.refilled res c.bytes).pool _) :=
      fun issued => .refill (b := ⟨res,kBlockSize⟩) positive below rfl fresh
    exact ⟨step,recorded⟩

theorem serveSpec (honest : Honest operatorNew) (s : State) {c : Call} (sized : c.Sized) :
    (c.serve operatorNew s = .error .badAlloc ∧ c.Refuses operatorNew s) ∨
    ∃ out, c.serve operatorNew s = .ok out ∧ (c.Aligned → out.1 % align = 0) ∧ Served s c.bytes out := by
  rcases serveCases (honestAligned honest) s sized with refused | ⟨out,run,aligned,serves⟩
  · exact .inl refused
  · exact .inr ⟨out,run,aligned,servesServed honest sized.1 serves⟩

end Serving

/- Where the answers lie, in every state a client reaches: the ranges, the blocks
and the rest of the current block are a sound pool, over the blocks of blocks_. -/
structure Placed (u : Use) : Prop where
  sound : Pool.Sound kBlockSize u.pool
  recorded : u.state.Recorded
  aligned : ∀ i ∈ u.issued, i.call.Aligned → i.res % align = 0

theorem newPlaced : Placed Use.new := ⟨Pool.emptySound kBlockSize,⟨rfl,rfl⟩,by simp [Use.new]⟩

theorem stepPlaced {operatorNew : OperatorNew} (honest : Honest operatorNew) {u : Use} (placed : Placed u)
    {c : Call} (sized : c.Sized) : (u.step operatorNew c = .error .badAlloc ∧ c.Refuses operatorNew u.state) ∨
      ∃ v res, u.step operatorNew c = .ok v ∧ v.issued = u.issued ++ [⟨c,res⟩] ∧ Placed v := by
  unfold Use.step
  rcases serveSpec honest u.state sized with ⟨run,refused⟩ | ⟨⟨res,s⟩,run,aligned,served⟩
  · exact .inl ⟨by simp only [run,bind,Except.bind],refused⟩
  · have sound : Pool.Sound kBlockSize (Use.pool ⟨s,u.issued ++ [⟨c,res⟩]⟩) := by
      have step := served.step (u.issued.map Issued.region)
      have after := Pool.stepSound placed.sound step
      simp only [Use.pool,List.map_append,List.map_cons,List.map_nil]
      exact after
    have all : ∀ i ∈ u.issued ++ [⟨c,res⟩], i.call.Aligned → i.res % align = 0 :=
      Snoc.all placed.aligned aligned
    simp only [run,bind,Except.bind]
    exact .inr ⟨_,res,rfl,rfl,sound,served.recorded placed.recorded,all⟩

/- A client's run comes to a request of its own that operator new[] refuses. -/
def Use.Refused (operatorNew : OperatorNew) (u : Use) (calls : List Call) : Prop :=
  Machine.Stops (Use.step operatorNew) (fun v c => c.Refuses operatorNew v.state) u calls

theorem runPlaced {operatorNew : OperatorNew} (honest : Honest operatorNew) {u : Use} (placed : Placed u)
    {calls : List Call} (sized : ∀ c ∈ calls, c.Sized) :
    (calls.foldlM (Use.step operatorNew) u = .error .badAlloc ∧ u.Refused operatorNew calls) ∨
    ∃ v, calls.foldlM (Use.step operatorNew) u = .ok v ∧
      v.issued.map Issued.call = u.issued.map Issued.call ++ calls ∧ Placed v := by
  induction calls generalizing u with
  | nil => exact .inr ⟨u,rfl,by simp,placed⟩
  | cons c calls ih =>
    simp only [List.foldlM_cons]
    rcases stepPlaced honest placed (sized c (by simp)) with ⟨run,refused⟩ | ⟨v,res,run,grown,next⟩
    · exact .inl ⟨by simp only [run,bind,Except.bind],Machine.stopsHere refused⟩
    · simp only [run,bind,Except.bind]
      rcases ih next (fun x mem => sized x (List.mem_cons_of_mem _ mem)) with ⟨failed,later⟩ | ⟨w,rest,calls',last⟩
      · exact .inl ⟨failed,Machine.stopsLater run later⟩
      · exact .inr ⟨w,rest,by simp [calls',grown],last⟩

/- [alloc_ptr_,alloc_ptr_+alloc_bytes_remaining_) is null and empty while every
block was given out whole, then the rest of the youngest shared block. -/
def Remaining (u : Use) : Prop :=
  (u.state.arena.alloc_ptr_ = 0 ∧ u.state.arena.alloc_bytes_remaining_ = 0 ∧
      ∀ b ∈ u.state.heap, b ∈ u.issued.map Issued.region) ∨
    ∃ front block back, u.state.heap = front ++ block::back ∧ block.size = kBlockSize ∧
      block ∉ u.issued.map Issued.region ∧ (∀ b ∈ back, b ∈ u.issued.map Issued.region) ∧
      block.base < u.state.arena.alloc_ptr_ ∧
      u.state.arena.alloc_ptr_+u.state.arena.alloc_bytes_remaining_ = block.base+kBlockSize

theorem placedRemaining {u : Use} (placed : Placed u) : Remaining u := by
  rcases placed.sound.current with ⟨null,whole⟩ | ⟨front,block,back,blocks,size,unissued,behind,after,ends⟩
  · have ptr := congrArg Region.base null
    have rest := congrArg Region.size null
    exact .inl ⟨ptr,rest,whole⟩
  · have suffix : u.state.arena.alloc_ptr_+u.state.arena.alloc_bytes_remaining_ = block.base+kBlockSize := by
      rw [← size]
      exact ends
    exact .inr ⟨front,block,back,blocks,size,unissued,behind,after,suffix⟩

theorem allocationsPlaced (operatorNew : OperatorNew) (honest : Honest operatorNew) (calls : List Call)
    (sized : ∀ c ∈ calls, 1 ≤ c.bytes ∧ c.bytes+7 < 2^64) :
    (calls.foldlM (Use.step operatorNew) Use.new = .error .badAlloc ∧ Use.new.Refused operatorNew calls) ∨
    ∃ u, calls.foldlM (Use.step operatorNew) Use.new = .ok u ∧ u.issued.map Issued.call = calls ∧
      (∀ i ∈ u.issued, ∃ b ∈ u.state.heap, b.base ∈ u.state.arena.blocks_ ∧ i.region.Within b) ∧
      (u.issued.map Issued.region).Pairwise Region.Apart ∧
      (∀ i ∈ u.issued, i.call.Aligned → i.res % 8 = 0) ∧
      (∀ i ∈ u.issued, i.region.Apart ⟨u.state.arena.alloc_ptr_,u.state.arena.alloc_bytes_remaining_⟩) ∧
      Remaining u := by
  rcases runPlaced honest newPlaced sized with refused | ⟨u,run,calls',placed⟩
  · exact .inl refused
  · have inside : ∀ i ∈ u.issued, ∃ b ∈ u.state.heap, b.base ∈ u.state.arena.blocks_ ∧ i.region.Within b := by
      intro i mem
      obtain ⟨b,hb,within⟩ := placed.sound.inside i.region (List.mem_map_of_mem mem)
      have held : b.base ∈ u.state.arena.blocks_ := by
        rw [placed.recorded.held]
        exact List.mem_map_of_mem hb
      exact ⟨b,hb,held,within⟩
    have unissued := fun i mem => placed.sound.unissued (Issued.region i) (List.mem_map_of_mem mem)
    exact .inr ⟨u,run,calls',inside,placed.sound.issuedApart,placed.aligned,unissued,placedRemaining placed⟩

/- An operator new[] that puts each block behind all earlier ones, until the
address space is full. -/
def beyond (heap : List Region) : Nat := heap.foldr (fun b n => max (b.stop+(8-b.stop % 8)) n) 8

def operatorNewBeyond : OperatorNew := fun heap size =>
  if beyond heap+size < 2^64 then some (beyond heap) else none

theorem beyondAligned (heap : List Region) : beyond heap % align = 0 := by
  unfold beyond align
  induction heap with
  | nil => rfl
  | cons b heap ih =>
    simp only [List.foldr_cons]
    omega

theorem beyondStops {heap : List Region} {b : Region} (mem : b ∈ heap) : b.stop ≤ beyond heap := by
  unfold beyond
  induction heap with
  | nil => cases mem
  | cons a heap ih =>
    simp only [List.foldr_cons]
    rcases List.mem_cons.mp mem with rfl | later
    · omega
    · have below := ih later
      omega

theorem beyondHonest : Honest operatorNewBeyond := by
  intro heap size res got
  unfold operatorNewBeyond at got
  split at got
  · cases Option.some.inj got
    exact ⟨beyondAligned heap,fun old mem => .inl (beyondStops mem)⟩
  · cases got

theorem allocationsPlacedBeyond :
    ∃ u, [Call.allocate 3,.allocateAligned 5,.allocate 2000,.allocateAligned 3000,.allocate 1000,.allocate 500].foldlM
        (Use.step operatorNewBeyond) Use.new = .ok u ∧
      (∀ i ∈ u.issued, ∃ b ∈ u.state.heap, b.base ∈ u.state.arena.blocks_ ∧ i.region.Within b) ∧
      (u.issued.map Issued.region).Pairwise Region.Apart ∧
      (∀ i ∈ u.issued, i.call.Aligned → i.res % 8 = 0) ∧ Remaining u := by
  rcases allocationsPlaced operatorNewBeyond beyondHonest
    [.allocate 3,.allocateAligned 5,.allocate 2000,.allocateAligned 3000,.allocate 1000,.allocate 500]
    (by decide) with ⟨failed,_⟩ | ⟨u,run,_,inside,apart,aligned,_,remaining⟩
  · cases failed
  · exact ⟨u,run,inside,apart,aligned,remaining⟩

end Arena
end KVStorage
