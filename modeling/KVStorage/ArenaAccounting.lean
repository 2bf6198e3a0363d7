import KVStorage.Arena

/-! Where the bytes of an arena went: every block is made up of what was asked for,
the padding in front of aligned answers, what was left behind in shared blocks, and
the rest of the current one. -/
namespace KVStorage.Arena

open Support

/- What one request cost beyond its bytes: padding, and the bytes still free in the
shared block it left behind, if it left one. The null block at first has none. -/
structure Entry where
  call : Call
  padding : Nat
  abandoned : Option Nat
  deriving DecidableEq, Repr

def entryOf (s : State) (c : Call) : Entry :=
  if c.Fits s then ⟨c,c.slop s,none⟩
  else if c.bytes > kBlockSize/4 then ⟨c,0,none⟩
  else ⟨c,0,some s.arena.alloc_bytes_remaining_⟩

/- A client's run with the book that is kept of it. -/
structure Audit where
  state : State
  entries : List Entry
  deriving DecidableEq, Repr

def Audit.new : Audit := ⟨⟨Arena.new,[]⟩,[]⟩

def Audit.step (operatorNew : OperatorNew) (a : Audit) (c : Call) : Except Fault Audit := do
  let (_,s) ← c.serve operatorNew a.state
  .ok ⟨s,a.entries ++ [entryOf a.state c]⟩

def requested (entries : List Entry) : Nat := (entries.map fun e => e.call.bytes).sum

def padding (entries : List Entry) : Nat := (entries.map Entry.padding).sum

def abandoned (entries : List Entry) : Nat := (entries.map fun e => e.abandoned.getD 0).sum

/- The sizes of the blocks. -/
def held (s : State) : Nat := (s.heap.map Region.size).sum

/- What an entry may be: padding for aligned requests only, less than a quarter of a
block left behind. -/
structure Entry.Bounded (e : Entry) : Prop where
  padding : e.padding ≤ 7
  unaligned : ¬ e.call.Aligned → e.padding = 0
  abandoned : ∀ n, e.abandoned = some n → n < kBlockSize/4

structure Balanced (a : Audit) : Prop where
  recorded : a.state.Recorded
  balance : held a.state = requested a.entries + padding a.entries + abandoned a.entries +
    a.state.arena.alloc_bytes_remaining_
  aligned : (a.state.arena.alloc_ptr_+a.state.arena.alloc_bytes_remaining_) % align = 0
  bounded : ∀ e ∈ a.entries, e.Bounded

section Steps

variable {operatorNew : OperatorNew} {s : State} {c : Call}

theorem slopSmall (s : State) (c : Call) : c.slop s ≤ 7 ∧ (¬ c.Aligned → c.slop s = 0) := by
  cases c with
  | allocate bytes => exact ⟨Nat.zero_le 7,fun _ => rfl⟩
  | allocateAligned bytes => exact ⟨(slopAligns s.arena.alloc_ptr_).2,fun unaligned => absurd trivial unaligned⟩

/- The block ends at a multiple of eight, so its rest is the padding and a multiple of
eight: a small request that does not fit leaves fewer bytes than a quarter. -/
theorem abandonsLittle (aligned : (s.arena.alloc_ptr_+s.arena.alloc_bytes_remaining_) % align = 0)
    (tight : ¬ c.Fits s) (small : c.bytes ≤ kBlockSize/4) : s.arena.alloc_bytes_remaining_ < kBlockSize/4 := by
  cases c with
  | allocate bytes =>
    simp only [Call.Fits,Call.slop,Call.bytes,kBlockSize] at *
    omega
  | allocateAligned bytes =>
    have slopped := (slopAligns s.arena.alloc_ptr_).1
    have few := (slopAligns s.arena.alloc_ptr_).2
    simp only [Call.Fits,Call.slop,Call.bytes,kBlockSize,align] at *
    omega

theorem entryBounded (aligned : (s.arena.alloc_ptr_+s.arena.alloc_bytes_remaining_) % align = 0) :
    (entryOf s c).Bounded := by
  unfold entryOf
  split
  · exact ⟨(slopSmall s c).1,(slopSmall s c).2,nofun⟩
  · rename_i tight
    split
    · exact ⟨Nat.zero_le 7,fun _ => rfl,nofun⟩
    · rename_i small
      have little := abandonsLittle aligned tight (Nat.not_lt.mp small)
      refine ⟨Nat.zero_le 7,fun _ => rfl,?_⟩
      intro n left
      cases left
      exact little

/- One request: the blocks grow by what the entry says, up to the rest. -/
theorem servesBalance {out : Nat × State} (serves : Serves operatorNew s c out) :
    held out.2 + s.arena.alloc_bytes_remaining_ = held s + c.bytes + (entryOf s c).padding +
      (entryOf s c).abandoned.getD 0 + out.2.arena.alloc_bytes_remaining_ := by
  unfold entryOf
  cases serves with
  | carved fits =>
    rw [if_pos fits]
    have within : c.slop s+c.bytes ≤ s.arena.alloc_bytes_remaining_ := fits
    simp only [held,State.carved,bump,Option.getD_none]
    omega
  | dedicated tight big got =>
    rw [if_neg tight,if_pos big]
    simp only [State.grown,held,List.map_append,List.sum_append,List.map_cons,List.map_nil,List.sum_cons,
      List.sum_nil,Option.getD_none]
    omega
  | refilled tight small got =>
    rw [if_neg tight,if_neg (Nat.not_lt.mpr small)]
    simp only [kBlockSize] at small
    simp only [State.refilled,held,List.map_append,List.sum_append,List.map_cons,List.map_nil,List.sum_cons,
      List.sum_nil,Option.getD_some,kBlockSize]
    omega

theorem servesAligned (honest : AlignedNew operatorNew) {out : Nat × State} (serves : Serves operatorNew s c out)
    (aligned : (s.arena.alloc_ptr_+s.arena.alloc_bytes_remaining_) % align = 0) :
    (out.2.arena.alloc_ptr_+out.2.arena.alloc_bytes_remaining_) % align = 0 := by
  cases serves with
  | carved fits =>
    have within : c.slop s+c.bytes ≤ s.arena.alloc_bytes_remaining_ := fits
    simp only [State.carved,bump,align] at *
    omega
  | dedicated tight big got => exact aligned
  | refilled tight small got =>
    have placed := honest _ _ _ got
    simp only [State.refilled,kBlockSize,align] at *
    omega

theorem entrySums (entries : List Entry) (e : Entry) :
    requested (entries ++ [e]) = requested entries + e.call.bytes ∧
    padding (entries ++ [e]) = padding entries + e.padding ∧
    abandoned (entries ++ [e]) = abandoned entries + e.abandoned.getD 0 := by
  simp [requested,padding,abandoned]

theorem entryCall (s : State) (c : Call) : (entryOf s c).call = c := by
  unfold entryOf
  split
  · rfl
  · split
    · rfl
    · rfl

theorem newBalanced : Balanced Audit.new := ⟨⟨rfl,rfl⟩,rfl,rfl,by simp [Audit.new]⟩

theorem stepBalanced (honest : AlignedNew operatorNew) {a : Audit} (balanced : Balanced a) (sized : c.Sized) :
    (a.step operatorNew c = .error .badAlloc ∧ c.Refuses operatorNew a.state) ∨
    ∃ b, a.step operatorNew c = .ok b ∧ b.entries.map Entry.call = a.entries.map Entry.call ++ [c] ∧ Balanced b := by
  unfold Audit.step
  rcases serveCases honest a.state sized with ⟨run,refused⟩ | ⟨⟨res,s⟩,run,_,serves⟩
  · exact .inl ⟨by simp only [run,bind,Except.bind],refused⟩
  · obtain ⟨asked,padded,left⟩ := entrySums a.entries (entryOf a.state c)
    have grown := servesBalance serves
    have before := balanced.balance
    have call := entryCall a.state c
    have balance : held s = requested (a.entries ++ [entryOf a.state c]) + padding (a.entries ++ [entryOf a.state c]) +
        abandoned (a.entries ++ [entryOf a.state c]) + s.arena.alloc_bytes_remaining_ := by
      rw [asked,padded,left,call]
      simp only at grown
      omega
    have bounded := Snoc.all balanced.bounded (entryBounded (c := c) balanced.aligned)
    have next : Balanced ⟨s,a.entries ++ [entryOf a.state c]⟩ :=
      ⟨servesRecorded serves balanced.recorded,balance,servesAligned honest serves balanced.aligned,bounded⟩
    simp only [run,bind,Except.bind]
    exact .inr ⟨_,rfl,by rw [List.map_append,List.map_singleton,call],next⟩

end Steps

/- The run comes to a request of its own that operator new[] refuses. -/
def Audit.Refused (operatorNew : OperatorNew) (a : Audit) (calls : List Call) : Prop :=
  Machine.Stops (Audit.step operatorNew) (fun b c => c.Refuses operatorNew b.state) a calls

theorem runBalanced {operatorNew : OperatorNew} (honest : AlignedNew operatorNew) {a : Audit} (balanced : Balanced a)
    {calls : List Call} (sized : ∀ c ∈ calls, c.Sized) :
    (calls.foldlM (Audit.step operatorNew) a = .error .badAlloc ∧ a.Refused operatorNew calls) ∨
    ∃ b, calls.foldlM (Audit.step operatorNew) a = .ok b ∧
      b.entries.map Entry.call = a.entries.map Entry.call ++ calls ∧ Balanced b := by
  induction calls generalizing a with
  | nil => exact .inr ⟨a,rfl,by rw [List.append_nil],balanced⟩
  | cons c calls ih =>
    simp only [List.foldlM_cons]
    rcases stepBalanced honest balanced (sized c List.mem_cons_self) with ⟨run,refused⟩ | ⟨b,run,grown,next⟩
    · exact .inl ⟨by simp only [run,bind,Except.bind],Machine.stopsHere refused⟩
    · simp only [run,bind,Except.bind]
      rcases ih next (fun x mem => sized x (List.mem_cons_of_mem c mem)) with ⟨failed,later⟩ | ⟨d,rest,calls',last⟩
      · exact .inl ⟨failed,Machine.stopsLater run later⟩
      · exact .inr ⟨d,rest,by rw [calls',grown,List.append_assoc,List.singleton_append],last⟩

/- A large request that does not fit does not touch the current block. -/
theorem largeKeepsCurrent {operatorNew : OperatorNew} {s : State} {c : Call} (tight : ¬ c.Fits s)
    (large : c.bytes > kBlockSize/4) {out : Nat × State} (serves : Serves operatorNew s c out) :
    out.2.arena.alloc_ptr_ = s.arena.alloc_ptr_ ∧
      out.2.arena.alloc_bytes_remaining_ = s.arena.alloc_bytes_remaining_ := by
  cases serves with
  | carved fits => exact absurd fits tight
  | dedicated tight big got => exact ⟨rfl,rfl⟩
  | refilled tight small got => exact absurd large (Nat.not_lt.mpr small)

theorem sumOfBlocks (heap : List Region) : (heap.map fun b => b.size+sizeofPointer).sum =
    (heap.map Region.size).sum + sizeofPointer*heap.length := by
  induction heap with
  | nil => rfl
  | cons b heap ih =>
    simp only [List.map_cons,List.sum_cons,List.length_cons,ih,Nat.mul_add,Nat.mul_one]
    omega

theorem arenaAccounting (operatorNew : OperatorNew)
    (honest : ∀ heap size res, operatorNew heap size = some res → res % 8 = 0) (calls : List Call)
    (sized : ∀ c ∈ calls, 1 ≤ c.bytes ∧ c.bytes+7 < 2^64) :
    (calls.foldlM (Audit.step operatorNew) Audit.new = .error .badAlloc ∧ Audit.new.Refused operatorNew calls) ∨
    ∃ a, calls.foldlM (Audit.step operatorNew) Audit.new = .ok a ∧ a.entries.map Entry.call = calls ∧
      a.state.arena.blocks_ = a.state.heap.map Region.base ∧
      a.state.arena.memoryUsage = (a.state.heap.map fun b => b.size+8).sum % 2^64 ∧
      ((a.state.heap.map fun b => b.size+8).sum < 2^64 →
        a.state.arena.memoryUsage = (a.state.heap.map fun b => b.size+8).sum) ∧
      (a.state.heap.map fun b => b.size+8).sum = (calls.map Call.bytes).sum + padding a.entries +
        abandoned a.entries + a.state.arena.alloc_bytes_remaining_ + 8*a.state.arena.blocks_.length ∧
      (∀ e ∈ a.entries, e.padding ≤ 7 ∧ (¬ e.call.Aligned → e.padding = 0) ∧
        ∀ n, e.abandoned = some n → n < 1024) ∧
      ∀ c : Call, 1 ≤ c.bytes ∧ c.bytes+7 < 2^64 → c.bytes > 1024 → ¬ c.Fits a.state → ∀ res s,
        c.serve operatorNew a.state = .ok (res,s) → s.arena.alloc_ptr_ = a.state.arena.alloc_ptr_ ∧
          s.arena.alloc_bytes_remaining_ = a.state.arena.alloc_bytes_remaining_ := by
  rcases runBalanced honest newBalanced sized with refused | ⟨a,run,calls',balanced⟩
  · exact .inl refused
  · have asked : requested a.entries = (calls.map Call.bytes).sum := by
      have served : a.entries.map Entry.call = calls := calls'
      rw [← served,List.map_map]
      rfl
    have count : a.state.arena.blocks_.length = a.state.heap.length := by
      rw [balanced.recorded.held,List.length_map]
    have total := sumOfBlocks a.state.heap
    have balance := balanced.balance
    simp only [sizeofPointer,held] at total balance
    have large : ∀ c : Call, 1 ≤ c.bytes ∧ c.bytes+7 < 2^64 → c.bytes > 1024 → ¬ c.Fits a.state → ∀ res s,
        c.serve operatorNew a.state = .ok (res,s) → s.arena.alloc_ptr_ = a.state.arena.alloc_ptr_ ∧
          s.arena.alloc_bytes_remaining_ = a.state.arena.alloc_bytes_remaining_ := by
      intro c sized' big tight res s served
      rcases serveCases honest a.state sized' with ⟨failed,_⟩ | ⟨out,ran,_,serves⟩
      · rw [failed] at served
        cases served
      · cases Except.ok.inj (ran.symm.trans served)
        exact largeKeepsCurrent tight big serves
    have usage := balanced.recorded.usage
    have whole : (a.state.heap.map fun b => b.size+8).sum < 2^64 →
        a.state.arena.memoryUsage = (a.state.heap.map fun b => b.size+8).sum :=
      fun room => usage.trans (Nat.mod_eq_of_lt room)
    have bounds : ∀ e ∈ a.entries, e.padding ≤ 7 ∧ (¬ e.call.Aligned → e.padding = 0) ∧
        ∀ n, e.abandoned = some n → n < 1024 := by
      intro e mem
      obtain ⟨padded,unaligned,left⟩ := balanced.bounded e mem
      exact ⟨padded,unaligned,left⟩
    exact .inr ⟨a,run,calls',balanced.recorded.held,usage,whole,by rw [total,balance,asked,count],bounds,large⟩

/- Padding, an abandoned block and a request with a block of its own. -/
theorem arenaAccountingBeyond :
    ∃ a, [Call.allocate 3,.allocateAligned 5,.allocate 2000,.allocateAligned 3000,.allocate 1000,.allocate 500].foldlM
        (Audit.step operatorNewBeyond) Audit.new = .ok a ∧
      (a.state.heap.map fun b => b.size+8).sum = 6508 + padding a.entries + abandoned a.entries +
        a.state.arena.alloc_bytes_remaining_ + 8*a.state.arena.blocks_.length ∧
      a.state.arena.memoryUsage = (a.state.heap.map fun b => b.size+8).sum % 2^64 := by
  rcases arenaAccounting operatorNewBeyond (honestAligned beyondHonest)
    [.allocate 3,.allocateAligned 5,.allocate 2000,.allocateAligned 3000,.allocate 1000,.allocate 500]
    (by decide) with ⟨failed,_⟩ | ⟨a,run,_,_,usage,_,balance,_⟩
  · cases failed
  · exact ⟨a,run,balance,usage⟩

end KVStorage.Arena
