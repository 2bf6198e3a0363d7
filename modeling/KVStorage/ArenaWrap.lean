import KVStorage.Arena

/-! Requests near the end of size_t. What allocateAligned compares with the rest of the
block is a sum that wraps, and a small rest passes for a huge request. -/
namespace KVStorage.Arena

open Support

/- The request is passed on to operator new[], for at least as many bytes, and its
block is the answer. -/
def Reaches (operatorNew : OperatorNew) (s : State) (bytes : Nat) (run : Except Fault (Nat × State)) : Prop :=
  ∃ size, bytes ≤ size ∧ ((operatorNew s.heap size = none ∧ run = .error .badAlloc) ∨
    ∃ res s', operatorNew s.heap size = some res ∧ run = .ok (res,s') ∧ s'.heap = s.heap ++ [⟨res,size⟩])

/- An aligned request is never given less than it asked for. -/
structure Sufficient (operatorNew : OperatorNew) (s : State) (bytes : Nat) : Prop where
  inside : (bytes + slopOf s.arena.alloc_ptr_) % 2^64 ≤ s.arena.alloc_bytes_remaining_ →
    ∃ res s', allocateAligned operatorNew s bytes = .ok (res,s') ∧ s'.heap = s.heap ∧
      Region.Within ⟨res,bytes⟩ ⟨s.arena.alloc_ptr_,s.arena.alloc_bytes_remaining_⟩
  reaches : ¬ (bytes + slopOf s.arena.alloc_ptr_) % 2^64 ≤ s.arena.alloc_bytes_remaining_ →
    Reaches operatorNew s bytes (allocateAligned operatorNew s bytes) ∧
      (s.arena.alloc_bytes_remaining_ < bytes → allocateAligned operatorNew s bytes = allocate operatorNew s bytes)

/- What every state of a client's run has in common, after requests of any size. -/
structure State.Bounded (s : State) : Prop where
  small : s.arena.alloc_bytes_remaining_ ≤ kBlockSize
  ends : (s.arena.alloc_ptr_ + s.arena.alloc_bytes_remaining_) % align = 0
  current : s.arena.alloc_bytes_remaining_ = 0 ∨
    ∃ b ∈ s.heap, Region.Within ⟨s.arena.alloc_ptr_,s.arena.alloc_bytes_remaining_⟩ b

section Requests

variable {operatorNew : OperatorNew} {s : State} {bytes : Nat}

theorem fallbackIs (operatorNew : OperatorNew) (s : State) (bytes : Nat) : allocateFallback operatorNew s bytes =
    match operatorNew s.heap (blockBytes bytes) with
    | none => .error .badAlloc
    | some res => .ok (res,if bytes > kBlockSize/4 then s.grown res bytes else s.refilled res bytes) := by
  unfold allocateFallback allocateNewBlock blockBytes
  by_cases big : bytes > kBlockSize/4
  · cases got : operatorNew s.heap bytes with
    | none => simp only [if_pos big,got]
    | some res => simp only [if_pos big,got]
  · cases got : operatorNew s.heap kBlockSize with
    | none => simp only [if_neg big,got,bind,Except.bind]
    | some res =>
      simp only [if_neg big,got,bind,Except.bind]
      rfl

theorem blockEnough (bytes : Nat) : bytes ≤ blockBytes bytes := by
  unfold blockBytes
  split
  · exact Nat.le_refl bytes
  · rename_i small
    simp only [kBlockSize] at *
    omega

theorem newBounded : State.Bounded ⟨new,[]⟩ := ⟨Nat.zero_le _,rfl,.inl rfl⟩

/- The end of the rest stays where it is. -/
theorem carvedBounded (bounded : s.Bounded) (fits : bytes ≤ s.arena.alloc_bytes_remaining_) :
    (s.carved bytes).Bounded := by
  obtain ⟨small,ends,current⟩ := bounded
  have stop : s.arena.alloc_ptr_ + bytes + (s.arena.alloc_bytes_remaining_ - bytes) =
      s.arena.alloc_ptr_ + s.arena.alloc_bytes_remaining_ := by omega
  refine ⟨Nat.le_trans (Nat.sub_le ..) small,?_,?_⟩
  · simp only [State.carved,bump,stop]
    exact ends
  · rcases current with empty | ⟨b,mem,within⟩
    · left
      simp only [State.carved,bump]
      omega
    · have rest : Region.Within ⟨s.arena.alloc_ptr_+bytes,s.arena.alloc_bytes_remaining_-bytes⟩
          ⟨s.arena.alloc_ptr_,s.arena.alloc_bytes_remaining_⟩ := Region.leftWithin (n := bytes) fits
      exact .inr ⟨b,mem,Region.withinTrans rest within⟩

theorem grownBounded (bounded : s.Bounded) (res size : Nat) : (s.grown res size).Bounded := by
  obtain ⟨small,ends,current⟩ := bounded
  refine ⟨small,ends,current.imp_right ?_⟩
  intro ⟨b,mem,within⟩
  exact ⟨b,List.mem_append_left _ mem,within⟩

theorem refilledBounded {res : Nat} (aligned : res % align = 0) (small : bytes ≤ kBlockSize) :
    (s.refilled res bytes).Bounded := by
  have stop : res + bytes + (kBlockSize - bytes) = res + kBlockSize := by omega
  refine ⟨Nat.sub_le ..,?_,.inr ⟨⟨res,kBlockSize⟩,List.mem_concat_self,Region.leftWithin small⟩⟩
  simp only [State.refilled,stop]
  simp only [kBlockSize,align] at *
  omega

theorem fallbackBounded (aligned : AlignedNew operatorNew) (bounded : s.Bounded) {out : Nat × State}
    (run : allocateFallback operatorNew s bytes = .ok out) : out.2.Bounded := by
  rw [fallbackIs] at run
  cases got : operatorNew s.heap (blockBytes bytes) with
  | none =>
    rw [got] at run
    cases run
  | some res =>
    rw [got] at run
    cases run
    by_cases big : bytes > kBlockSize/4
    · simp only [if_pos big]
      exact grownBounded bounded res bytes
    · simp only [if_neg big]
      have small : bytes ≤ kBlockSize := Nat.le_trans (Nat.not_lt.mp big) (by decide)
      exact refilledBounded (aligned _ _ _ got) small

/- The assertion on the answer holds where operator new[] is aligned. -/
theorem fallbackAsserts (aligned : AlignedNew operatorNew) (s : State) (bytes : Nat) :
    (allocateFallback operatorNew s bytes >>= assertAligned) = allocateFallback operatorNew s bytes := by
  rw [fallbackIs]
  cases got : operatorNew s.heap (blockBytes bytes) with
  | none => rfl
  | some res => exact assertAlignedOk (aligned _ _ _ got)

theorem fallbackReaches (operatorNew : OperatorNew) (s : State) (bytes : Nat) :
    Reaches operatorNew s bytes (allocateFallback operatorNew s bytes) := by
  refine ⟨blockBytes bytes,blockEnough bytes,?_⟩
  rw [fallbackIs]
  cases got : operatorNew s.heap (blockBytes bytes) with
  | none => exact .inl ⟨rfl,rfl⟩
  | some res =>
    refine .inr ⟨res,_,rfl,rfl,?_⟩
    unfold blockBytes
    split
    · rfl
    · rfl

theorem alignedFast (fits : (bytes + slopOf s.arena.alloc_ptr_) % 2^64 ≤ s.arena.alloc_bytes_remaining_) :
    allocateAligned operatorNew s bytes = .ok (s.arena.alloc_ptr_ + slopOf s.arena.alloc_ptr_,
      s.carved ((bytes + slopOf s.arena.alloc_ptr_) % 2^64)) := by
  simp only [allocateAligned,if_pos fits,bind,Except.bind]
  exact assertAlignedOk (slopAligns s.arena.alloc_ptr_).1

theorem alignedSlow (aligned : AlignedNew operatorNew)
    (tight : ¬ (bytes + slopOf s.arena.alloc_ptr_) % 2^64 ≤ s.arena.alloc_bytes_remaining_) :
    allocateAligned operatorNew s bytes = allocateFallback operatorNew s bytes := by
  have asserted := fallbackAsserts aligned s bytes
  simp only [allocateAligned,if_neg tight]
  exact asserted

theorem serveBounded (aligned : AlignedNew operatorNew) (bounded : s.Bounded) {c : Call} {out : Nat × State}
    (run : c.serve operatorNew s = .ok out) : out.2.Bounded := by
  cases c with
  | allocate bytes =>
    simp only [Call.serve,allocate] at run
    split at run
    · cases run
    · split at run
      · rename_i fits
        cases run
        exact carvedBounded bounded fits
      · exact fallbackBounded aligned bounded run
  | allocateAligned bytes =>
    simp only [Call.serve] at run
    by_cases fits : (bytes + slopOf s.arena.alloc_ptr_) % 2^64 ≤ s.arena.alloc_bytes_remaining_
    · rw [alignedFast fits] at run
      cases run
      exact carvedBounded bounded fits
    · rw [alignedSlow aligned fits] at run
      exact fallbackBounded aligned bounded run

/- What is left of a block ends at a multiple of eight, so it is no shorter than the
padding, and a sum that has wrapped is shorter than the padding. -/
theorem wrappedFits (bounded : s.Bounded) (low : bytes < 2^64)
    (wraps : 2^64 ≤ bytes + slopOf s.arena.alloc_ptr_) :
    (bytes + slopOf s.arena.alloc_ptr_) % 2^64 ≤ s.arena.alloc_bytes_remaining_ := by
  obtain ⟨slopped,few⟩ := slopAligns s.arena.alloc_ptr_
  have ends := bounded.ends
  simp only [align] at *
  omega

theorem sufficient (aligned : AlignedNew operatorNew) (bounded : s.Bounded) (positive : 1 ≤ bytes)
    (low : bytes < 2^64) : Sufficient operatorNew s bytes ↔ bytes + slopOf s.arena.alloc_ptr_ < 2^64 := by
  constructor
  · intro enough
    by_contra wraps
    have fits := wrappedFits bounded low (Nat.not_lt.mp wraps)
    obtain ⟨res,s',run,_,within⟩ := enough.inside fits
    have small := bounded.small
    simp only [Region.Within,Region.stop,kBlockSize] at within small
    have few := (slopAligns s.arena.alloc_ptr_).2
    omega
  · intro exactly
    have whole : (bytes + slopOf s.arena.alloc_ptr_) % 2^64 = slopOf s.arena.alloc_ptr_ + bytes := by
      rw [Nat.mod_eq_of_lt exactly,Nat.add_comm]
    constructor
    · intro fits
      refine ⟨_,_,alignedFast fits,rfl,?_⟩
      rw [whole] at fits
      exact Region.takenWithin fits
    · intro tight
      have slow := alignedSlow aligned tight
      rw [slow]
      refine ⟨fallbackReaches operatorNew s bytes,?_⟩
      intro large
      rw [allocate,if_neg (Nat.ne_of_gt positive),if_neg (Nat.not_le.mpr large)]

end Requests

theorem runBounded {operatorNew : OperatorNew} (aligned : AlignedNew operatorNew) {u v : Use} {calls : List Call}
    (bounded : u.state.Bounded) (run : calls.foldlM (Use.step operatorNew) u = .ok v) : v.state.Bounded := by
  induction calls generalizing u with
  | nil =>
    cases run
    exact bounded
  | cons c calls ih =>
    rw [List.foldlM_cons] at run
    obtain ⟨w,first,rest⟩ := Machine.okBind run
    obtain ⟨⟨res,s⟩,served,same⟩ := Machine.okBind first
    cases same
    exact ih (serveBounded aligned bounded served) rest

theorem alignedSufficient (operatorNew : OperatorNew)
    (aligned : ∀ heap size res, operatorNew heap size = some res → res % 8 = 0) (calls : List Call) (u : Use)
    (run : calls.foldlM (Use.step operatorNew) Use.new = .ok u) :
    (u.state.arena.alloc_bytes_remaining_ = 0 ∨ ∃ b ∈ u.state.heap,
      Region.Within ⟨u.state.arena.alloc_ptr_,u.state.arena.alloc_bytes_remaining_⟩ b) ∧
    ∀ bytes, 1 ≤ bytes → bytes < 2^64 → (Sufficient operatorNew u.state bytes ↔
      bytes + (8 - u.state.arena.alloc_ptr_ % 8) % 8 < 2^64) := by
  have bounded := runBounded aligned newBounded run
  refine ⟨bounded.current,?_⟩
  intro bytes positive low
  have slop : slopOf u.state.arena.alloc_ptr_ = (8 - u.state.arena.alloc_ptr_ % 8) % 8 := by
    obtain ⟨slopped,few⟩ := slopAligns u.state.arena.alloc_ptr_
    simp only [align] at slopped
    omega
  rw [← slop]
  exact sufficient aligned bounded positive low

/- After one byte the padding is seven, and 2^64-8 bytes are the most whose sum does
not wrap. -/
theorem alignedSufficientAfterOne : ∃ u, [Call.allocate 1].foldlM (Use.step operatorNewBeyond) Use.new = .ok u ∧
    Sufficient operatorNewBeyond u.state (2^64-8) := by
  have exactly := (alignedSufficient operatorNewBeyond (honestAligned beyondHonest) [.allocate 1] _ rfl).2 (2^64-8)
    (by decide) (by decide)
  exact ⟨_,rfl,exactly.mpr (by decide)⟩

/- The sum wraps to 6: less than the padding is set aside for all of 2^64-1 bytes. -/
theorem alignedWraps : ∃ u, [Call.allocate 1].foldlM (Use.step operatorNewBeyond) Use.new = .ok u ∧
    ¬ Sufficient operatorNewBeyond u.state (2^64-1) := by
  refine ⟨_,rfl,?_⟩
  intro enough
  obtain ⟨res,s',run,_,within⟩ := enough.inside (by decide)
  have bottom : 9 ≤ res := within.1
  have top : res + (2^64-1) ≤ 4104 := within.2
  omega

end KVStorage.Arena
