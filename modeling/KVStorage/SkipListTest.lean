import KVStorage.SkipListTestKeys
import KVStorage.SkipListVisibility

/-! ConcurrentTest of test/skiplist_test.cc: one writer that publishes generations,
and readers that check what they visit against the generations they loaded first. -/
namespace KVStorage.ConcurrentTest

open Support Support.ReleaseAcquire SkipList

/- A store to a generation, with how many stores the list had seen before it. -/
structure Stored where
  k : UInt64
  g : UInt64
  made : Nat
  deriving DecidableEq, Repr

/- State::Get by the thread that stores. -/
def get (current_ : List Stored) (k : UInt64) : UInt64 :=
  ((current_.filter fun s => s.k = k).getLast?.map Stored.g).getD 0

/- Where a thread is in WriteStep, and in ReadStep with its initial_state. -/
inductive Writing where
  | idle
  | inserting (k g : UInt64)
  deriving DecidableEq, Repr

inductive Reading where
  | idle
  | remembering (initial : List UInt64)
  | seeking (initial : List UInt64) (pos : Key)
  | nexting (initial : List UInt64) (pos : Key)
  | arrived (initial : List UInt64) (pos : Key)
  | choosing (initial : List UInt64) (pos : Key)
  deriving DecidableEq, Repr

structure Test (ι : Type) where
  threads : WeakThreads Key ι
  current_ : List Stored
  writing : Writing
  readings : ι → Reading

/- The inner loop: is everything in [pos,current) either of generation 0 or newer
than what was loaded? -/
def verifyRound (initial : List UInt64) (current pos : Key) : Except Fault (Loop.Step Key Key) :=
  if pos < current then
    if key pos < K then
      match initial[(key pos).toNat]? with
      | none => .error .outOfRange
      | some g =>
        if gen pos = 0 ∨ gen pos > g then do
          let pos ← if key pos < key current then makeKey (key pos+1) 0 else makeKey (key pos) (gen pos+1)
          .ok (.again pos)
        else .error (.missed pos)
    else .error (.keyRange pos)
  else .ok (.done pos)

def verifyRounds (current : Key) : Nat := K.toNat+(gen current).toNat+1

def currentOf (list_ : SkipList Key) (iter : Iterator) : Except Fault Key :=
  if iter.valid then do
    let current ← (iter.key list_).mapError .list
    if isValidKey current then .ok current else .error (.invalidKey current)
  else makeKey K 0

/- One round of ReadStep up to where it leaves the loop or draws. -/
def check (list_ : SkipList Key) (iter : Iterator) (initial : List UInt64) (pos : Key) : Except Fault Reading := do
  let current ← currentOf list_ iter
  if pos ≤ current then
    let pos ← Loop.run (verifyRound initial current) .rounds (verifyRounds current) pos
    .ok (if iter.valid then .choosing initial pos else .idle)
  else .error .backwards

/- What a call of the iterator leaves when it returns. -/
def Reading.returned (r : Reading) (back : Option (Return Key)) : Except Fault Reading :=
  match r,back with
  | .seeking initial pos,some _ => .ok (.arrived initial pos)
  | .nexting initial pos,some _ => do
    let pos ← makeKey (key pos) (gen pos+1)
    .ok (.arrived initial pos)
  | r,_ => .ok r

namespace Test

variable {ι : Type} [DecidableEq ι]

def new (zero : Key) : Except KVStorage.Fault (Test ι) := do
  let threads ← WeakThreads.new zero
  .ok ⟨threads,[],.idle,fun _ => .idle⟩

def set (s : Test ι) (i : ι) (threads : WeakThreads Key ι) (r : Reading) : Test ι :=
  {s with threads, readings := Function.update s.readings i r}

/- The numbers are those that rnd draws. -/
inductive Event (ι : Type) where
  | writeStep (drawn : UInt32) (height : Nat)
  | write
  | store
  | readStep (i : ι)
  | remember (i : ι) (stored : Option Stored)
  | aim (i : ι) (first second : UInt32)
  | load (i : ι) (t : Nat) (back : Option (Return Key))
  | check (i : ι)
  | next (i : ι)
  | target (i : ι) (first second : UInt32)
  deriving DecidableEq, Repr

/- Any store to the generation may be the one that is loaded. None stands for the
one that State::State makes. -/
def Loads (current_ : List Stored) (k : UInt64) : Option Stored → Prop
  | none => True
  | some stored => stored ∈ current_ ∧ stored.k = k

inductive Step : Test ι → Event ι → Test ι → Prop where
  | writeStep {s drawn height k g x threads} (idle : s.writing = .idle) (picked : k = drawn.toUInt64 % K)
      (next : g = get s.current_ k+1) (room : g < 0x80000000) (made : makeKey k g = .ok x)
      (called : WeakThreads.Step compare s.threads (.insert ⟨x,height⟩) threads) :
      Step s (.writeStep drawn height) {s with threads, writing := .inserting k g}
  | write {s threads} (made : WeakThreads.Step compare s.threads .write threads) :
      Step s .write {s with threads}
  | store {s k g} (inserting : s.writing = .inserting k g) (returned : s.threads.writer = .idle) :
      Step s .store {s with current_ := s.current_ ++ [⟨k,g,s.threads.history.now⟩], writing := .idle}
  | readStep {s i} (idle : s.readings i = .idle) : Step s (.readStep i) (s.set i s.threads (.remembering []))
  | remember {s i initial k stored threads} (here : s.readings i = .remembering initial) (more : k < K)
      (place : k.toNat = initial.length) (loads : Loads s.current_ k stored)
      (learns : WeakThreads.Step compare s.threads (.synchronise i ((stored.map Stored.made).getD 0)) threads) :
      Step s (.remember i stored) (s.set i threads (.remembering (initial ++ [(stored.map Stored.g).getD 0])))
  | aim {s i first second initial pos threads} (here : s.readings i = .remembering initial)
      (whole : initial.length = K.toNat) (target : randomTarget first second = .ok pos)
      (called : WeakThreads.Step compare s.threads (.call i (.find .seek pos)) threads) :
      Step s (.aim i first second) (s.set i threads (.seeking initial pos))
  | load {s i t back r threads} (made : WeakThreads.Step compare s.threads (.read i t back) threads)
      (returned : (s.readings i).returned back = .ok r) : Step s (.load i t back) (s.set i threads r)
  | check {s i initial pos r} (here : s.readings i = .arrived initial pos)
      (passed : ConcurrentTest.check (s.threads.known i) (s.threads.readers i).it initial pos = .ok r) :
      Step s (.check i) (s.set i s.threads r)
  | next {s i initial pos threads} (here : s.readings i = .choosing initial pos)
      (called : WeakThreads.Step compare s.threads (.call i .next) threads) :
      Step s (.next i) (s.set i threads (.nexting initial pos))
  | forward {s i first second initial pos new_target threads} (here : s.readings i = .choosing initial pos)
      (target : randomTarget first second = .ok new_target) (ahead : new_target > pos)
      (called : WeakThreads.Step compare s.threads (.call i (.find .seek new_target)) threads) :
      Step s (.target i first second) (s.set i threads (.seeking initial new_target))
  | stay {s i first second initial pos new_target} (here : s.readings i = .choosing initial pos)
      (target : randomTarget first second = .ok new_target) (behind : ¬ new_target > pos) :
      Step s (.target i first second) (s.set i s.threads (.arrived initial pos))

end Test

/- The verifying loop. -/

/- What must not be missed: the generations of each key up to the one loaded. -/
def Expected (initial : List UInt64) : Set Key :=
  {x | ∃ k last g, k < K ∧ initial[k.toNat]? = some last ∧ 1 ≤ g ∧ g ≤ last ∧ x = pack k g}

/- Where ReadStep stands or may go: only the end has the key K. -/
structure Target (x : Key) : Prop where
  point : Point x
  last : key x < K ∨ gen x = 0

def Unmissed (initial : List UInt64) (pos current : Key) : Prop := ∀ x ∈ Expected initial, pos ≤ x → current ≤ x

def distance (current pos : Key) : Nat :=
  (key current).toNat-(key pos).toNat+((gen current).toNat-if key pos < key current then 0 else (gen pos).toNat)

structure Verifying (initial : List UInt64) (current : Key) (n : Nat) (pos : Key) : Prop where
  point : Point pos
  within : pos ≤ current
  unmissed : Unmissed initial pos current
  left : n = distance current pos

theorem unmissedLater {initial : List UInt64} {pos later current : Key} (le : pos ≤ later)
    (unmissed : Unmissed initial pos current) : Unmissed initial later current :=
  fun x mem from_ => unmissed x mem (UInt64.le_trans le from_)

theorem succValue (x : UInt64) (small : x.toNat < 2^63) : (x+1).toNat = x.toNat+1 := by
  rw [UInt64.toNat_add]
  exact Nat.mod_eq_of_lt (Nat.lt_of_le_of_lt small (by decide))

theorem jumpCloser {pos current q : Key} (here : Point pos) (there : Point current) (jump : key pos < key current)
    (one : (key pos+1).toNat = (key pos).toNat+1) (first : First (key pos+1) q) :
    q ≤ current ∧ pos < q ∧ distance current q < distance current pos := by
  have less := UInt64.lt_iff_toNat_lt.mp jump
  have none : (gen q).toNat = 0 := congrArg UInt64.toNat first.gen
  have higher : (key q).toNat = (key pos).toNat+1 := (congrArg UInt64.toNat first.key).trans one
  have within : ¬ current < q := by
    intro before
    have order := (pointLess there first.point).mp before
    simp only [UInt64.lt_iff_toNat_lt,← UInt64.toNat_inj] at order
    omega
  have after : pos < q := by
    refine (pointLess here first.point).mpr (.inl ?_)
    rw [UInt64.lt_iff_toNat_lt]
    omega
  have closer : distance current q < distance current pos := by
    rw [distance,distance,higher,none,if_pos jump,ite_self]
    omega
  exact ⟨UInt64.not_lt.mp within,after,closer⟩

theorem verifyRoundOk {initial : List UInt64} {current : Key} (whole : initial.length = K.toNat) (here : Target current)
    (n : Nat) (pos : Key) (inv : Verifying initial current n pos) :
    (∃ q k, verifyRound initial current pos = .ok (.again q) ∧ k < n ∧ Verifying initial current k q) ∨
    (∃ q, verifyRound initial current pos = .ok (.done q) ∧ q = current) := by
  unfold verifyRound
  by_cases less : pos < current
  · have keys := (pointLess inv.point here.point).mp less
    have low : key pos < K := by
      have bound := here.point.low
      have last := here.last
      simp only [UInt64.lt_iff_toNat_lt,UInt64.le_iff_toNat_le,← UInt64.toNat_inj,UInt64.toNat_zero] at *
      omega
    have inside : (key pos).toNat < initial.length := by
      rw [whole]
      exact UInt64.lt_iff_toNat_lt.mp low
    have found : initial[(key pos).toNat]? = some initial[(key pos).toNat] := List.getElem?_eq_getElem inside
    have newer : gen pos = 0 ∨ gen pos > initial[(key pos).toNat] := by
      by_contra old
      obtain ⟨some_,known⟩ := not_or.mp old
      have one : 1 ≤ gen pos := by
        simp only [UInt64.le_iff_toNat_le,← UInt64.toNat_inj,UInt64.toNat_zero,UInt64.toNat_one] at *
        omega
      have expected : pos ∈ Expected initial :=
        ⟨key pos,_,gen pos,low,found,one,UInt64.not_lt.mp known,inv.point.made.symm⟩
      exact UInt64.not_lt.mpr (inv.unmissed pos expected (UInt64.le_refl pos)) less
    simp only [if_pos less,if_pos low,found,if_pos newer]
    left
    by_cases jump : key pos < key current
    · have one := succValue (key pos) (Nat.lt_of_le_of_lt (UInt64.le_iff_toNat_le.mp inv.point.low) (by decide))
      have first : First (key pos+1) (pack (key pos+1) 0) := by
        refine firstPoint (UInt64.le_iff_toNat_le.mpr ?_)
        rw [one]
        exact UInt64.lt_iff_toNat_lt.mp low
      obtain ⟨within,after,closer⟩ := jumpCloser inv.point here.point jump one first
      simp only [if_pos jump,first.made,bind,Except.bind]
      exact ⟨_,_,rfl,inv.left ▸ closer,first.point,within,unmissedLater (UInt64.le_of_lt after) inv.unmissed,rfl⟩
    · have same := keys.resolve_left jump
      have room : gen pos < 0xffffffff := UInt64.lt_of_lt_of_le same.2 (genFits current)
      have following := followingPoint inv.point room
      have closer : distance current (pack (key pos) (gen pos+1)) < distance current pos := by
        have fewer := UInt64.lt_iff_toNat_lt.mp same.2
        simp only [distance,following.key,following.gen,if_neg jump]
        omega
      simp only [if_neg jump,following.made,bind,Except.bind]
      exact ⟨_,_,rfl,inv.left ▸ closer,following.point,following.least current here.point less,
        unmissedLater (UInt64.le_of_lt following.after) inv.unmissed,rfl⟩
  · have same : pos = current := UInt64.le_antisymm inv.within (UInt64.not_lt.mp less)
    rw [if_neg less]
    exact .inr ⟨pos,rfl,same⟩

theorem verifyOk {initial : List UInt64} {current pos : Key} (whole : initial.length = K.toNat) (here : Target current)
    (point : Point pos) (within : pos ≤ current) (unmissed : Unmissed initial pos current) :
    Loop.run (verifyRound initial current) .rounds (verifyRounds current) pos = .ok current := by
  have start : Verifying initial current (distance current pos) pos := ⟨point,within,unmissed,rfl⟩
  have enough : distance current pos < verifyRounds current := by
    have low := UInt64.le_iff_toNat_le.mp here.point.low
    have gens := Nat.sub_le (gen current).toNat (if key pos < key current then 0 else (gen pos).toNat)
    rw [distance,verifyRounds]
    omega
  have finished : ∃ q, Loop.run (verifyRound initial current) .rounds (verifyRounds current) pos = .ok q ∧
      q = current := Loop.total (verifyRoundOk whole here) start enough
  obtain ⟨q,run,same⟩ := finished
  rw [run,same]

end KVStorage.ConcurrentTest
