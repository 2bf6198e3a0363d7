import KVStorage.Comparator
import KVStorage.SkipListIterator
import KVStorage.Support.Lexicographic
import Mathlib.Data.List.Induction

/-! A client's loops over an iterator: from a place, in one direction, as long as
the iterator is valid and its key passes a test. -/
namespace KVStorage.SkipList

open Support

variable {Key : Type}

/- for (..; it.valid() && keep(it.key()); it.next() or it.prev()). -/
def scan (m : SkipList Key) (move : Iterator → Except Fault Iterator) (keep : Key → Bool) :
    Nat → Iterator → Except Fault (List Key)
  | 0, _ => .error .rounds
  | left+1, it =>
    if it.valid then do
      let key ← it.key m
      if keep key then do
        let it ← move it
        let keys ← scan m move keep left it
        .ok (key::keys)
      else .ok []
    else .ok []

def scanFirst (m : SkipList Key) (keep : Key → Bool) : Except Fault (List Key) := do
  let it ← Iterator.seekToFirst m
  m.scan (fun it => it.next m) keep m.rounds it

section Scans

variable (compare_ : Key → Key → Int)

def scanFrom (m : SkipList Key) (target : Key) (keep : Key → Bool) : Except Fault (List Key) := do
  let it ← Iterator.seek compare_ m target
  m.scan (fun it => it.next m) keep m.rounds it

def scanLast (m : SkipList Key) (keep : Key → Bool) : Except Fault (List Key) := do
  let it ← Iterator.seekToLast m
  m.scan (fun it => it.prev compare_ m) keep m.rounds it

end Scans

variable {compare_ : Key → Key → Int} {m : SkipList Key} {order : List (Entry Key)}

theorem scanStops {it : Iterator} (invalid : it.valid = false) (move : Iterator → Except Fault Iterator)
    (keep : Key → Bool) (left : Nat) : m.scan move keep (left+1) it = .ok [] := by
  rw [scan,invalid]
  rfl

theorem scanRound {e : Entry Key} {it : Iterator} {move : Iterator → Except Fault Iterator}
    (key : Iterator.key ⟨some e.ptr⟩ m = .ok e.key) (moves : move ⟨some e.ptr⟩ = .ok it) (keep : Key → Bool)
    {left : Nat}
    {keys : List Key} (rest : m.scan move keep left it = .ok (keys.takeWhile keep)) :
    m.scan move keep (left+1) ⟨some e.ptr⟩ = .ok ((e.key::keys).takeWhile keep) := by
  rw [scan]
  simp only [Iterator.valid,Option.isSome_some,if_true,key,bind,Except.bind]
  cases passes : keep e.key with
  | true => simp only [if_true,moves,rest,List.takeWhile_cons_of_pos passes]
  | false => simp [passes]

theorem entryKey (rep : Represents compare_ m order) {e : Entry Key} (mem : e ∈ order) :
    Iterator.key ⟨some e.ptr⟩ m = .ok e.key := by
  obtain ⟨node,found,same,_⟩ := nodeOfShape (rep.full e mem).1
  simp only [Iterator.key,found,bind,Except.bind,same]

theorem scanForward {front rest : List (Entry Key)} (rep : Represents compare_ m (front ++ rest)) (keep : Key → Bool)
    {left : Nat} (enough : rest.length < left) :
    m.scan (fun it => it.next m) keep left ⟨(rest.map Entry.ptr).head?⟩ =
      .ok ((rest.map Entry.key).takeWhile keep) := by
  obtain ⟨left,rfl⟩ : ∃ n, left = n+1 := ⟨left-1,by omega⟩
  induction rest generalizing front left with
  | nil => exact scanStops rfl _ keep left
  | cons e rest ih =>
    have moves : Iterator.next ⟨some e.ptr⟩ m = .ok ⟨(rest.map Entry.ptr).head?⟩ := by
      simp only [Iterator.next,nextOfEntry rep,bind,Except.bind]
    have rep' : Represents compare_ m ((front ++ [e]) ++ rest) := by simpa using rep
    have later : rest.length < left := by simpa using enough
    obtain ⟨left,rfl⟩ : ∃ n, left = n+1 := ⟨left-1,by omega⟩
    exact scanRound (entryKey rep (by simp)) moves keep (ih rep' left later)

theorem scanBackward (lawful : ThreeWay.Lawful compare_) {front rest : List (Entry Key)}
    (rep : Represents compare_ m (front ++ rest)) (keep : Key → Bool) {left : Nat} (enough : front.length < left) :
    m.scan (fun it => it.prev compare_ m) keep left (Iterator.hideHead ((front.map Entry.ptr).getLastD head_)) =
      .ok ((front.map Entry.key).reverse.takeWhile keep) := by
  obtain ⟨left,rfl⟩ : ∃ n, left = n+1 := ⟨left-1,by omega⟩
  induction front using List.reverseRecOn generalizing rest left with
  | nil => exact scanStops rfl _ keep left
  | append_singleton front e ih =>
    have rep' : Represents compare_ m (front ++ e::rest) := by simpa using rep
    have mem : e ∈ front ++ e::rest := by simp
    have before : below compare_ e.key (front ++ e::rest) = front :=
      Sorted.lesserFront rep'.linked.sorted lawful.irrefl (fun _ => lawful.asymm)
    obtain ⟨node,found,same,_⟩ := nodeOfShape (rep'.full e mem).1
    have moves : Iterator.prev compare_ ⟨some e.ptr⟩ m =
        .ok (Iterator.hideHead ((front.map Entry.ptr).getLastD head_)) := by
      simp only [Iterator.prev,found,bind,Except.bind,same,findLessThanOk lawful rep',before]
    have shown : Iterator.hideHead (((front ++ [e]).map Entry.ptr).getLastD head_) = ⟨some e.ptr⟩ := by
      simp [Iterator.hideHead,rep'.linked.apart e mem]
    have earlier : front.length < left := by simpa using enough
    obtain ⟨left,rfl⟩ : ∃ n, left = n+1 := ⟨left-1,by omega⟩
    rw [shown,List.map_append,List.reverse_append]
    exact scanRound (entryKey rep' mem) moves keep (ih rep' left earlier)

/- What the loops give of a list that insert built. -/
structure Scans (compare_ : Key → Key → Int) (ops : List (Key × Nat)) (m : SkipList Key) (keys : List Key) : Prop where
  exact : keys.Perm (ops.map Prod.fst)
  sorted : keys.Pairwise (fun a b => compare_ a b < 0)
  first : ∀ keep, m.scanFirst keep = .ok (keys.takeWhile keep)
  last : ∀ keep, m.scanLast compare_ keep = .ok (keys.reverse.takeWhile keep)
  since : ∀ target keep, m.scanFrom compare_ target keep =
    .ok ((keys.filter fun k => decide (compare_ target k ≤ 0)).takeWhile keep)
  range : ∀ low high, m.scanFrom compare_ low (fun k => decide (compare_ k high < 0)) =
    .ok (keys.filter fun k => decide (compare_ low k ≤ 0) && decide (compare_ k high < 0))

section Lawful

variable (lawful : ThreeWay.Lawful compare_)

include lawful in
theorem roundsBeyond (rep : Represents compare_ m order) {part : List (Entry Key)}
    (short : part.length ≤ order.length) :
    part.length < m.rounds := by
  have nodes := orderShort lawful rep.linked
  simp only [rounds]
  omega

include lawful in
theorem aboveKeys (target : Key) : (above compare_ target order).map Entry.key =
    (order.map Entry.key).filter fun k => decide (compare_ target k ≤ 0) := by
  have same : ∀ k, (!isBefore compare_ target k) = decide (compare_ target k ≤ 0) := by
    intro k
    have flip := lawful.nonposIff (a := target) (b := k)
    by_cases at_ : compare_ target k ≤ 0
    · simp [isBefore,at_,flip.mp at_]
    · simp [isBefore,at_,Int.not_le.mp (fun le => at_ (flip.mpr le))]
  rw [above,List.filter_map]
  simp only [same]
  rfl

include lawful in
theorem scanFromOk (rep : Represents compare_ m order) (target : Key) (keep : Key → Bool) :
    m.scanFrom compare_ target keep =
      .ok (((order.map Entry.key).filter fun k => decide (compare_ target k ≤ 0)).takeWhile keep) := by
  obtain ⟨prev,run,_⟩ := findGreateOrEqualOk lawful rep target none (by simp)
  have part : above compare_ target order ⊆ order := List.filter_subset_self ..
  rw [chainZero rep part] at run
  have split := orderSplits lawful rep.linked target
  have rep' := rep
  rw [split] at rep'
  have short : (above compare_ target order).length ≤ order.length := List.length_filter_le ..
  have whole := scanForward rep' keep (roundsBeyond lawful rep short)
  simp only [scanFrom,Iterator.seek,run,bind,Except.bind,whole,aboveKeys lawful target]

include lawful in
theorem scanRange (rep : Represents compare_ m order) (low high : Key) :
    m.scanFrom compare_ low (fun k => decide (compare_ k high < 0)) =
      .ok ((order.map Entry.key).filter fun k => decide (compare_ low k ≤ 0) && decide (compare_ k high < 0)) := by
  have sorted : (order.map Entry.key).Pairwise (fun a b => compare_ a b < 0) := List.pairwise_map.mpr rep.linked.sorted
  have closed : ∀ a b : Key, compare_ a b < 0 →
      decide (compare_ b high < 0) = true → decide (compare_ a high < 0) = true :=
    isBeforeClosed lawful high
  rw [scanFromOk lawful rep,Sorted.stopsExactly (sorted.filter _) (fun a _ b _ => closed a b),List.filter_filter]
  simp only [Bool.and_comm]

include lawful in
theorem representsScans {ops : List (Key × Nat)} (rep : Represents compare_ m order)
    (exact : (order.map (fun e => (e.key,e.linked))).Perm ops) : Scans compare_ ops m (order.map Entry.key) := by
  have keys : (order.map Entry.key).Perm (ops.map Prod.fst) := by
    have mapped := exact.map Prod.fst
    rw [List.map_map] at mapped
    exact mapped
  have sorted : (order.map Entry.key).Pairwise (fun a b => compare_ a b < 0) := List.pairwise_map.mpr rep.linked.sorted
  have first : ∀ keep, m.scanFirst keep = .ok ((order.map Entry.key).takeWhile keep) := by
    intro keep
    have rep' : Represents compare_ m ([] ++ order) := rep
    have whole := scanForward rep' keep (roundsBeyond lawful rep (Nat.le_refl _))
    simp only [scanFirst,Iterator.seekToFirst,nextOfHead rep,bind,Except.bind,whole]
  have last : ∀ keep, m.scanLast compare_ keep = .ok ((order.map Entry.key).reverse.takeWhile keep) := by
    intro keep
    have rep' : Represents compare_ m (order ++ []) := by rwa [List.append_nil]
    have whole := scanBackward lawful rep' keep (roundsBeyond lawful rep (Nat.le_refl _))
    simp only [scanLast,Iterator.seekToLast,findLastOk lawful rep,bind,Except.bind,whole]
  exact ⟨keys,sorted,first,last,scanFromOk lawful rep,scanRange lawful rep⟩

end Lawful

/-- After any inserts of fresh keys the loops over an iterator end, and give the
keys in order, in reverse, from a target on or inside a range, each key once. -/
theorem listScans (lawful : ThreeWay.Lawful compare_) (zero : Key) (ops : List (Key × Nat))
    (heights : ∀ op ∈ ops, 1 ≤ op.2 ∧ op.2 ≤ s_max_height_)
    (fresh : ops.Pairwise (fun a b => compare_ a.1 b.1 ≠ 0)) :
    ∃ m keys, insertAll compare_ zero ops = .ok m ∧ Scans compare_ ops m keys := by
  obtain ⟨m,order,run,rep,exact⟩ := insertAllRepresents lawful zero ops heights fresh
  exact ⟨m,_,run,representsScans lawful rep exact⟩

theorem listScansThree : ∃ m keys,
    insertAll (fun a b : Int => a - b) 0 [(5,1),(3,4),(9,12)] = .ok m ∧
    Scans (fun a b : Int => a - b) [(5,1),(3,4),(9,12)] m keys :=
  listScans ThreeWay.differenceLawful 0 [(5,1),(3,4),(9,12)] (by decide) (by decide)

/- Between a prefix and a slice that begins with it lie only such slices. -/
theorem prefixClosed {p a b : Bytes} (low : Slice.compare p a ≤ 0) (less : Slice.compare a b < 0)
    (starts : Slice.startsWith b p = true) : Slice.startsWith a p = true := by
  obtain ⟨rest,split⟩ := (Slice.startsWithIff b p).mp starts
  have above : ¬ a < p := by
    intro below
    have order := (Slice.compareNeg a p).mpr below
    have other := Slice.compareLawful.nonposIff.mp low
    omega
  have high : a < p ++ rest := by
    rw [split]
    exact (Slice.compareNeg a b).mp less
  obtain ⟨t,here,_,_⟩ := Lexicographic.betweenKeeps (c := p) (a := []) (by simpa using above) high
  exact (Slice.startsWithIff a p).mpr ⟨t,here.symm⟩

theorem prefixLeast {p k : Bytes} (starts : Slice.startsWith k p = true) : Slice.compare p k ≤ 0 := by
  obtain ⟨rest,split⟩ := (Slice.startsWithIff k p).mp starts
  refine Slice.compareLawful.nonposIff.mpr (Int.not_lt.mp ?_)
  intro below
  have less : p ++ rest < p ++ [] := by
    rw [split,List.append_nil]
    exact (Slice.compareNeg k p).mp below
  exact List.not_lt_nil rest ((Lexicographic.appendLess p rest []).mp less)

/-- In a list of slices under the bytewise order the loop from seek(p) that goes on
while the key starts with p gives all the keys that do and no others, in order. -/
theorem prefixScan (zero : Bytes) (ops : List (Bytes × Nat)) (heights : ∀ op ∈ ops, 1 ≤ op.2 ∧ op.2 ≤ s_max_height_)
    (fresh : ops.Pairwise (fun a b => a.1 ≠ b.1)) :
    ∃ m, ∃ keys : List Bytes, insertAll BytewiseComparator.compare zero ops = .ok m ∧ keys.Perm (ops.map Prod.fst) ∧
      keys.Pairwise (fun a b => a < b) ∧
      ∀ p, m.scanFrom BytewiseComparator.compare p (fun k => Slice.startsWith k p) =
        .ok (keys.filter fun k => Slice.startsWith k p) := by
  have apart : ops.Pairwise (fun a b => BytewiseComparator.compare a.1 b.1 ≠ 0) :=
    fresh.imp fun differ zero => differ ((Slice.compareZero _ _).mp zero)
  obtain ⟨m,order,run,rep,exact⟩ := insertAllRepresents Slice.compareLawful zero ops heights apart
  have scans := representsScans Slice.compareLawful rep exact
  refine ⟨m,_,run,scans.exact,scans.sorted.imp fun less => (Slice.compareNeg _ _).mp less,?_⟩
  intro p
  have closed : ∀ a ∈ (order.map Entry.key).filter (fun k => decide (Slice.compare p k ≤ 0)),
      ∀ b ∈ (order.map Entry.key).filter (fun k => decide (Slice.compare p k ≤ 0)), Slice.compare a b < 0 →
        Slice.startsWith b p = true → Slice.startsWith a p = true := by
    intro a mem b _ less starts
    exact prefixClosed (of_decide_eq_true (List.mem_filter.mp mem).2) less starts
  have both : ∀ k, (Slice.startsWith k p && decide (Slice.compare p k ≤ 0)) = Slice.startsWith k p := by
    intro k
    cases starts : Slice.startsWith k p with
    | false => rfl
    | true => simp [prefixLeast starts]
  have found := scans.since p (fun k => Slice.startsWith k p)
  rw [Sorted.stopsExactly (scans.sorted.filter _) closed,List.filter_filter] at found
  simp only [both] at found
  exact found

theorem prefixScanThree : ∃ m, ∃ keys : List Bytes,
    insertAll BytewiseComparator.compare [] [([97,98],1),([97],3),([98],2)] = .ok m ∧
    keys.Perm [[97,98],[97],[98]] ∧ keys.Pairwise (fun a b => a < b) ∧
      ∀ p, m.scanFrom BytewiseComparator.compare p (fun k => Slice.startsWith k p) =
        .ok (keys.filter fun k => Slice.startsWith k p) :=
  prefixScan [] [([97,98],1),([97],3),([98],2)] (by decide) (by decide)

end KVStorage.SkipList
