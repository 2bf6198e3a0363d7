import KVStorage.BytewiseShortening
import KVStorage.Support.Lexicographic

/-! How short the shortened keys are: a successor is as short as an upper bound can
be, a separator only where the strings do not part at adjacent bytes. -/
namespace KVStorage.BytewiseComparator

open Support

theorem compareAtMost (a b : Bytes) : Slice.compare a b ≤ 0 ↔ a ≤ b := by
  rw [Slice.compareLawful.nonposIff,← List.not_lt,← Slice.compareNeg]
  omega

/- How a separator comes about: the string as it was, or the bytes before the first
difference and one more, raised without a wrap. -/
inductive Separates (start limit : Bytes) : Bytes → Prop where
  | kept : Separates start limit start
  | raised {c s l : Bytes} {x y : UInt8} (left : start = c ++ x::s) (right : limit = c ++ y::l)
      (up : (x+1).toNat = x.toNat + 1) (below : (x+1).toNat < y.toNat) : Separates start limit (c ++ [x+1])

theorem separatorSeparates (start limit : Bytes) :
    ∃ r, findShortestSeparator start limit = some r ∧ Separates start limit r := by
  rcases separatorCases start limit with kept | ⟨c,x,y,s,l,left,right,room,found⟩
  · exact ⟨start,kept,.kept⟩
  · have bound := y.toNat_lt
    have up := raised (x := x) (by omega)
    exact ⟨_,found,.raised left right up (by omega)⟩

section Separates

variable {start limit r : Bytes} (separates : Separates start limit r)
include separates

theorem separatesBetween : r = start ∨ Slice.compare start r < 0 ∧ Slice.compare r limit < 0 := by
  cases separates with
  | kept => exact .inl rfl
  | @raised c s l x y left right up below =>
    subst left right
    have above : x < x+1 := UInt8.lt_iff_toNat_lt.mpr (by omega)
    have under : x+1 < y := UInt8.lt_iff_toNat_lt.mpr below
    rw [Slice.compareNeg,Slice.compareNeg]
    exact .inr ⟨List.append_left_lt (headLess above s []),List.append_left_lt (headLess under [] l)⟩

theorem separatesShort : r.length ≤ start.length := by
  cases separates with
  | kept => exact Nat.le_refl _
  | raised left right up below =>
    rw [left,List.length_append,List.length_append,List.length_singleton,List.length_cons]
    omega

theorem separatesShares (c : Bytes) (first : c <+: start) (second : c <+: limit) : c <+: r := by
  cases separates with
  | kept => exact first
  | @raised d s l x y left right up below =>
    have apart : x ≠ y := by
      intro eq
      rw [eq] at up below
      omega
    rw [left] at first
    rw [right] at second
    exact (Lexicographic.sharedBefore apart first second).trans (List.prefix_append d [x+1])

theorem separatesWithin (less : Slice.compare start limit < 0) :
    Slice.compare start r ≤ 0 ∧ Slice.compare r limit < 0 := by
  rcases separatesBetween separates with kept | ⟨above,below⟩
  · rw [kept]
    exact ⟨Int.le_of_eq (Slice.compareLawful.self start),less⟩
  · exact ⟨Int.le_of_lt above,below⟩

end Separates

theorem separatorSound (start limit : Bytes) : ∃ r, findShortestSeparator start limit = some r ∧
    (r = start ∨ Slice.compare start r < 0 ∧ Slice.compare r limit < 0) ∧
    Separates start limit r ∧ r.length ≤ start.length ∧
    (∀ c, c <+: start → c <+: limit → c <+: r) ∧
    (Slice.compare start limit < 0 → Slice.compare start r ≤ 0 ∧ Slice.compare r limit < 0) ∧
    (start <+: limit ∨ limit <+: start → r = start) := by
  obtain ⟨r,found,separates⟩ := separatorSeparates start limit
  have unchanged : start <+: limit ∨ limit <+: start → r = start := by
    intro before
    exact Option.some.inj (found.symm.trans (separatorPrefix before))
  exact ⟨r,found,separatesBetween separates,separates,separatesShort separates,separatesShares separates,
    separatesWithin separates,unchanged⟩

section Successor

theorem successorUnchanged (key : Bytes) : findShortSuccessor key = key ↔ ∀ b ∈ key, b = 0xff := by
  induction key with
  | nil => exact ⟨fun _ => nofun,fun _ => rfl⟩
  | cons x key ih =>
    unfold findShortSuccessor
    rw [List.forall_mem_cons,← ih]
    by_cases full : x = 0xff
    · rw [if_neg (not_not.mpr full),List.cons_inj_right]
      exact ⟨fun same => ⟨full,same⟩,And.right⟩
    · rw [if_pos full]
      have moved : x+1 ≠ x := by
        intro same
        have wraps := congrArg UInt8.toNat same
        have one : (1 : UInt8).toNat = 1 := rfl
        have bound := x.toNat_lt
        rw [UInt8.toNat_add,one] at wraps
        omega
      exact ⟨fun same => absurd (List.cons.inj same).1 moved,fun both => absurd both.1 full⟩

/- Every upper bound has a byte for each of the leading 0xff and one for the byte
that is raised. -/
theorem successorShortest {key t : Bytes} (above : key ≤ t) : (findShortSuccessor key).length ≤ t.length := by
  induction key generalizing t with
  | nil => exact Nat.zero_le _
  | cons x key ih =>
    cases t with
    | nil => exact absurd (List.nil_lt_cons x key) above
    | cons y t =>
      unfold findShortSuccessor
      by_cases full : x = 0xff
      · rw [if_neg (not_not.mpr full),List.length_cons,List.length_cons]
        have top : ¬ x < y := by
          intro less
          have bound := y.toNat_lt
          have value : (0xff : UInt8).toNat = 255 := rfl
          have less' := UInt8.lt_iff_toNat_lt.mp less
          rw [full,value] at less'
          omega
        have rest := (List.cons_le_cons_iff.mp above).resolve_left top
        exact Nat.succ_le_succ (ih rest.2)
      · rw [if_pos full,List.length_cons,List.length_cons,List.length_nil]
        omega

theorem shortSuccessor (key : Bytes) : Slice.compare (findShortSuccessor key) key ≥ 0 ∧
    (∀ t, Slice.compare t key ≥ 0 → (findShortSuccessor key).length ≤ t.length) ∧
    (findShortSuccessor key = key ↔ ∀ b ∈ key, b = 0xff) := by
  have atLeast : ∀ t, Slice.compare t key ≥ 0 ↔ key ≤ t := by
    intro t
    exact (Slice.compareLawful.nonposIff (a := key) (b := t)).symm.trans (compareAtMost key t)
  have bound : key ≤ findShortSuccessor key := by
    rcases successorAtLeast key with same | less
    · rw [same]
      exact List.le_refl key
    · exact List.le_of_lt less
  exact ⟨(atLeast _).mpr bound,fun t above => successorShortest ((atLeast t).mp above),successorUnchanged key⟩

/- A successor saves nothing where the first byte that could be raised is the last. -/
theorem successorSaves (key : Bytes) :
    key.length ≤ (findShortSuccessor key).length ↔ ∀ b ∈ key.dropLast, b = 0xff := by
  induction key with
  | nil => exact ⟨fun _ => nofun,fun _ => Nat.le_refl _⟩
  | cons x key ih =>
    unfold findShortSuccessor
    cases key with
    | nil => by_cases full : x = 0xff <;> simp [full,findShortSuccessor]
    | cons z key =>
      rw [List.dropLast_cons_cons,List.forall_mem_cons]
      by_cases full : x = 0xff
      · rw [if_neg (not_not.mpr full),← ih]
        exact ⟨fun le => ⟨full,Nat.le_of_succ_le_succ le⟩,fun both => Nat.succ_le_succ both.2⟩
      · rw [if_pos full]
        have long : ¬ (x::z::key).length ≤ [x+1].length := by
          simp only [List.length_cons,List.length_nil]
          omega
        exact ⟨fun le => absurd le long,fun both => absurd both.1 full⟩

end Successor

section Shortest

/- No string between the two is shorter than the separator: the first begins the
second; or the byte at which they part may be raised; or nothing follows it in the
first; or nothing follows it in the second, and in the first only 0xff before one
last byte. -/
def Tight (start limit : Bytes) : Prop :=
  start <+: limit ∨ ∃ c x s y l, start = c ++ x::s ∧ limit = c ++ y::l ∧ x ≠ y ∧
    (x.toNat + 1 < y.toNat ∨ s = [] ∨ l = [] ∧ ∀ b ∈ s.dropLast, b = 0xff)

def NoShorter (start limit r : Bytes) : Prop :=
  ∀ t, Slice.compare start t ≤ 0 → Slice.compare t limit < 0 → r.length ≤ t.length

variable {c s l t : Bytes} {x y : UInt8}

theorem partLess (less : c ++ x::s < c ++ y::l) (apart : x ≠ y) : x < y :=
  (List.cons_lt_cons_iff.mp ((Lexicographic.appendLess c _ _).mp less)).resolve_right fun both => apart both.1

/- All that lies between goes on after the common part. -/
theorem betweenLonger (low : c ++ x::s ≤ t) (high : t < c ++ y::l) : c.length + 1 ≤ t.length := by
  obtain ⟨t',split,low',_⟩ := Lexicographic.betweenKeeps low high
  subst split
  cases t' with
  | nil => exact absurd (List.nil_lt_cons x s) low'
  | cons z t' =>
    rw [List.length_append,List.length_cons]
    omega

/- Below a bound that ends at the next byte only a successor of the rest remains. -/
theorem betweenAdjacent (low : c ++ x::s ≤ t) (high : t < c ++ [y]) (next : y.toNat ≤ x.toNat + 1) :
    c.length + 1 + (findShortSuccessor s).length ≤ t.length := by
  obtain ⟨t',split,low',high'⟩ := Lexicographic.betweenKeeps low high
  subst split
  cases t' with
  | nil => exact absurd (List.nil_lt_cons x s) low'
  | cons z t' =>
    have below : z < y := (List.cons_lt_cons_iff.mp high').resolve_right fun both => List.not_lt_nil t' both.2
    have same : ¬ x < z := by
      intro less
      have first := UInt8.lt_iff_toNat_lt.mp less
      have second := UInt8.lt_iff_toNat_lt.mp below
      omega
    have rest := successorShortest ((List.cons_le_cons_iff.mp low').resolve_left same).2
    rw [List.length_append,List.length_cons]
    omega

variable {start limit r : Bytes}

theorem tightShortest (tight : Tight start limit) (found : findShortestSeparator start limit = some r)
    (low : start ≤ t) (high : t < limit) : r.length ≤ t.length := by
  rcases tight with ⟨rest,split⟩ | ⟨c,x,s,y,l,left,right,apart,why⟩
  · have kept : r = start := Option.some.inj (found.symm.trans (separatorPrefix (.inl ⟨rest,split⟩)))
    rw [← List.append_nil start] at low
    rw [← split] at high
    obtain ⟨t',rfl,_⟩ := Lexicographic.betweenKeeps low high
    rw [kept,List.length_append]
    omega
  · subst left right
    have longer := betweenLonger low high
    rw [separatorParts c s l apart] at found
    cases found
    split
    · rwa [List.length_append,List.length_singleton]
    · rename_i adjacent
      rcases why with room | nothing | ⟨last,full⟩
      · exact absurd room adjacent
      · subst nothing
        rwa [List.length_append,List.length_singleton]
      · subst last
        have rest := betweenAdjacent low high (Nat.not_lt.mp adjacent)
        have saves := (successorSaves s).mpr full
        rw [List.length_append,List.length_cons]
        omega

/- Otherwise the second string up to the parting byte, or the first with a successor
of what follows that byte, is shorter. -/
theorem shortestTight (less : start < limit) (found : findShortestSeparator start limit = some r)
    (shortest : ∀ t, start ≤ t → t < limit → r.length ≤ t.length) : Tight start limit := by
  rcases Lexicographic.firstDifference start limit with before | before | ⟨c,x,s,y,l,rfl,rfl,apart⟩
  · exact .inl before
  · exact absurd less (List.not_lt.mpr before.le)
  · refine .inr ⟨c,x,s,y,l,rfl,rfl,apart,?_⟩
    have below := partLess less apart
    rw [separatorParts c s l apart] at found
    by_cases room : x.toNat + 1 < y.toNat
    · exact .inl room
    · rw [if_neg room] at found
      cases found
      have cut : l ≠ [] → s = [] := by
        intro more
        have inside : c ++ [y] < c ++ y::l := by
          refine List.append_left_lt (List.cons_lt_cons_iff.mpr (.inr ⟨rfl,?_⟩))
          cases l with
          | nil => exact absurd rfl more
          | cons z l => exact List.nil_lt_cons z l
        have bound := shortest (c ++ [y]) (List.le_of_lt (List.append_left_lt (headLess below s []))) inside
        simp only [List.length_append,List.length_cons,List.length_nil] at bound
        exact List.length_eq_zero_iff.mp (by omega)
      have raise : l = [] → ∀ b ∈ s.dropLast, b = 0xff := by
        intro nothing
        subst nothing
        have above : s ≤ findShortSuccessor s := by
          rcases successorAtLeast s with same | more
          · rw [same]
            exact List.le_refl s
          · exact List.le_of_lt more
        have least : c ++ x::s ≤ c ++ x::findShortSuccessor s :=
          List.append_left_le (List.cons_le_cons_iff.mpr (.inr ⟨rfl,above⟩))
        have bound := shortest (c ++ x::findShortSuccessor s) least (List.append_left_lt (headLess below _ []))
        simp only [List.length_append,List.length_cons] at bound
        exact (successorSaves s).mp (by omega)
      cases l with
      | nil => exact .inr (.inr ⟨rfl,raise rfl⟩)
      | cons z l => exact .inr (.inl (cut nofun))

theorem separatorShortest (start limit : Bytes) (less : Slice.compare start limit < 0) :
    ∃ r, findShortestSeparator start limit = some r ∧ Slice.compare start r ≤ 0 ∧ Slice.compare r limit < 0 ∧
      (NoShorter start limit r ↔ Tight start limit) := by
  obtain ⟨r,found,separates⟩ := separatorSeparates start limit
  obtain ⟨low,high⟩ := separatesWithin separates less
  have exactly : NoShorter start limit r ↔ Tight start limit := by
    constructor
    · intro shortest
      refine shortestTight ((Slice.compareNeg start limit).mp less) found ?_
      intro t above below
      exact shortest t ((compareAtMost start t).mpr above) ((Slice.compareNeg t limit).mpr below)
    · intro tight t above below
      exact tightShortest tight found ((compareAtMost start t).mp above) ((Slice.compareNeg t limit).mp below)
  exact ⟨r,found,low,high,exactly⟩

/- A separator that cannot be shorter, and one that can: [2] lies between too. -/
theorem separatorShortestTwo :
    (∃ r, findShortestSeparator [1,5,5] [3] = some r ∧ NoShorter [1,5,5] [3] r) ∧
    ∃ r, findShortestSeparator [1,5,5] [2,0] = some r ∧ (NoShorter [1,5,5] [2,0] r ↔ Tight [1,5,5] [2,0]) := by
  obtain ⟨r,found,_,_,exactly⟩ := separatorShortest [1,5,5] [3] (by decide)
  obtain ⟨r',found',_,_,exactly'⟩ := separatorShortest [1,5,5] [2,0] (by decide)
  have tight : Tight [1,5,5] [3] := .inr ⟨[],1,[5,5],3,[],rfl,rfl,by decide,.inl (by decide)⟩
  exact ⟨⟨r,found,exactly.mpr tight⟩,⟨r',found',exactly'⟩⟩

theorem separatorNotShortest : ¬ ∀ start limit, Slice.compare start limit < 0 →
    ∃ r, findShortestSeparator start limit = some r ∧ Slice.compare start r ≤ 0 ∧ Slice.compare r limit < 0 ∧
      NoShorter start limit r := by
  intro shortest
  obtain ⟨r,found,_,_,short⟩ := shortest [1,5,5] [2,0] (by decide)
  have kept : findShortestSeparator [1,5,5] [2,0] = some [1,5,5] := by decide
  cases Option.some.inj (kept.symm.trans found)
  have bound := short [2] (by decide) (by decide)
  exact absurd bound (by decide)

end Shortest
end KVStorage.BytewiseComparator
