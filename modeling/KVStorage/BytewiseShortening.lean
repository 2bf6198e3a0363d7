import KVStorage.Comparator
import KVStorage.Support.Lexicographic

/-! Shortening by bytes: a separator is a common part of the two strings with one
byte more, a successor a part of the string with its next byte raised. -/
namespace KVStorage.BytewiseComparator

open Support

theorem headLess {x y : UInt8} (less : x < y) (a b : Bytes) : x::a < y::b :=
  List.cons_lt_cons_iff.mpr (.inl less)

theorem raised {x : UInt8} (room : x.toNat < 255) : (x+1).toNat = x.toNat + 1 := by
  have one : (1 : UInt8).toNat = 1 := rfl
  rw [UInt8.toNat_add,one]
  exact Nat.mod_eq_of_lt (by omega)

theorem separatorCons (x : UInt8) (start limit : Bytes) : findShortestSeparator (x::start) (x::limit) =
    (findShortestSeparator start limit).map (fun r => x::r) := by
  have compared : ∀ a b : Bytes, Slice.compare (x::a) (x::b) = Slice.compare a b := by
    intro a b
    rw [Slice.compareCons,ThreeWay.tieZero ((Slice.differenceZero x x).mpr rfl)]
  unfold findShortestSeparator
  simp only [diffIndex,List.length_cons,Nat.add_min_add_right,ge_iff_le,Nat.add_le_add_iff_right,if_true,
    List.getElem?_cons_succ,List.set_cons_succ,List.take_succ_cons,compared]
  split
  · rfl
  · cases start[diffIndex start limit]? with
    | none => rfl
    | some diff_byte =>
      cases limit[diffIndex start limit]? with
      | none => rfl
      | some limit_byte =>
        simp only [bind,Option.bind]
        split
        · split
          · rfl
          · rfl
        · rfl

theorem separatorAppend (c start limit : Bytes) : findShortestSeparator (c ++ start) (c ++ limit) =
    (findShortestSeparator start limit).map (c ++ ·) := by
  induction c with
  | nil => exact Option.map_id'.symm
  | cons x c ih =>
    rw [List.cons_append,List.cons_append,separatorCons,ih,Option.map_map]
    rfl

/- Where one string begins the other there is no byte to raise. -/
theorem separatorPrefix {start limit : Bytes} (before : start <+: limit ∨ limit <+: start) :
    findShortestSeparator start limit = some start := by
  rcases before with ⟨rest,split⟩ | ⟨rest,split⟩
  · have shared := separatorAppend start [] rest
    rw [List.append_nil,split] at shared
    exact shared.trans (congrArg some (List.append_nil start))
  · have shared := separatorAppend limit rest []
    have whole : findShortestSeparator rest [] = some rest := by cases rest <;> rfl
    rw [List.append_nil,split,whole] at shared
    exact shared.trans (congrArg some split)

/- Where they part at two bytes, the first is raised if it then stays below. -/
theorem separatorParts (c s l : Bytes) {x y : UInt8} (apart : x ≠ y) : findShortestSeparator (c ++ x::s) (c ++ y::l) =
    some (if x.toNat + 1 < y.toNat then c ++ [x+1] else c ++ x::s) := by
  have bound := y.toNat_lt
  rw [separatorAppend]
  by_cases room : x.toNat + 1 < y.toNat
  · have full : (0xff : UInt8).toNat = 255 := rfl
    have below : x < 0xff := UInt8.lt_iff_toNat_lt.mpr (by omega)
    have less : x+1 < y := by
      rw [UInt8.lt_iff_toNat_lt,raised (by omega)]
      exact room
    have holds := (Slice.compareNeg [x+1] (y::l)).mpr (headLess less [] l)
    simp [findShortestSeparator,diffIndex,apart,room,below,holds]
  · simp [findShortestSeparator,diffIndex,apart,room]

/- The string as it was, or the common part and one byte, raised by one. -/
theorem separatorCases (start limit : Bytes) : findShortestSeparator start limit = some start ∨
    ∃ common x y s l, start = common ++ x::s ∧ limit = common ++ y::l ∧ x.toNat + 1 < y.toNat ∧
      findShortestSeparator start limit = some (common ++ [x+1]) := by
  rcases Lexicographic.firstDifference start limit with before | before | ⟨c,x,s,y,l,rfl,rfl,apart⟩
  · exact .inl (separatorPrefix (.inl before))
  · exact .inl (separatorPrefix (.inr before))
  · have found := separatorParts c s l apart
    by_cases room : x.toNat + 1 < y.toNat
    · rw [if_pos room] at found
      exact .inr ⟨c,x,y,s,l,rfl,rfl,room,found⟩
    · rw [if_neg room] at found
      exact .inl found

/- findShortestSeparator never fails its assert; what it changes lies between. -/
theorem separatorBetween (start limit : Bytes) : ∃ r, findShortestSeparator start limit = some r ∧
    (r = start ∨ (start < r ∧ r < limit)) := by
  rcases separatorCases start limit with kept | ⟨common,x,y,s,l,rfl,rfl,room,found⟩
  · exact ⟨start,kept,.inl rfl⟩
  · have bound := y.toNat_lt
    have up := raised (x := x) (by omega)
    have above : x < x+1 := UInt8.lt_iff_toNat_lt.mpr (by omega)
    have below : x+1 < y := UInt8.lt_iff_toNat_lt.mpr (by omega)
    exact ⟨_,found,.inr ⟨List.append_left_lt (headLess above s []),List.append_left_lt (headLess below [] l)⟩⟩

theorem successorAtLeast (key : Bytes) : findShortSuccessor key = key ∨ key < findShortSuccessor key := by
  induction key with
  | nil => exact .inl rfl
  | cons x key ih =>
    unfold findShortSuccessor
    by_cases full : x = 0xff
    · subst full
      rw [if_neg (not_not.mpr rfl)]
      exact ih.imp (congrArg (0xff::·)) (fun less => List.cons_lt_cons_iff.mpr (.inr ⟨rfl,less⟩))
    · have top : (0xff : UInt8).toNat = 255 := rfl
      have apart : x.toNat ≠ 255 := fun eq => full (UInt8.toNat_inj.mp (eq.trans top.symm))
      have bound := x.toNat_lt
      have up := raised (x := x) (by omega)
      rw [if_pos full]
      exact .inr (headLess (UInt8.lt_iff_toNat_lt.mpr (by omega)) key [])

end KVStorage.BytewiseComparator
