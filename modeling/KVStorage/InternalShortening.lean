import KVStorage.BytewiseShortening
import KVStorage.InternalKeyOrder

/-! Shortening of internal keys over BytewiseComparator. A shorter user key gets
the tail that sorts first among its versions, and is still past the old key
because the user keys alone decide. -/
namespace KVStorage.InternalKeyComparator

open Support

def Before (a b : Bytes) : Prop := ∃ c, compare BytewiseComparator a b = some c ∧ c < 0

def AtMost (a b : Bytes) : Prop := ∃ c, compare BytewiseComparator a b = some c ∧ c ≤ 0

theorem beforeIff (a b : Extractable) : Before a.1 b.1 ↔ order BytewiseComparator a b < 0 := by
  unfold Before
  rw [compareIs]
  simp

theorem atMostIff (a b : Extractable) : AtMost a.1 b.1 ↔ order BytewiseComparator a b ≤ 0 := by
  unfold AtMost
  rw [compareIs]
  simp

/- The key with the tail that the shortening functions append. -/
def forSeek (user_key : Bytes) : ParsedInternalKey := ⟨user_key,s_max_sequence_number,s_value_type_for_seek⟩

theorem forSeekValid (user_key : Bytes) : (forSeek user_key).Valid := UInt64.le_refl _

theorem forSeekAppends (user_key : Bytes) :
    ∃ packed, packSequenceAndType s_max_sequence_number s_value_type_for_seek = some packed ∧
      putFixed64 user_key packed = (forSeek user_key).extractable.1 :=
  ⟨_,rfl,rfl⟩

theorem usersDecide {a b : Extractable} (less : a.user < b.user) : order BytewiseComparator a b < 0 := by
  have negative : BytewiseComparator.compare a.user b.user < 0 := (Slice.compareNeg a.user b.user).mpr less
  rw [orderIs,ThreeWay.tieApart (Int.ne_of_lt negative)]
  exact negative

section Equations

variable (c : Comparator)

theorem assertIs (a b : Extractable) : assertBefore c a.1 b.1 = if order c a b < 0 then some () else none := by
  simp only [assertBefore,compareIs,bind,Option.bind]

/- Only the user's function and the asserts about the order can fail. -/
theorem separatorEq (start limit : Extractable) : findShortestSeparator c start.1 limit.1 =
    (c.findShortestSeparator start.user limit.user).bind fun tmp =>
      if tmp.length < start.user.length ∧ c.compare start.user tmp < 0 then
        if order c start (forSeek tmp).extractable < 0 ∧ order c (forSeek tmp).extractable limit < 0 then
          some (forSeek tmp).extractable.1
        else none
      else some start.1 := by
  simp only [findShortestSeparator,start.extracts,limit.extracts,bind,Option.bind]
  cases c.findShortestSeparator start.user limit.user with
  | none => rfl
  | some tmp =>
    obtain ⟨packed,packs,put⟩ := forSeekAppends tmp
    simp only [packs,put,assertIs]
    by_cases first : order c start (forSeek tmp).extractable < 0
    · by_cases second : order c (forSeek tmp).extractable limit < 0
      · simp only [first,second,and_self,if_true]
      · simp only [first,second,and_false,if_true,if_false]
    · simp only [first,false_and,if_false]

theorem successorEq (key : Extractable) : findShortSuccessor c key.1 =
    (c.findShortSuccessor key.user).bind fun tmp =>
      if tmp.length < key.user.length ∧ c.compare key.user tmp < 0 then
        if order c key (forSeek tmp).extractable < 0 then some (forSeek tmp).extractable.1 else none
      else some key.1 := by
  simp only [findShortSuccessor,key.extracts,bind,Option.bind]
  cases c.findShortSuccessor key.user with
  | none => rfl
  | some tmp =>
    obtain ⟨packed,packs,put⟩ := forSeekAppends tmp
    simp only [packs,put,assertIs]
    by_cases before : order c key (forSeek tmp).extractable < 0
    · simp only [before,if_true]
    · simp only [before,if_false]

end Equations

/- A replacement of `old` by a shorter key. -/
structure Shortened (old new : Extractable) : Prop where
  shorter : new.1.length < old.1.length
  tail : ∃ user_key, parseInternalKey new.1 = some ⟨user_key,s_max_sequence_number,.TypeValue⟩
  after : Before old.1 new.1

theorem forSeekShortened {old : Extractable} {tmp : Bytes} (shorter : tmp.length < old.user.length)
    (less : old.user < tmp) : Shortened old (forSeek tmp).extractable := by
  have size := congrArg List.length old.parts
  have users : (forSeek tmp).extractable.user = tmp := (encodedParts (forSeek tmp)).1
  have length : (forSeek tmp).extractable.1.length = tmp.length + 8 := encodeLength (forSeek tmp)
  have tail : (encodeFixed64 old.number).length = 8 := rfl
  rw [List.length_append,tail] at size
  refine ⟨by omega,⟨tmp,parseEncoded (forSeekValid tmp)⟩,?_⟩
  exact (beforeIff _ _).mpr (usersDecide (users.symm ▸ less))

theorem separatorIs (start limit : Extractable) : ∃ r : Extractable,
    findShortestSeparator BytewiseComparator start.1 limit.1 = some r.1 ∧
      (r = start ∨ (Shortened start r ∧ Before r.1 limit.1)) := by
  obtain ⟨tmp,found,between⟩ := BytewiseComparator.separatorBetween start.user limit.user
  have used : Comparator.findShortestSeparator BytewiseComparator start.user limit.user = some tmp := found
  rw [separatorEq,used,Option.bind_some]
  by_cases shorter : tmp.length < start.user.length ∧ BytewiseComparator.compare start.user tmp < 0
  · have changed : tmp ≠ start.user := fun eq => by simp [eq] at shorter
    obtain ⟨above,below⟩ := between.resolve_left changed
    have users : (forSeek tmp).extractable.user = tmp := (encodedParts (forSeek tmp)).1
    have left := usersDecide (a := start) (b := (forSeek tmp).extractable) (users.symm ▸ above)
    have right := usersDecide (a := (forSeek tmp).extractable) (b := limit) (users.symm ▸ below)
    rw [if_pos shorter,if_pos ⟨left,right⟩]
    exact ⟨_,rfl,.inr ⟨forSeekShortened shorter.1 above,(beforeIff _ _).mpr right⟩⟩
  · rw [if_neg shorter]
    exact ⟨start,rfl,.inl rfl⟩

theorem successorIs (key : Extractable) : ∃ r : Extractable,
    findShortSuccessor BytewiseComparator key.1 = some r.1 ∧ (r = key ∨ Shortened key r) := by
  have between := BytewiseComparator.successorAtLeast key.user
  have used : Comparator.findShortSuccessor BytewiseComparator key.user =
    some (BytewiseComparator.findShortSuccessor key.user) := rfl
  generalize BytewiseComparator.findShortSuccessor key.user = tmp at between used
  rw [successorEq,used,Option.bind_some]
  by_cases shorter : tmp.length < key.user.length ∧ BytewiseComparator.compare key.user tmp < 0
  · have changed : tmp ≠ key.user := fun eq => by simp [eq] at shorter
    have above := between.resolve_left changed
    have users : (forSeek tmp).extractable.user = tmp := (encodedParts (forSeek tmp)).1
    have left := usersDecide (a := key) (b := (forSeek tmp).extractable) (users.symm ▸ above)
    rw [if_pos shorter,if_pos left]
    exact ⟨_,rfl,.inr (forSeekShortened shorter.1 above)⟩
  · rw [if_neg shorter]
    exact ⟨key,rfl,.inl rfl⟩

/- Neighbours keep their side. -/
structure Separates (start limit r : Extractable) : Prop where
  result : r = start ∨ (Shortened start r ∧ Before r.1 limit.1)
  within : Before start.1 limit.1 → AtMost start.1 r.1 ∧ Before r.1 limit.1
  below : ∀ x : Extractable, AtMost x.1 start.1 → AtMost x.1 r.1
  above : Before start.1 limit.1 ∨ r ≠ start → ∀ x : Extractable, AtMost limit.1 x.1 → Before r.1 x.1
  stays : ∀ x : Extractable, AtMost limit.1 x.1 → Before start.1 x.1 → Before r.1 x.1

structure Succeeds (key r : Extractable) : Prop where
  result : r = key ∨ Shortened key r
  below : ∀ x : Extractable, AtMost x.1 key.1 → AtMost x.1 r.1

theorem startsBelow {start r : Extractable} (result : r = start ∨ Shortened start r) (x : Extractable)
    (le : AtMost x.1 start.1) : AtMost x.1 r.1 := by
  have lawful := orderLawful BytewiseComparator Slice.compareLawful
  rcases result with rfl | shortened
  · exact le
  · have after := (beforeIff _ _).mp shortened.after
    exact (atMostIff _ _).mpr (lawful.trans ((atMostIff _ _).mp le) (Int.le_of_lt after))

/-- Shortening an internal key never fails an assert and never moves it across a
neighbour: the result is the old key or a strictly shorter one, with the tail of
the greatest sequence number and TypeValue, that lies strictly between. -/
theorem shorteningKeepsNeighbours :
    (∀ start limit : Extractable, ∃ r : Extractable,
      findShortestSeparator BytewiseComparator start.1 limit.1 = some r.1 ∧ Separates start limit r) ∧
    (∀ key : Extractable, ∃ r : Extractable,
      findShortSuccessor BytewiseComparator key.1 = some r.1 ∧ Succeeds key r) := by
  have lawful := orderLawful BytewiseComparator Slice.compareLawful
  constructor
  · intro start limit
    obtain ⟨r,found,result⟩ := separatorIs start limit
    have shrinks := result.imp_right And.left
    have before : Before start.1 limit.1 ∨ r ≠ start → Before r.1 limit.1 := by
      intro either
      rcases result with rfl | ⟨_,right⟩
      · exact either.resolve_right (not_not.mpr rfl)
      · exact right
    have self : AtMost start.1 start.1 := (atMostIff _ _).mpr (Int.le_of_eq (lawful.self start))
    have above : Before start.1 limit.1 ∨ r ≠ start → ∀ x : Extractable, AtMost limit.1 x.1 → Before r.1 x.1 :=
      fun either x le =>
        (beforeIff _ _).mpr (lawful.ltOfLtOfLe ((beforeIff _ _).mp (before either)) ((atMostIff _ _).mp le))
    have stays : ∀ x : Extractable, AtMost limit.1 x.1 → Before start.1 x.1 → Before r.1 x.1 := by
      intro x le past
      by_cases kept : r = start
      · rw [kept]
        exact past
      · exact above (.inr kept) x le
    have within := fun ordered => And.intro (startsBelow shrinks start self) (before (.inl ordered))
    exact ⟨r,found,result,within,startsBelow shrinks,above,stays⟩
  · intro key
    obtain ⟨r,found,result⟩ := successorIs key
    exact ⟨r,found,result,startsBelow result⟩

end KVStorage.InternalKeyComparator
