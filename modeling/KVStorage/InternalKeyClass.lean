import KVStorage.InternalShortening

/-! The class InternalKey of database/db_format.h, and which stored bytes its other
functions and those of InternalKeyComparator can be called on. -/
namespace KVStorage

open InternalKeyComparator

structure InternalKey where
  rep_ : Bytes
  deriving DecidableEq, Repr

namespace InternalKey

def new (user_key : Bytes) (s : SequenceNumber) (t : ValueType) : Option InternalKey := do
  let rep_ ← appendInternalKey [] ⟨user_key,s,t⟩
  some ⟨rep_⟩

/- The string is stored whatever is returned. -/
def decodeFrom (_ : InternalKey) (s : Bytes) : Bool × InternalKey :=
  let rep_ := s
  (!rep_.isEmpty,⟨rep_⟩)

def encode (k : InternalKey) : Option Bytes := if !k.rep_.isEmpty then some k.rep_ else none

def userKey (k : InternalKey) : Option Bytes := extractUserKey k.rep_

def clear (_ : InternalKey) : InternalKey := ⟨[]⟩

def setFrom (k : InternalKey) (p : ParsedInternalKey) : Option InternalKey := do
  let rep_ ← appendInternalKey k.clear.rep_ p
  some ⟨rep_⟩

/- The overload of InternalKeyComparator::compare on this class. -/
def compareKeys (user_comparator_ : Comparator) (a b : InternalKey) : Option Int := do
  let a ← a.encode
  let b ← b.encode
  compare user_comparator_ a b

def Accepted (k : InternalKey) : Prop := ∃ key, parseInternalKey k.rep_ = some key

/- A key that is not decoded is one of those that ParseInternalKey accepts. -/
theorem newAccepted {user_key : Bytes} {s : SequenceNumber} (t : ValueType) (low : s ≤ s_max_sequence_number) :
    ∃ k, new user_key s t = some k ∧ Accepted k := by
  have valid : (⟨user_key,s,t⟩ : ParsedInternalKey).Valid := low
  refine ⟨⟨(⟨user_key,s,t⟩ : ParsedInternalKey).encode⟩,?_,_,parseEncoded valid⟩
  simp only [new,appendEncodes valid,bind,Option.bind,List.nil_append]

theorem setFromAccepted (k : InternalKey) {p : ParsedInternalKey} (valid : p.Valid) :
    ∃ k', k.setFrom p = some k' ∧ Accepted k' := by
  refine ⟨⟨p.encode⟩,?_,p,parseEncoded valid⟩
  simp only [setFrom,clear,appendEncodes valid,bind,Option.bind,List.nil_append]

/- Where the call ends in an assert, that is one inside the user's function or one about
the order of its result with the new tail, never the one of ExtractUserKey. -/
def Separable (c : Comparator) (start limit : Bytes) : Prop :=
  ∃ user_start user_limit, extractUserKey start = some user_start ∧ extractUserKey limit = some user_limit ∧
    (findShortestSeparator c start limit = none → c.findShortestSeparator user_start user_limit = none ∨
      ∃ tmp r, c.findShortestSeparator user_start user_limit = some tmp ∧ 0 ≤ r ∧
        (compare c start (forSeek tmp).encode = some r ∨ compare c (forSeek tmp).encode limit = some r))

def Succeedable (c : Comparator) (key : Bytes) : Prop :=
  ∃ user_key, extractUserKey key = some user_key ∧
    (findShortSuccessor c key = none → c.findShortSuccessor user_key = none ∨
      ∃ tmp r, c.findShortSuccessor user_key = some tmp ∧ 0 ≤ r ∧ compare c key (forSeek tmp).encode = some r)

/- All that a key can be used for, alone or with another one that is accepted. -/
structure Usable (k : InternalKey) : Prop where
  parses : Accepted k
  user : ∃ u, k.userKey = some u
  compares : ∀ c other, Accepted other → (∃ r, compareKeys c k other = some r) ∧ ∃ r, compareKeys c other k = some r
  separates : ∀ c other, Accepted other → Separable c k.rep_ other.rep_ ∧ Separable c other.rep_ k.rep_
  succeeds : ∀ c, Succeedable c k.rep_
  bytewise : ∀ other, Accepted other → (∃ r, findShortestSeparator BytewiseComparator k.rep_ other.rep_ = some r) ∧
    ∃ r, findShortestSeparator BytewiseComparator other.rep_ k.rep_ = some r
  bytewiseSucceeds : ∃ r, findShortSuccessor BytewiseComparator k.rep_ = some r

theorem notBefore {c : Comparator} {a b : Extractable} (late : ¬ order c a b < 0) :
    ∃ r, 0 ≤ r ∧ compare c a.1 b.1 = some r := ⟨_,Int.not_lt.mp late,compareIs c a b⟩

theorem separable (c : Comparator) (start limit : Extractable) : Separable c start.1 limit.1 := by
  refine ⟨start.user,limit.user,start.extracts,limit.extracts,?_⟩
  intro fails
  rw [separatorEq] at fails
  cases found : c.findShortestSeparator start.user limit.user with
  | none => exact .inl rfl
  | some tmp =>
    right
    rw [found,Option.bind_some] at fails
    split at fails
    · split at fails
      · cases fails
      · rename_i unordered
        rcases not_and_or.mp unordered with late | late
        · obtain ⟨r,positive,compared⟩ := notBefore late
          exact ⟨tmp,r,rfl,positive,.inl compared⟩
        · obtain ⟨r,positive,compared⟩ := notBefore late
          exact ⟨tmp,r,rfl,positive,.inr compared⟩
    · cases fails

theorem succeedable (c : Comparator) (key : Extractable) : Succeedable c key.1 := by
  refine ⟨key.user,key.extracts,?_⟩
  intro fails
  rw [successorEq] at fails
  cases found : c.findShortSuccessor key.user with
  | none => exact .inl rfl
  | some tmp =>
    right
    rw [found,Option.bind_some] at fails
    split at fails
    · split at fails
      · cases fails
      · rename_i late
        obtain ⟨r,positive,compared⟩ := notBefore late
        exact ⟨tmp,r,rfl,positive,compared⟩
    · cases fails

theorem acceptedExtractable {k : InternalKey} (accepted : Accepted k) : ∃ e : Extractable, k = ⟨e.1⟩ :=
  ⟨⟨k.rep_,((parsesIff k.rep_).mp accepted).1⟩,rfl⟩

theorem encodes (e : Extractable) : encode ⟨e.1⟩ = some e.1 := by
  have long := e.2
  apply if_pos
  cases bytes : e.1 with
  | nil =>
    rw [bytes] at long
    cases long
  | cons b bs => rfl

theorem compareKeysIs (c : Comparator) (a b : Extractable) : compareKeys c ⟨a.1⟩ ⟨b.1⟩ = some (order c a b) := by
  simp only [compareKeys,encodes,bind,Option.bind]
  exact compareIs c a b

theorem acceptedUsable {k : InternalKey} (accepted : Accepted k) : Usable k := by
  obtain ⟨e,rfl⟩ := acceptedExtractable accepted
  refine ⟨accepted,⟨_,e.extracts⟩,?_,?_,fun c => succeedable c e,?_,?_⟩
  · intro c other also
    obtain ⟨o,rfl⟩ := acceptedExtractable also
    exact ⟨⟨_,compareKeysIs c e o⟩,⟨_,compareKeysIs c o e⟩⟩
  · intro c other also
    obtain ⟨o,rfl⟩ := acceptedExtractable also
    exact ⟨separable c e o,separable c o e⟩
  · intro other also
    obtain ⟨o,rfl⟩ := acceptedExtractable also
    obtain ⟨r,found,_⟩ := separatorIs e o
    obtain ⟨r',found',_⟩ := separatorIs o e
    exact ⟨⟨_,found⟩,⟨_,found'⟩⟩
  · obtain ⟨r,found,_⟩ := successorIs e
    exact ⟨_,found⟩

/- What decodeFrom accepts is fit for use where it is an internal key, or refused. -/
theorem decodedUsable (k : InternalKey) (s : Bytes) :
    ((k.decodeFrom s).1 = true → Usable (k.decodeFrom s).2) ↔
      s = [] ∨ (8 ≤ s.length ∧ (s[s.length-8]? = some 0 ∨ s[s.length-8]? = some 1)) := by
  rw [← parsesIff]
  constructor
  · intro usable
    by_cases empty : s = []
    · exact .inl empty
    · have stored : (k.decodeFrom s).1 = true := by
        cases s with
        | nil => exact absurd rfl empty
        | cons b s => rfl
      exact .inr (usable stored).parses
  · intro fit stored
    rcases fit with rfl | accepted
    · cases stored
    · exact acceptedUsable accepted

theorem decodedTooShort :
    ¬ ((InternalKey.decodeFrom ⟨[]⟩ [1]).1 = true → Usable (InternalKey.decodeFrom ⟨[]⟩ [1]).2) := by
  intro usable
  obtain ⟨u,extracted⟩ := (usable rfl).user
  cases extracted

end InternalKey
end KVStorage
