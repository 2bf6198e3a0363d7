import KVStorage.Hash
import KVStorage.InternalKeyCodec

/-! InternalFilterPolicy of database/db_format.h: the user's policy gets the user keys,
which the const_cast writes over the internal keys in the caller's array. -/
namespace KVStorage

/- The interface that db_format.h derives from. createFilter gives what it leaves in
the array and in dst. -/
structure FilterPolicy where
  name : String
  createFilter : List Bytes → Nat → Bytes → List Bytes × Bytes
  keyMayMatch : Bytes → Bytes → Bool

namespace InternalFilterPolicy

variable (user_policy_ : FilterPolicy)

def name : String := user_policy_.name

/- mkey[i] = ExtractUserKey(keys[i]), where mkey and keys are one array. -/
def strip (mkey : List Bytes) (i : Nat) : Option (List Bytes) := do
  let key ← mkey[i]?
  let user_key ← extractUserKey key
  some (mkey.set i user_key)

def createFilter (keys : List Bytes) (n : Nat) (dst : Bytes) : Option (List Bytes × Bytes) := do
  let mkey ← (List.range n).foldlM strip keys
  some (user_policy_.createFilter mkey n dst)

def keyMayMatch (key filter : Bytes) : Option Bool := do
  let user_key ← extractUserKey key
  some (user_policy_.keyMayMatch user_key filter)

/- The last eight bytes gone. -/
def userPart (key : Bytes) : Bytes := key.take (key.length-8)

theorem extractLong {key : Bytes} (long : 8 ≤ key.length) : extractUserKey key = some (userPart key) := if_pos long

/- After n rounds the first n keys are stripped and the others are as they were. -/
theorem stripRounds {keys : List Bytes} {n : Nat} (long : ∀ k ∈ keys.take n, 8 ≤ k.length) (room : n ≤ keys.length) :
    (List.range n).foldlM strip keys = some ((keys.take n).map userPart ++ keys.drop n) := by
  induction n with
  | zero => rfl
  | succ n ih =>
    have inside : n < keys.length := room
    have whole : keys.take (n+1) = keys.take n ++ [keys[n]] := List.take_succ_eq_append_getElem inside
    rw [whole,List.forall_mem_append,List.forall_mem_singleton] at long
    have done : ((keys.take n).map userPart).length = n := by
      rw [List.length_map,List.length_take_of_le (Nat.le_of_lt inside)]
    have next : keys.drop n = keys[n]::keys.drop (n+1) := List.drop_eq_getElem_cons inside
    have round : strip ((keys.take n).map userPart ++ keys.drop n) n =
        some ((keys.take (n+1)).map userPart ++ keys.drop (n+1)) := by
      have key : ((keys.take n).map userPart ++ keys.drop n)[n]? = some keys[n] := by
        rw [next,List.getElem?_append_right (Nat.le_of_eq done),done,Nat.sub_self]
        rfl
      have write : ((keys.take n).map userPart ++ keys.drop n).set n (userPart keys[n]) =
          (keys.take (n+1)).map userPart ++ keys.drop (n+1) := by
        rw [next,List.set_append_right _ _ (Nat.le_of_eq done),done,Nat.sub_self,whole,List.map_append,
          List.append_assoc]
        rfl
      simp only [strip,key,extractLong long.2,write,bind,Option.bind]
    rw [List.range_succ,List.foldlM_append,ih long.1 (Nat.le_of_lt inside)]
    simp only [bind,Option.bind,List.foldlM_cons,List.foldlM_nil,round]
    rfl

section Call

variable {keys : List Bytes} {n : Nat} (long : ∀ k ∈ keys.take n, 8 ≤ k.length) (room : n ≤ keys.length)

include long room in
theorem createFilterIs (dst : Bytes) : createFilter user_policy_ keys n dst =
    some (user_policy_.createFilter ((keys.take n).map userPart ++ keys.drop n) n dst) := by
  simp only [createFilter,stripRounds long room,bind,Option.bind]

include room in
theorem strippedKeys : ((keys.take n).map userPart ++ keys.drop n).take n = (keys.take n).map userPart := by
  have done : ((keys.take n).map userPart).length = n := by rw [List.length_map,List.length_take_of_le room]
  rw [List.take_append_of_le_length (Nat.le_of_eq done.symm),List.take_of_length_le (Nat.le_of_eq done)]

end Call

/- What the user's policy is relied on for: its filter, appended to dst, matches every
key that it was built from. -/
def Sound : Prop :=
  ∀ keys n dst, n ≤ keys.length → ∃ filter, (user_policy_.createFilter keys n dst).2 = dst ++ filter ∧
    ∀ k ∈ keys.take n, user_policy_.keyMayMatch k filter = true

theorem filterMatches (sound : Sound user_policy_) (keys : List Bytes) (n : Nat) (dst : Bytes)
    (room : n ≤ keys.length) (long : ∀ k ∈ keys.take n, 8 ≤ k.length) :
    ∃ after filter, createFilter user_policy_ keys n dst = some (after,dst ++ filter) ∧
      (∀ q, 8 ≤ q.length → (∃ k ∈ keys.take n, extractUserKey q = extractUserKey k) →
        keyMayMatch user_policy_ q filter = some true) ∧
      ∀ u s, s ≤ s_max_sequence_number → (∃ k ∈ keys.take n, extractUserKey k = some u) →
        ∃ l, LookupKey.new u s = some l ∧ keyMayMatch user_policy_ l.internalKey filter = some true := by
  have stripped := strippedKeys room
  obtain ⟨filter,appended,matched⟩ := sound ((keys.take n).map userPart ++ keys.drop n) n dst
    (by simp only [List.length_append,List.length_map,List.length_take,List.length_drop]; omega)
  rw [stripped] at matched
  have found : ∀ q u, extractUserKey q = some u → (∃ k ∈ keys.take n, extractUserKey k = some u) →
      keyMayMatch user_policy_ q filter = some true := by
    intro q u extracted ⟨k,mem,same⟩
    rw [extractLong (long k mem)] at same
    have hit := matched u (List.mem_map.mpr ⟨k,mem,Option.some.inj same⟩)
    simp only [keyMayMatch,extracted,hit,bind,Option.bind]
  refine ⟨(user_policy_.createFilter ((keys.take n).map userPart ++ keys.drop n) n dst).1,filter,?_,?_,?_⟩
  · rw [createFilterIs user_policy_ long room dst,← appended]
  · intro q longQ ⟨k,mem,same⟩
    rw [extractLong longQ] at same
    exact found q _ (extractLong longQ) ⟨k,mem,same.symm⟩
  · intro u s low stored
    obtain ⟨l,made,internal,_⟩ := lookupKeyBytes (u := u) low
    have size : l.internalKey.length = u.length + 8 := by
      rw [internal]
      exact encodeLength _
    have extracted : extractUserKey l.internalKey = some u := by
      rw [extractLong (by omega),userPart,size,internal,Nat.add_sub_cancel]
      exact congrArg some List.take_left
    exact ⟨l,made,found _ _ extracted stored⟩

/- A policy that keeps one byte of a hash for each key. -/
def fingerprints : FilterPolicy where
  name := "fingerprints"
  createFilter := fun keys n dst => (keys,dst ++ (keys.take n).map fun k => (hash k 0).toUInt8)
  keyMayMatch := fun key filter => filter.contains (hash key 0).toUInt8

theorem fingerprintsSound : Sound fingerprints := by
  intro keys n dst _
  refine ⟨_,rfl,?_⟩
  intro k mem
  have kept := List.mem_map_of_mem (f := fun k => (hash k 0).toUInt8) mem
  exact List.contains_iff_mem.mpr kept

/- The keys a and bc were stored at sequences 1 and 2 and are looked up at sequence 9;
the third slice of the array is not one of the n. -/
theorem filterMatchesTwo :
    ∃ after filter, createFilter fingerprints [[97,1,1,0,0,0,0,0,0],[98,99,1,2,0,0,0,0,0,0],[7]] 2 [5] =
        some (after,[5] ++ filter) ∧
      (∃ l, LookupKey.new [97] 9 = some l ∧ keyMayMatch fingerprints l.internalKey filter = some true) ∧
      ∃ l, LookupKey.new [98,99] 9 = some l ∧ keyMayMatch fingerprints l.internalKey filter = some true := by
  obtain ⟨after,filter,made,_,lookups⟩ := filterMatches fingerprints fingerprintsSound
    [[97,1,1,0,0,0,0,0,0],[98,99,1,2,0,0,0,0,0,0],[7]] 2 [5] (by decide) (by decide)
  have first := lookups [97] 9 (by decide) ⟨_,List.mem_cons_self,rfl⟩
  have second := lookups [98,99] 9 (by decide) ⟨_,List.mem_cons_of_mem _ List.mem_cons_self,rfl⟩
  exact ⟨after,filter,made,first,second⟩

/- The array is as before, so a call on it does again what the first one did. -/
structure LeavesInput (keys : List Bytes) (n : Nat) (dst : Bytes) : Prop where
  unchanged : ∃ out, createFilter user_policy_ keys n dst = some (keys,out)
  again : ∀ after out, createFilter user_policy_ keys n dst = some (after,out) →
    ∀ dst', createFilter user_policy_ after n dst' = createFilter user_policy_ keys n dst'

/- A stripped key is eight bytes shorter, so one key is enough to see the change. -/
theorem inputLeft (quiet : ∀ keys n dst, (user_policy_.createFilter keys n dst).1 = keys) (keys : List Bytes)
    (n : Nat) (dst : Bytes) (room : n ≤ keys.length) (long : ∀ k ∈ keys.take n, 8 ≤ k.length) :
    LeavesInput user_policy_ keys n dst ↔ n = 0 := by
  have made := createFilterIs user_policy_ long room dst
  have left := quiet ((keys.take n).map userPart ++ keys.drop n) n dst
  constructor
  · intro leaves
    obtain ⟨out,same⟩ := leaves.unchanged
    have equal : (keys.take n).map userPart ++ keys.drop n = keys := by
      rw [← left]
      exact congrArg Prod.fst (Option.some.inj (made.symm.trans same))
    have taken := congrArg (List.take n) equal
    rw [strippedKeys room] at taken
    cases keys with
    | nil => exact Nat.le_zero.mp room
    | cons key keys =>
      cases n with
      | zero => rfl
      | succ n =>
        rw [List.take_succ_cons,List.map_cons] at taken
        have shorter := congrArg List.length (List.cons.inj taken).1
        have eight := long key List.mem_cons_self
        rw [userPart,List.length_take] at shorter
        omega
  · intro zero
    subst zero
    have unchanged : createFilter user_policy_ keys 0 dst = some (keys,(user_policy_.createFilter keys 0 dst).2) :=
      made.trans (congrArg some (Prod.ext left rfl))
    refine ⟨⟨_,unchanged⟩,?_⟩
    intro after out same dst'
    cases Option.some.inj (unchanged.symm.trans same)
    rfl

theorem inputLeftNone : LeavesInput fingerprints [[97,1,1,0,0,0,0,0,0]] 0 [] ∧
    ¬ LeavesInput fingerprints [[97,1,1,0,0,0,0,0,0]] 1 [] :=
  ⟨(inputLeft fingerprints (fun _ _ _ => rfl) _ 0 [] (by decide) (by decide)).mpr rfl,
    fun leaves => absurd ((inputLeft fingerprints (fun _ _ _ => rfl) _ 1 [] (by decide) (by decide)).mp leaves)
      (by decide)⟩

/- The slice is cut down to the byte a, which a second call cannot strip. -/
theorem inputStripped : ¬ LeavesInput fingerprints [[97,1,1,0,0,0,0,0,0]] 1 [] ∧
    ∃ out, createFilter fingerprints [[97,1,1,0,0,0,0,0,0]] 1 [] = some ([[97]],out) ∧
      createFilter fingerprints [[97]] 1 out = none := by
  constructor
  · intro leaves
    obtain ⟨out,same⟩ := leaves.unchanged
    have kept : Option.map Prod.fst (createFilter fingerprints [[97,1,1,0,0,0,0,0,0]] 1 []) =
        some [[97,1,1,0,0,0,0,0,0]] := congrArg (Option.map Prod.fst) same
    exact absurd kept (by decide)
  · exact ⟨_,rfl,rfl⟩

end InternalFilterPolicy
end KVStorage
