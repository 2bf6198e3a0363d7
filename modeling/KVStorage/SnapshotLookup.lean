import KVStorage.InternalKeyOrder
import KVStorage.SkipListIterator

/-! Looking a user key up at a snapshot. Versions of one user key sort newest
first, and the lookup key carries the greatest type, so the first entry that is
not less than it is the newest version the snapshot sees. -/
namespace KVStorage

open Support InternalKeyComparator

/- The abstract outcome, over the set of versions a store holds. -/
section Versions

def Visible (u : Bytes) (s : SequenceNumber) (e : ParsedInternalKey) : Prop := e.user_key = u ∧ e.sequence ≤ s

def NoNewer (d e : ParsedInternalKey) : Prop :=
  d.sequence < e.sequence ∨ (d.sequence = e.sequence ∧ d.type.toByte ≤ e.type.toByte)

/- The newest visible version; else the first entry of a greater user key. -/
def FindsVersion (E : Set ParsedInternalKey) (u : Bytes) (s : SequenceNumber) : Option ParsedInternalKey → Prop
  | none => ∀ d ∈ E, ¬ Visible u s d ∧ ¬ u < d.user_key
  | some e => e ∈ E ∧
    ((Visible u s e ∧ ∀ d ∈ E, Visible u s d → NoNewer d e) ∨
      ((∀ d ∈ E, ¬ Visible u s d) ∧ u < e.user_key ∧
        ∀ d ∈ E, u < d.user_key → fieldOrder BytewiseComparator e d ≤ 0))

theorem foundNotLater {E : Set ParsedInternalKey} {u : Bytes} {s : SequenceNumber} {e : ParsedInternalKey}
    (finds : FindsVersion E u s (some e)) (same : e.user_key = u) : e.sequence ≤ s := by
  rcases finds.2 with ⟨visible,_⟩ | ⟨_,greater,_⟩
  · exact visible.2
  · rw [same] at greater
    exact absurd greater (List.lt_irrefl u)

theorem seekTypeFirst (t : ValueType) :
    (if s_value_type_for_seek ≠ t then
      (if s_value_type_for_seek.toByte > t.toByte then -1 else 1) else 0 : Int) ≤ 0 := by
  cases t with
  | TypeDeletion => decide
  | TypeValue => decide

/- What a search for the lookup key reaches. -/
theorem reachedIff (u : Bytes) (s : SequenceNumber) (e : ParsedInternalKey) :
    fieldOrder BytewiseComparator ⟨u,s,s_value_type_for_seek⟩ e ≤ 0 ↔ u < e.user_key ∨ Visible u s e := by
  have less : BytewiseComparator.compare u e.user_key < 0 ↔ u < e.user_key := Slice.compareNeg u e.user_key
  have zero : BytewiseComparator.compare u e.user_key = 0 ↔ u = e.user_key := Slice.compareZero u e.user_key
  unfold fieldOrder Visible
  by_cases same : u = e.user_key
  · have notLess : ¬ u < e.user_key := same ▸ List.lt_irrefl u
    rw [if_neg (not_not.mpr (zero.mpr same))]
    by_cases sequence : s = e.sequence
    · rw [if_neg (not_not.mpr sequence)]
      exact ⟨fun _ => .inr ⟨same.symm,by rw [sequence]; exact UInt64.le_refl _⟩,fun _ => seekTypeFirst e.type⟩
    · rw [if_pos sequence]
      by_cases later : s > e.sequence
      · rw [if_pos later]
        exact ⟨fun _ => .inr ⟨same.symm,UInt64.le_of_lt later⟩,fun _ => by decide⟩
      · rw [if_neg later]
        have hidden : ¬ e.sequence ≤ s := fun le => later (UInt64.lt_of_le_of_ne le (Ne.symm sequence))
        simp [notLess,hidden]
  · have apart : ¬ e.user_key = u := fun eq => same eq.symm
    rw [if_pos (fun eq => same (zero.mp eq))]
    constructor
    · intro le
      exact .inl (less.mp (lt_of_le_of_ne le (fun eq => same (zero.mp eq))))
    · intro either
      exact Int.le_of_lt (less.mpr (either.resolve_right (fun visible => apart visible.1)))

theorem noNewer {d e : ParsedInternalKey} (same : e.user_key = d.user_key)
    (le : fieldOrder BytewiseComparator e d ≤ 0) : NoNewer d e := by
  have zero : BytewiseComparator.compare e.user_key d.user_key = 0 := (Slice.compareZero ..).mpr same
  unfold fieldOrder at le
  rw [if_neg (not_not.mpr zero)] at le
  by_cases sequence : e.sequence = d.sequence
  · rw [if_neg (not_not.mpr sequence)] at le
    refine .inr ⟨sequence.symm,?_⟩
    by_cases type : e.type = d.type
    · rw [type]
      exact UInt8.le_refl _
    · rw [if_pos type] at le
      split at le
      · rename_i more
        exact UInt8.le_of_lt more
      · contradiction
  · rw [if_pos sequence] at le
    split at le
    · rename_i more
      exact .inl more
    · contradiction

/- The least entry reached from the lookup key is what the snapshot looks for. -/
theorem leastFinds {E : Set ParsedInternalKey} {u : Bytes} {s : SequenceNumber} {r : Option ParsedInternalKey}
    (least : OrderedCursor.Least (fieldOrder BytewiseComparator) E
      (fun e => fieldOrder BytewiseComparator ⟨u,s,s_value_type_for_seek⟩ e ≤ 0) r) : FindsVersion E u s r := by
  cases r with
  | none =>
    intro d mem
    have out := fun either => least d mem ((reachedIff u s d).mpr either)
    exact ⟨fun visible => out (.inr visible),fun greater => out (.inl greater)⟩
  | some e =>
    obtain ⟨mem,reached,first⟩ := least
    have before := fun d hd either => first d hd ((reachedIff u s d).mpr either)
    refine ⟨mem,?_⟩
    rcases (reachedIff u s e).mp reached with greater | visible
    · refine .inr ⟨?_,greater,fun d hd beyond => before d hd (.inl beyond)⟩
      intro d hd visible
      have le := before d hd (.inr visible)
      have up : BytewiseComparator.compare d.user_key e.user_key < 0 := by
        rw [visible.1]
        exact (Slice.compareNeg ..).mpr greater
      have down : BytewiseComparator.compare e.user_key d.user_key > 0 := Slice.compareLawful.negIff.mp up
      unfold fieldOrder at le
      rw [if_pos (Int.ne_of_gt down)] at le
      omega
    · exact .inl ⟨visible,fun d hd seen => noNewer (visible.1.trans seen.1.symm) (before d hd (.inr seen))⟩

end Versions

/- Internal keys as AppendInternalKey makes them. -/
def Built (entries : List Extractable) : Prop :=
  ∀ k ∈ entries, ∃ e : ParsedInternalKey, e.Valid ∧ appendInternalKey [] e = some k.1

def parsedOf (entries : List Extractable) : Set ParsedInternalKey :=
  {e | ∃ k ∈ entries, parseInternalKey k.1 = some e}

/- Where a lookup of u at s has to land among the entries. -/
def Lands (entries : List Extractable) (u : Bytes) (s : SequenceNumber) : Option Extractable → Prop
  | none => FindsVersion (parsedOf entries) u s none
  | some k => k ∈ entries ∧ ∃ e, parseInternalKey k.1 = some e ∧ FindsVersion (parsedOf entries) u s (some e) ∧
    (e.user_key = u → e.sequence ≤ s)

section Entries

variable {entries : List Extractable} {u : Bytes} {s : SequenceNumber}

theorem builtParses (built : Built entries) {k : Extractable} (mem : k ∈ entries) :
    ∃ e : ParsedInternalKey, e.Valid ∧ e.extractable = k ∧ parseInternalKey k.1 = some e := by
  obtain ⟨e,valid,made⟩ := built k mem
  have same : e.encode = k.1 := Option.some.inj ((appendEncodes valid []).symm.trans made)
  exact ⟨e,valid,Subtype.ext same,same ▸ parseEncoded valid⟩

theorem parsedBack (built : Built entries) {e : ParsedInternalKey} (mem : e ∈ parsedOf entries) :
    e.Valid ∧ e.extractable ∈ entries := by
  obtain ⟨k,inside,parsed⟩ := mem
  obtain ⟨e',valid,same,parsed'⟩ := builtParses built inside
  cases Option.some.inj (parsed.symm.trans parsed')
  exact ⟨valid,same ▸ inside⟩

theorem leastLands (built : Built entries) (low : s ≤ s_max_sequence_number) {r : Option Extractable}
    (least : OrderedCursor.Least (order BytewiseComparator) {k | k ∈ entries}
      (fun k => order BytewiseComparator (lookupTarget u s).extractable k ≤ 0) r) : Lands entries u s r := by
  have target : (lookupTarget u s).Valid := low
  cases r with
  | none =>
    refine leastFinds (r := none) ?_
    intro e mem reached
    obtain ⟨valid,inside⟩ := parsedBack built mem
    have le : order BytewiseComparator (lookupTarget u s).extractable e.extractable ≤ 0 := by
      rw [orderFields BytewiseComparator target valid]
      exact reached
    exact least e.extractable inside le
  | some k =>
    obtain ⟨mem,reached,first⟩ := least
    obtain ⟨e,valid,rfl,parsed⟩ := builtParses built mem
    rw [orderFields BytewiseComparator target valid] at reached
    have finds : FindsVersion (parsedOf entries) u s (some e) := by
      refine leastFinds ⟨⟨_,mem,parsed⟩,reached,?_⟩
      intro d inside reachedD
      obtain ⟨validD,memD⟩ := parsedBack built inside
      have far : order BytewiseComparator (lookupTarget u s).extractable d.extractable ≤ 0 := by
        rw [orderFields BytewiseComparator target validD]
        exact reachedD
      have le := first d.extractable memD far
      rwa [orderFields BytewiseComparator valid validD] at le
    exact ⟨mem,e,parsed,finds,foundNotLater finds⟩

theorem sortedLeast {sorted : List Extractable} {target : Extractable} (same : sorted.Perm entries)
    (ascending : sorted.Pairwise (fun a b => order BytewiseComparator a b < 0)) :
    OrderedCursor.Least (order BytewiseComparator) {k | k ∈ entries}
      (fun k => order BytewiseComparator target k ≤ 0)
      (sorted.find? (fun k => decide (0 ≤ order BytewiseComparator k target))) := by
  have lawful := orderLawful BytewiseComparator Slice.compareLawful
  have passes : ∀ k ∈ sorted, decide (0 ≤ order BytewiseComparator k target) = true ↔
      order BytewiseComparator target k ≤ 0 := by
    intro k _
    rw [decide_eq_true_iff]
    exact lawful.nonposIff.symm
  have least := OrderedCursor.leastOfFilter (α := Extractable) (p := fun k => order BytewiseComparator target k ≤ 0)
    lawful.self ascending passes
  have keys : {k | ∃ a ∈ sorted, a = k} = {k | k ∈ entries} := by
    ext k
    simp [same.mem_iff]
  rw [keys,Option.map_id',List.head?_filter] at least
  exact least

end Entries

/- The same lookup in a skip list that holds the entries, whatever their order
of insertion and their heights. -/
section Stored

variable {entries : List Extractable} {u : Bytes} {s : SequenceNumber}

theorem entriesFresh {ops : List (Extractable × Nat)} (same : (ops.map Prod.fst).Perm entries)
    (distinct : entries.Nodup) :
    ops.Pairwise (fun a b => order BytewiseComparator a.1 b.1 ≠ 0) := by
  have apart : (ops.map Prod.fst).Pairwise (fun a b => a ≠ b) := same.nodup_iff.mpr distinct
  refine (List.pairwise_map.mp apart).imp ?_
  intro a b differ zero
  exact differ ((orderZero a.1 b.1).mp zero)

theorem storedKeys {order' : List (SkipList.Entry Extractable)} {ops : List (Extractable × Nat)}
    (exact : (order'.map (fun e => (e.key,e.linked))).Perm ops) (same : (ops.map Prod.fst).Perm entries) :
    SkipList.keysOf order' = {k | k ∈ entries} := by
  ext k
  have names : (order'.map SkipList.Entry.key).Perm entries := by
    have keys := exact.map Prod.fst
    rw [List.map_map] at keys
    exact keys.trans same
  have mem := names.mem_iff (a := k)
  rw [List.mem_map] at mem
  exact mem

theorem seekLands (built : Built entries) (distinct : entries.Nodup) (low : s ≤ s_max_sequence_number)
    (zero : Extractable) {ops : List (Extractable × Nat)} (same : (ops.map Prod.fst).Perm entries)
    (heights : ∀ op ∈ ops, 1 ≤ op.2 ∧ op.2 ≤ SkipList.s_max_height_) :
    ∃ m it r, SkipList.insertAll (order BytewiseComparator) zero ops = .ok m ∧
      Iterator.seek (order BytewiseComparator) m (lookupTarget u s).extractable = .ok it ∧
      it.valid = r.isSome ∧ (∀ k, r = some k → it.key m = .ok k) ∧ Lands entries u s r := by
  have lawful := orderLawful BytewiseComparator Slice.compareLawful
  obtain ⟨m,order',made,rep,exact'⟩ := SkipList.insertAllRepresents lawful zero ops heights
    (entriesFresh same distinct)
  obtain ⟨it,r,sought,placed,least⟩ := SkipList.seekLeast lawful rep (lookupTarget u s).extractable
  rw [storedKeys exact' same] at least
  obtain ⟨valid,_,shows⟩ := SkipList.placedShows rep.linked placed
  exact ⟨m,it,r,made,sought,valid,fun k eq => (shows k eq).1,leastLands built low least⟩

end Stored

theorem snapshotLookup (entries : List Extractable) (built : Built entries) (distinct : entries.Nodup)
    (u : Bytes) (s : SequenceNumber) (low : s ≤ s_max_sequence_number) :
    (∀ a b : Extractable, compare BytewiseComparator a.1 b.1 = some (order BytewiseComparator a b)) ∧
    ∃ l, ∃ target : Extractable, LookupKey.new u s = some l ∧ l.internalKey = target.1 ∧
      (∀ sorted : List Extractable, sorted.Perm entries →
        sorted.Pairwise (fun a b => order BytewiseComparator a b < 0) →
        Lands entries u s (sorted.find? (fun k => decide (0 ≤ order BytewiseComparator k target)))) ∧
      ∀ (zero : Extractable) (ops : List (Extractable × Nat)), (ops.map Prod.fst).Perm entries →
        (∀ op ∈ ops, 1 ≤ op.2 ∧ op.2 ≤ SkipList.s_max_height_) →
        ∃ m it r, SkipList.insertAll (order BytewiseComparator) zero ops = .ok m ∧
          Iterator.seek (order BytewiseComparator) m target = .ok it ∧
          it.valid = r.isSome ∧ (∀ k, r = some k → it.key m = .ok k) ∧ Lands entries u s r := by
  obtain ⟨l,made,key,_⟩ := lookupKeyBytes low
  refine ⟨compareIs BytewiseComparator,l,(lookupTarget u s).extractable,made,key,?_,?_⟩
  · intro sorted same ascending
    exact leastLands built low (sortedLeast same ascending)
  · intro zero ops same heights
    exact seekLands built distinct low zero same heights

/- A value over an older tombstone, a tombstone over a value at one sequence
number, and a longer user key. -/
def versions : List Extractable :=
  [ParsedInternalKey.extractable ⟨[97],9,.TypeValue⟩,ParsedInternalKey.extractable ⟨[97],5,.TypeDeletion⟩,
    ParsedInternalKey.extractable ⟨[97],5,.TypeValue⟩,ParsedInternalKey.extractable ⟨[97,0],7,.TypeValue⟩]

theorem versionsBuilt : Built versions := by
  intro k mem
  have made : ∀ e : ParsedInternalKey, e.Valid → ∃ e' : ParsedInternalKey, e'.Valid ∧
      appendInternalKey [] e' = some e.extractable.1 := fun e valid => ⟨e,valid,appendEncodes valid []⟩
  simp only [versions,List.mem_cons,List.not_mem_nil,or_false] at mem
  rcases mem with rfl | rfl | rfl | rfl <;> exact made _ (by decide)

theorem snapshotLookupVersions :
    ∃ l, ∃ target : Extractable, LookupKey.new [97] 6 = some l ∧ l.internalKey = target.1 ∧
      ∃ m it r, SkipList.insertAll (order BytewiseComparator) target
          [(ParsedInternalKey.extractable ⟨[97],9,.TypeValue⟩,2),
            (ParsedInternalKey.extractable ⟨[97],5,.TypeDeletion⟩,1),
            (ParsedInternalKey.extractable ⟨[97],5,.TypeValue⟩,12),
            (ParsedInternalKey.extractable ⟨[97,0],7,.TypeValue⟩,3)] = .ok m ∧
        Iterator.seek (order BytewiseComparator) m target = .ok it ∧
        it.valid = r.isSome ∧ (∀ k, r = some k → it.key m = .ok k) ∧ Lands versions [97] 6 r := by
  obtain ⟨_,l,target,made,key,_,stored⟩ := snapshotLookup versions versionsBuilt (by decide) [97] 6 (by decide)
  exact ⟨l,target,made,key,stored target _ (List.Perm.refl _) (by decide)⟩

end KVStorage
