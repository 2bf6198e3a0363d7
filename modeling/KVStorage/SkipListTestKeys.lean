import KVStorage.Hash
import KVStorage.SkipList

/-! The keys of test/skiplist_test.cc, made of a key, a generation and a hash of both:
their order is that of keys and then of generations. -/
namespace KVStorage.ConcurrentTest

open Support

abbrev Key := UInt64

/- assert in MakeKey, the ASSERTs of ReadStep in their order, and an index or a
round that there is not. -/
inductive Fault where
  | makeKey
  | invalidKey (current : Key)
  | backwards
  | keyRange (pos : Key)
  | missed (pos : Key)
  | outOfRange
  | rounds
  | list (fault : KVStorage.Fault)
  deriving DecidableEq, Repr

/- struct Comparator. -/
def compare (a b : Key) : Int := if a < b then -1 else if a > b then 1 else 0

def K : UInt64 := 4

def key (x : Key) : UInt64 := x >>> 40

def gen (x : Key) : UInt64 := (x >>> 8) &&& 0xffffffff

def hash (x : Key) : UInt64 := x &&& 0xff

def hashNumbers (k g : UInt64) : UInt64 := (KVStorage.hash (encodeFixed64 k ++ encodeFixed64 g) 0).toUInt64

def pack (k g : UInt64) : Key := (k <<< 40) ||| (g <<< 8) ||| (hashNumbers k g &&& 0xff)

def makeKey (k g : UInt64) : Except Fault Key :=
  if k ≤ K ∧ g ≤ 0xffffffff then .ok (pack k g) else .error .makeKey

def isValidKey (x : Key) : Bool := hash x == (hashNumbers (key x) (gen x) &&& 0xff)

/- The numbers that rnd draws; the second one is drawn by default only. -/
def randomTarget (first second : UInt32) : Except Fault Key :=
  if first % 10 = 0 then makeKey 0 0
  else if first % 10 = 1 then makeKey K 0
  else makeKey (second.toUInt64 % K) 0

theorem compareLawful : ThreeWay.Lawful compare := by
  have value : ∀ a b : Key, compare a b = if a.toNat < b.toNat then -1 else if b.toNat < a.toNat then 1 else 0 :=
    fun _ _ => rfl
  refine ⟨?_,?_⟩
  · intro a b
    rw [value,value]
    rcases Nat.lt_trichotomy a.toNat b.toNat with less | same | more
    · rw [if_pos less,if_neg (Nat.lt_asymm less),if_pos less]
      rfl
    · simp [same]
    · rw [if_neg (Nat.lt_asymm more),if_pos more,if_pos more]
      rfl
  · intro a b c
    rw [value,value,value]
    grind

theorem compareLess (a b : Key) : compare a b < 0 ↔ a < b := by
  unfold compare
  grind

theorem compareApart (a b : Key) : compare a b ≠ 0 ↔ a ≠ b := by
  unfold compare
  grind

theorem compareFrom (a b : Key) : compare a b ≥ 0 ↔ b ≤ a := by
  unfold compare
  grind

section Parts

theorem byteValue (x : UInt64) : (x &&& 0xff).toNat = x.toNat % 2^8 := by
  rw [UInt64.toNat_and]
  exact Nat.and_two_pow_sub_one_eq_mod x.toNat 8

theorem keyValue (x : Key) : (key x).toNat = x.toNat / 2^40 := by
  rw [key,UInt64.toNat_shiftRight]
  exact Nat.shiftRight_eq_div_pow x.toNat 40

theorem genValue (x : Key) : (gen x).toNat = x.toNat / 2^8 % 2^32 := by
  have shifted : (x >>> 8).toNat = x.toNat / 2^8 := by
    rw [UInt64.toNat_shiftRight]
    exact Nat.shiftRight_eq_div_pow x.toNat 8
  have masked : (gen x).toNat = (x >>> 8).toNat &&& (2^32-1) := UInt64.toNat_and ..
  rw [masked,shifted]
  exact Nat.and_two_pow_sub_one_eq_mod _ 32

variable {k g : UInt64}

theorem packValue (low : k ≤ K) (fits : g ≤ 0xffffffff) :
    (pack k g).toNat = k.toNat*2^40 + g.toNat*2^8 + (hashNumbers k g).toNat % 2^8 := by
  have small : k.toNat ≤ 4 := UInt64.le_iff_toNat_le.mp low
  have narrow : g.toNat ≤ 2^32-1 := UInt64.le_iff_toNat_le.mp fits
  have byte := byteValue (hashNumbers k g)
  have tail : (hashNumbers k g).toNat % 2^8 < 2^8 := Nat.mod_lt _ (by decide)
  have join := Words.orShift g.toNat 64 tail (by decide)
  have above : g.toNat*2^8 + (hashNumbers k g).toNat % 2^8 < 2^40 := by omega
  have whole := Words.orShift k.toNat 64 above (by decide)
  have first : ((hashNumbers k g &&& (0xff : UInt64)) ||| (g <<< 8)).toNat =
      g.toNat*2^8 + (hashNumbers k g).toNat % 2^8 := by
    rw [UInt64.toNat_or,UInt64.toNat_shiftLeft,byte]
    exact join.trans (by omega)
  rw [pack,UInt64.or_assoc,UInt64.or_comm,UInt64.or_comm (g <<< 8),UInt64.toNat_or,UInt64.toNat_shiftLeft,first]
  exact whole.trans (by omega)

theorem keyPack (low : k ≤ K) (fits : g ≤ 0xffffffff) : key (pack k g) = k := by
  have value := packValue low fits
  have narrow : g.toNat ≤ 2^32-1 := UInt64.le_iff_toNat_le.mp fits
  apply UInt64.toNat_inj.mp
  rw [keyValue]
  omega

theorem genPack (low : k ≤ K) (fits : g ≤ 0xffffffff) : gen (pack k g) = g := by
  have value := packValue low fits
  have narrow : g.toNat ≤ 2^32-1 := UInt64.le_iff_toNat_le.mp fits
  apply UInt64.toNat_inj.mp
  rw [genValue]
  omega

theorem validPack (low : k ≤ K) (fits : g ≤ 0xffffffff) : isValidKey (pack k g) = true := by
  have value := packValue low fits
  have same : hash (pack k g) = hashNumbers k g &&& 0xff := by
    apply UInt64.toNat_inj.mp
    rw [hash,byteValue,byteValue]
    omega
  rw [isValidKey,keyPack low fits,genPack low fits,same]
  exact beq_self_eq_true _

end Parts

/- What MakeKey returns. -/
structure Point (x : Key) : Prop where
  low : key x ≤ K
  made : pack (key x) (gen x) = x

theorem genFits (x : Key) : gen x ≤ 0xffffffff := by
  have value := genValue x
  apply UInt64.le_iff_toNat_le.mpr
  have bound : (gen x).toNat ≤ 2^32-1 := by omega
  exact bound

theorem pointPack {k g : UInt64} (low : k ≤ K) (fits : g ≤ 0xffffffff) : Point (pack k g) := by
  have left := keyPack low fits
  have right := genPack low fits
  exact ⟨by rwa [left],by rw [left,right]⟩

section Order

variable {x y : Key}

theorem pointSame (here : Point x) (there : Point y) (keys : key x = key y) (gens : gen x = gen y) : x = y := by
  rw [← here.made,← there.made,keys,gens]

theorem pointLess (here : Point x) (there : Point y) :
    x < y ↔ key x < key y ∨ (key x = key y ∧ gen x < gen y) := by
  have keys := keyValue x
  have keys' := keyValue y
  have gens := genValue x
  have gens' := genValue y
  simp only [UInt64.lt_iff_toNat_lt,← UInt64.toNat_inj]
  by_cases same : (key x).toNat = (key y).toNat ∧ (gen x).toNat = (gen y).toNat
  · have equal := pointSame here there (UInt64.toNat_inj.mp same.1) (UInt64.toNat_inj.mp same.2)
    subst equal
    omega
  · omega

/- The first point of a key, and the least point behind one. -/
structure First (k : UInt64) (x : Key) : Prop where
  made : makeKey k 0 = .ok x
  point : Point x
  key : key x = k
  gen : gen x = 0

theorem firstPoint {k : UInt64} (low : k ≤ K) : First k (pack k 0) := by
  have fits : (0 : UInt64) ≤ 0xffffffff := by decide
  exact ⟨if_pos ⟨low,fits⟩,pointPack low fits,keyPack low fits,genPack low fits⟩

structure Following (x z : Key) : Prop where
  made : makeKey (key x) (gen x+1) = .ok z
  point : Point z
  key : key z = key x
  gen : (gen z).toNat = (gen x).toNat+1
  after : x < z
  least : ∀ y, Point y → x < y → z ≤ y

theorem followingPoint (here : Point x) (room : gen x < 0xffffffff) : Following x (pack (key x) (gen x+1)) := by
  have bound : (gen x).toNat < 2^32-1 := UInt64.lt_iff_toNat_lt.mp room
  have one : (gen x+1).toNat = (gen x).toNat+1 := by
    rw [UInt64.toNat_add]
    exact Nat.mod_eq_of_lt (Nat.lt_trans (Nat.add_lt_add_right bound 1) (by decide))
  have fits : gen x+1 ≤ 0xffffffff := by
    apply UInt64.le_iff_toNat_le.mpr
    rw [one]
    exact bound
  have point := pointPack here.low fits
  have keys := keyPack here.low fits
  have gens := genPack here.low fits
  have after : x < pack (key x) (gen x+1) := by
    refine (pointLess here point).mpr (.inr ⟨keys.symm,?_⟩)
    rw [gens,UInt64.lt_iff_toNat_lt]
    omega
  refine ⟨if_pos ⟨here.low,fits⟩,point,keys,by rw [gens,one],after,?_⟩
  intro y there less
  by_contra before
  rcases (pointLess here there).mp less with lower | ⟨same,fewer⟩
  · rcases (pointLess there point).mp (UInt64.not_le.mp before) with higher | ⟨equal,_⟩
    · rw [keys] at higher
      exact UInt64.lt_irrefl _ (UInt64.lt_trans lower higher)
    · rw [equal,keys] at lower
      exact UInt64.lt_irrefl _ lower
  · rcases (pointLess there point).mp (UInt64.not_le.mp before) with higher | ⟨_,most⟩
    · rw [keys,same] at higher
      exact UInt64.lt_irrefl _ higher
    · rw [gens,UInt64.lt_iff_toNat_lt] at most
      rw [UInt64.lt_iff_toNat_lt] at fewer
      omega

end Order
end KVStorage.ConcurrentTest
