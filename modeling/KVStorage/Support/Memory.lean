import KVStorage.Support.Buffer
import KVStorage.Support.Regions
import Mathlib.Logic.Function.Basic

/-! Memory as one cell for each address, holding nothing until it is stored to. A
store changes the region it covers and nothing apart from it. -/
namespace Support

abbrev Memory (α : Type) := Nat → Option α

namespace Memory

variable {α : Type}

def store (m : Memory α) (base : Nat) (data : List α) : Memory α := fun a =>
  if base ≤ a ∧ a < base+data.length then data[a-base]? else m a

/- What the cells of a region hold. -/
def view (m : Memory α) (r : Region) : List (Option α) := (List.range' r.base r.size).map m

def load (m : Memory α) (r : Region) : Option (List α) := (m.view r).mapM id

variable {m m' : Memory α} {base : Nat} {data : List α} {r : Region}

theorem storeInside {i : Nat} (inside : i < data.length) : m.store base data (base+i) = data[i]? := by
  unfold store
  rw [if_pos (by omega),Nat.add_sub_cancel_left]

theorem storeOutside {a : Nat} (outside : a < base ∨ base+data.length ≤ a) : m.store base data a = m a := by
  unfold store
  rw [if_neg (by omega)]

theorem viewCongr (same : ∀ a, r.base ≤ a → a < r.stop → m' a = m a) : m'.view r = m.view r := by
  refine List.map_congr_left ?_
  intro a mem
  obtain ⟨low,high⟩ := List.mem_range'_1.mp mem
  exact same a low high

theorem viewPart {part : Region} (within : part.Within r) (same : m'.view r = m.view r) :
    m'.view part = m.view part := by
  refine viewCongr ?_
  intro a low high
  have whole := List.map_inj_left.mp same a
  refine whole (List.mem_range'_1.mpr ⟨Nat.le_trans within.1 low,?_⟩)
  exact Nat.lt_of_lt_of_le high within.2

theorem viewStored : (m.store base data).view ⟨base,data.length⟩ = data.map some := by
  refine List.ext_getElem (by simp [view]) ?_
  intro i left right
  have inside : i < data.length := by simpa using right
  simp only [view,List.getElem_map,List.getElem_range',Nat.one_mul,storeInside inside,List.getElem?_eq_getElem inside]

theorem viewApart (apart : Region.Apart ⟨base,data.length⟩ r) : (m.store base data).view r = m.view r := by
  refine viewCongr ?_
  intro a low high
  refine storeOutside ?_
  unfold Region.Apart Region.stop at *
  dsimp only at *
  omega

theorem loadStored : (m.store base data).load ⟨base,data.length⟩ = some data := by
  have whole : data.mapM some = some data := by
    simpa using List.mapM_pure (m := Option) (l := data) (f := id)
  rw [load,viewStored,List.mapM_map]
  exact whole

theorem loadApart (apart : Region.Apart ⟨base,data.length⟩ r) : (m.store base data).load r = m.load r := by
  rw [load,load,viewApart apart]

@[simp] theorem viewLength (m : Memory α) (r : Region) : (m.view r).length = r.size := by simp [view]

/- A store into a region, as a write into the list of its cells. -/
theorem viewWritten {offset : Nat} {left : List (Option α)}
    (written : Buffer.write (m.view r) offset (data.map some) = some left) :
    (m.store (r.base+offset) data).view r = left := by
  unfold Buffer.write at written
  split at written
  · rename_i fits
    rw [viewLength,List.length_map] at fits
    have least : min offset r.size = offset := Nat.min_eq_left (by omega)
    cases written
    refine List.ext_getElem (by simp; omega) ?_
    intro i low high
    simp only [view,List.getElem_append,List.getElem_map,List.getElem_range',Nat.one_mul,List.length_append,
      List.length_take,List.length_map,List.length_range',List.getElem_take,List.getElem_drop,least]
    split
    · split
      · exact storeOutside (by omega)
      · have inside : i-offset < data.length := by omega
        have address : r.base+i = r.base+offset+(i-offset) := by omega
        rw [address,storeInside inside,List.getElem?_eq_getElem inside]
    · rw [storeOutside (by omega)]
      congr 1
      omega
  · cases written

end Memory
end Support
