import Mathlib.Logic.Function.Basic
import Mathlib.Order.Basic

/-! Release and acquire orders where one thread makes all the stores. The stores
are numbered from 1 in the order they are made. A thread that loads knows how
many of them happened before what it does next, and which store to each location
it read last; a load may take any store that is not older than those. -/
namespace Support.ReleaseAcquire

variable {σ L ρ : Type}

inductive Order where
  | plain
  | relaxed
  | release
  deriving DecidableEq, Repr

/- A store with the memory of the storing thread after it. -/
structure Store (σ L : Type) where
  location : L
  order : Order
  after : σ

structure History (σ L : Type) where
  first : σ
  stores : List (Store σ L)

namespace History

def now (h : History σ L) : Nat := h.stores.length

/- The memory once the first n stores are made. -/
def memory (h : History σ L) : Nat → σ
  | 0 => h.first
  | n+1 => (h.stores[n]?.map Store.after).getD h.first

/- What the storing thread itself sees. -/
def current (h : History σ L) : σ := h.memory h.now

def write (h : History σ L) (s : Store σ L) : History σ L := {h with stores := h.stores ++ [s]}

/- The last store to l among the first t; 0 where there is none. -/
def latest [DecidableEq L] (h : History σ L) (l : L) : Nat → Nat
  | 0 => 0
  | t+1 => if h.stores[t]?.map Store.location = some l then t+1 else latest h l t

def released (h : History σ L) : Nat → Bool
  | 0 => false
  | n+1 => h.stores[n]?.map Store.order = some .release

end History

/- `seen` counts the stores that happened before what the thread does next. -/
structure View (L : Type) where
  seen : Nat
  read : L → Nat

namespace View

def new : View L := ⟨0,fun _ => 0⟩

/- A load of l may take the last store to l among the first t. -/
structure Allows (v : View L) (h : History σ L) (l : L) (t : Nat) : Prop where
  seen : v.seen ≤ t
  read : v.read l ≤ t
  now : t ≤ h.now

/- The thread has met no store that is not made. -/
structure Within (v : View L) (h : History σ L) : Prop where
  seen : v.seen ≤ h.now
  read : ∀ l, v.read l ≤ h.now

/- Synchronisation by other means with the thread that stores. -/
def synchronise (v : View L) (n : Nat) : View L := {v with seen := max v.seen n}

variable [DecidableEq L]

def relaxed (v : View L) (h : History σ L) (l : L) (t : Nat) : View L :=
  {v with read := Function.update v.read l (h.latest l t)}

/- An acquire load that takes a release store learns all that went before it. -/
def acquire (v : View L) (h : History σ L) (l : L) (t : Nat) : View L :=
  let n := h.latest l t
  ⟨if h.released n then max v.seen n else v.seen,Function.update v.read l n⟩

end View

section Writing

variable {h : History σ L} {s : Store σ L} {n t : Nat} {l : L}

theorem nowWrite : (h.write s).now = h.now+1 := List.length_append

theorem memoryWrite (old : n ≤ h.now) : (h.write s).memory n = h.memory n := by
  cases n with
  | zero => rfl
  | succ n =>
    have same : (h.write s).stores[n]? = h.stores[n]? := List.getElem?_append_left old
    simp only [History.memory,same]
    rfl

theorem currentWrite : (h.write s).current = s.after := by
  have last : (h.write s).stores[h.now]? = some s := by
    simp [History.write,History.now]
  simp only [History.current,nowWrite,History.memory,last,Option.map_some,Option.getD_some]

theorem storesWrite {k : Nat} {r : Store σ L} (here : (h.write s).stores[k]? = some r) :
    h.stores[k]? = some r ∨ (k = h.now ∧ r = s) := by
  by_cases old : k < h.stores.length
  · left
    rwa [History.write,List.getElem?_append_left old] at here
  · right
    have bound := (List.getElem?_eq_some_iff.mp here).1
    have last : k = h.stores.length := by
      simp only [History.write,List.length_append,List.length_singleton] at bound
      omega
    subst last
    have found : some s = some r := by simpa [History.write] using here
    exact ⟨rfl,(Option.some.inj found).symm⟩

end Writing

section Loading

variable [DecidableEq L] {h : History σ L} {v : View L} {l : L} {t : Nat}

theorem latestLe (h : History σ L) (l : L) (t : Nat) : h.latest l t ≤ t := by
  induction t with
  | zero => exact Nat.le_refl _
  | succ t ih =>
    unfold History.latest
    split
    · exact Nat.le_refl _
    · exact Nat.le_succ_of_le ih

theorem latestLast {k : Nat} (after : h.latest l t ≤ k) (before : k < t) :
    h.stores[k]?.map Store.location ≠ some l := by
  induction t with
  | zero => omega
  | succ t ih =>
    unfold History.latest at after
    split at after
    · omega
    · rename_i other
      by_cases last : k = t
      · exact last ▸ other
      · exact ih after (by omega)

theorem latestHits {n : Nat} (last : h.latest l t = n+1) : ∃ s, h.stores[n]? = some s ∧ s.location = l := by
  induction t with
  | zero => contradiction
  | succ t ih =>
    unfold History.latest at last
    split at last
    · rename_i hit
      cases last
      exact Option.map_eq_some_iff.mp hit
    · exact ih last

theorem acquireSeen (allows : v.Allows h l t) : v.seen ≤ (v.acquire h l t).seen ∧ (v.acquire h l t).seen ≤ t := by
  have seen := allows.seen
  have latest := latestLe h l t
  simp only [View.acquire]
  split <;> omega

theorem readWithin (within : v.Within h) (made : t ≤ h.now) (k : L) :
    Function.update v.read l (h.latest l t) k ≤ h.now := by
  by_cases same : k = l
  · rw [same,Function.update_self]
    exact Nat.le_trans (latestLe h l t) made
  · rw [Function.update_of_ne same]
    exact within.read k

theorem relaxedWithin (within : v.Within h) (made : t ≤ h.now) : (v.relaxed h l t).Within h :=
  ⟨within.seen,readWithin within made⟩

theorem acquireWithin (within : v.Within h) (allows : v.Allows h l t) : (v.acquire h l t).Within h :=
  ⟨Nat.le_trans (acquireSeen allows).2 allows.now,readWithin within allows.now⟩

omit [DecidableEq L] in
theorem allowsCurrent (within : v.Within h) (l : L) : v.Allows h l h.now :=
  ⟨within.seen,within.read l,Nat.le_refl _⟩

/- What is read is changed by stores to l only. -/
def Framed (h : History σ L) (l : L) (read : σ → ρ) : Prop :=
  ∀ k s, h.stores[k]? = some s → s.location ≠ l → read s.after = read (h.memory k)

omit [DecidableEq L] in
theorem framedWrite {read : σ → ρ} {s : Store σ L} (framed : Framed h l read)
    (last : s.location ≠ l → read s.after = read h.current) : Framed (h.write s) l read := by
  intro k r here other
  rcases storesWrite here with old | ⟨rfl,rfl⟩
  · have bound := (List.getElem?_eq_some_iff.mp old).1
    rw [memoryWrite (Nat.le_of_lt bound)]
    exact framed k r old other
  · rw [memoryWrite (Nat.le_refl _)]
    exact last other

theorem sameSince {read : σ → ρ} {n : Nat} (framed : Framed h l read) (after : h.latest l t ≤ n) (before : n ≤ t)
    (made : t ≤ h.now) : read (h.memory n) = read (h.memory t) := by
  induction t with
  | zero => rw [Nat.le_zero.mp before]
  | succ t ih =>
    rcases Nat.lt_or_eq_of_le before with earlier | last
    · have within : n ≤ t := Nat.le_of_lt_succ earlier
      have other := latestLast (Nat.le_trans after within) (Nat.lt_succ_self t)
      have lower : h.latest l t ≤ n := by
        rwa [History.latest,if_neg other] at after
      have here : h.stores[t]? = some h.stores[t] := List.getElem?_eq_getElem made
      have same := framed t _ here (fun eq => other (by rw [here,Option.map_some,eq]))
      have now : h.memory (t+1) = h.stores[t].after := by
        simp only [History.memory,here,Option.map_some,Option.getD_some]
      rw [now,same]
      exact ih lower within (Nat.le_of_lt made)
    · rw [last]

/- Where every store to l that the thread may not know of is a release store, the
thread knows of the store it took once it has loaded: the memory it now knows of
agrees with what it read. -/
theorem acquireReads {read : σ → ρ} (framed : Framed h l read) (allows : v.Allows h l t)
    (releases : ∀ k s, v.seen ≤ k → h.stores[k]? = some s → s.location = l → s.order = .release) :
    read (h.memory (v.acquire h l t).seen) = read (h.memory t) := by
  have within := acquireSeen allows
  have known : h.latest l t ≤ (v.acquire h l t).seen := by
    simp only [View.acquire]
    by_cases released : h.released (h.latest l t) = true
    · rw [if_pos released]
      exact Nat.le_max_right ..
    · rw [if_neg released]
      cases taken : h.latest l t with
      | zero => exact Nat.zero_le _
      | succ k =>
        obtain ⟨s,here,hits⟩ := latestHits taken
        by_contra unseen
        have order := releases k s (by omega) here hits
        simp [taken,History.released,here,order] at released
  exact sameSince framed known within.2 allows.now

end Loading
end Support.ReleaseAcquire
