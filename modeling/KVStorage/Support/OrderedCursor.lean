import KVStorage.Support.Sorted
import Mathlib.Data.Set.Insert
import Mathlib.Logic.Function.Basic

/-! A set of keys under a three-way comparison with any number of cursors. A
cursor holds a key or nothing; a move puts it on the least or greatest key with
a property, or on nothing where no key has it. -/
namespace Support.OrderedCursor

variable {K ι : Type}

def Least (cmp : K → K → Int) (keys : Set K) (p : K → Prop) : Option K → Prop
  | none => ∀ k ∈ keys, ¬ p k
  | some k => k ∈ keys ∧ p k ∧ ∀ x ∈ keys, p x → cmp k x ≤ 0

def Greatest (cmp : K → K → Int) (keys : Set K) (p : K → Prop) : Option K → Prop
  | none => ∀ k ∈ keys, ¬ p k
  | some k => k ∈ keys ∧ p k ∧ ∀ x ∈ keys, p x → cmp x k ≤ 0

structure State (K ι : Type) where
  keys : Set K
  position : ι → Option K

inductive Call (K ι : Type) where
  | insert (key : K)
  | construct (i : ι)
  | seek (i : ι) (target : K)
  | seekToFirst (i : ι)
  | seekToLast (i : ι)
  | next (i : ι)
  | prev (i : ι)

section Steps

variable [DecidableEq ι]

def State.place (s : State K ι) (i : ι) (r : Option K) : State K ι :=
  {s with position := Function.update s.position i r}

inductive Step (cmp : K → K → Int) : State K ι → Call K ι → State K ι → Prop where
  | insert {s k} (fresh : ∀ x ∈ s.keys, cmp k x ≠ 0) :
      Step cmp s (.insert k) {s with keys := insert k s.keys}
  | construct {s i} : Step cmp s (.construct i) (s.place i none)
  | seek {s i t r} (least : Least cmp s.keys (fun x => cmp t x ≤ 0) r) :
      Step cmp s (.seek i t) (s.place i r)
  | seekToFirst {s i r} (least : Least cmp s.keys (fun _ => True) r) :
      Step cmp s (.seekToFirst i) (s.place i r)
  | seekToLast {s i r} (greatest : Greatest cmp s.keys (fun _ => True) r) :
      Step cmp s (.seekToLast i) (s.place i r)
  | next {s i k r} (valid : s.position i = some k)
      (least : Least cmp s.keys (fun x => cmp k x < 0) r) : Step cmp s (.next i) (s.place i r)
  | prev {s i k r} (valid : s.position i = some k)
      (greatest : Greatest cmp s.keys (fun x => cmp x k < 0) r) : Step cmp s (.prev i) (s.place i r)

end Steps

/- A sorted list shows its least key with a property as the head of a filter,
its greatest as the last element. -/
section Lists

variable {α : Type} {cmp : K → K → Int} {key : α → K} {l : List α} {q : α → Bool} {p : K → Prop}

theorem leastOfFilter (self : ∀ k, cmp k k = 0) (sorted : l.Pairwise (fun a b => cmp (key a) (key b) < 0))
    (same : ∀ a ∈ l, q a = true ↔ p (key a)) :
    Least cmp {k | ∃ a ∈ l, key a = k} p ((l.filter q).head?.map key) := by
  cases hf : (l.filter q).head? with
  | none =>
    intro k mem holds
    obtain ⟨a,ha,rfl⟩ := mem
    have none := List.filter_eq_nil_iff.mp (List.head?_eq_none_iff.mp hf) a ha
    exact none ((same a ha).mpr holds)
  | some a =>
    obtain ⟨mem,passes,least⟩ := Sorted.headLeast sorted hf
    refine ⟨⟨a,mem,rfl⟩,(same a mem).mp passes,?_⟩
    intro k inside holds
    obtain ⟨b,hb,rfl⟩ := inside
    rcases least b hb ((same b hb).mpr holds) with rfl | less
    · exact Int.le_of_eq (self _)
    · exact Int.le_of_lt less

theorem greatestOfFilter (self : ∀ k, cmp k k = 0) (sorted : l.Pairwise (fun a b => cmp (key a) (key b) < 0))
    (same : ∀ a ∈ l, q a = true ↔ p (key a)) :
    Greatest cmp {k | ∃ a ∈ l, key a = k} p ((l.filter q).getLast?.map key) := by
  cases hf : (l.filter q).getLast? with
  | none =>
    intro k mem holds
    obtain ⟨a,ha,rfl⟩ := mem
    have none := List.filter_eq_nil_iff.mp (List.getLast?_eq_none_iff.mp hf) a ha
    exact none ((same a ha).mpr holds)
  | some a =>
    obtain ⟨mem,passes,greatest⟩ := Sorted.lastGreatest sorted hf
    refine ⟨⟨a,mem,rfl⟩,(same a mem).mp passes,?_⟩
    intro k inside holds
    obtain ⟨b,hb,rfl⟩ := inside
    rcases greatest b hb ((same b hb).mpr holds) with rfl | less
    · exact Int.le_of_eq (self _)
    · exact Int.le_of_lt less

end Lists
end Support.OrderedCursor
