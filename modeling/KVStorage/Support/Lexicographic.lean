import Mathlib.Data.List.Basic

/-! Lists in dictionary order, and what lies between two of them: a part that both
bounds begin with begins all that lies between. -/
namespace Support.Lexicographic

variable {α : Type}

/- Two lists part at a first place, or one of them begins the other. -/
theorem firstDifference [DecidableEq α] (a b : List α) : a <+: b ∨ b <+: a ∨
    ∃ c x s y l, a = c ++ x::s ∧ b = c ++ y::l ∧ x ≠ y := by
  induction a generalizing b with
  | nil => exact .inl List.nil_prefix
  | cons x a ih =>
    cases b with
    | nil => exact .inr (.inl List.nil_prefix)
    | cons y b =>
      by_cases same : x = y
      · subst same
        rcases ih b with before | before | ⟨c,u,s,v,l,ha,hb,apart⟩
        · exact .inl (List.cons_prefix_cons.mpr ⟨rfl,before⟩)
        · exact .inr (.inl (List.cons_prefix_cons.mpr ⟨rfl,before⟩))
        · exact .inr (.inr ⟨x::c,u,s,v,l,by rw [ha]; rfl,by rw [hb]; rfl,apart⟩)
      · exact .inr (.inr ⟨[],x,a,y,b,rfl,rfl,same⟩)

/- What both begin with ends before the place where they part. -/
theorem sharedBefore {c d s l : List α} {x y : α} (apart : x ≠ y) (left : d <+: c ++ x::s)
    (right : d <+: c ++ y::l) : d <+: c := by
  rcases List.prefix_or_prefix_of_prefix left (List.prefix_append c (x::s)) with inside | ⟨e,split⟩
  · exact inside
  · subst split
    cases e with
    | nil => exact ⟨[],by rw [List.append_nil,List.append_nil]⟩
    | cons z e =>
      have first := (List.cons_prefix_cons.mp ((List.prefix_append_right_inj c).mp left)).1
      have second := (List.cons_prefix_cons.mp ((List.prefix_append_right_inj c).mp right)).1
      exact absurd (first.symm.trans second) apart

variable [LT α] [Std.Asymm fun x y : α => x < y]

theorem appendLess (c a b : List α) : c ++ a < c ++ b ↔ a < b := by
  constructor
  · intro less
    induction c with
    | nil => exact less
    | cons x c ih =>
      rcases List.cons_lt_cons_iff.mp less with head | ⟨_,tail⟩
      · exact absurd head (Std.Asymm.asymm x x head)
      · exact ih tail
  · exact List.append_left_lt

variable [Std.Trichotomous fun x y : α => x < y]

/- What lies between two lists with a common part has that part too. -/
theorem betweenKeeps {c a b t : List α} (low : c ++ a ≤ t) (high : t < c ++ b) :
    ∃ t', t = c ++ t' ∧ a ≤ t' ∧ t' < b := by
  induction c generalizing t with
  | nil => exact ⟨t,rfl,low,high⟩
  | cons x c ih =>
    cases t with
    | nil => exact absurd (List.nil_lt_cons x (c ++ a)) low
    | cons z t =>
      have below := List.cons_lt_cons_iff.mp high
      rcases List.cons_le_cons_iff.mp low with less | ⟨same,low'⟩
      · rcases below with more | ⟨same,_⟩
        · exact absurd more (Std.Asymm.asymm x z less)
        · subst same
          exact absurd less (Std.Asymm.asymm z z less)
      · subst same
        have irrefl : ¬ x < x := fun less => Std.Asymm.asymm x x less less
        obtain ⟨t',split,low'',high'⟩ := ih low' (below.resolve_left irrefl).2
        exact ⟨t',by rw [split,List.cons_append],low'',high'⟩

end Support.Lexicographic
