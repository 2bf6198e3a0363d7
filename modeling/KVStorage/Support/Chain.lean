import Mathlib.Data.List.Nodup

/-! Singly linked chains read through a link relation: `link x (some y)` says
that x points at y, `link x none` that x ends the chain. A cell that cannot be
read is linked to nothing. Several chains may share their cells. -/
namespace Support.Chain

variable {α : Type}

def Spells (link : α → Option α → Prop) : α → List α → Prop
  | x, [] => link x none
  | x, y::rest => link x (some y) ∧ Spells link y rest

variable {link other : α → Option α → Prop}

theorem mono {x l} (old : Spells link x l) (same : ∀ y ∈ x::l, ∀ z, link y z → other y z) :
    Spells other x l := by
  induction l generalizing x with
  | nil => exact same x (by simp) _ old
  | cons y rest ih =>
    exact ⟨same x (by simp) _ old.1,ih old.2 (fun z hz => same z (List.mem_cons_of_mem _ hz))⟩

theorem successor {x a b} (old : Spells link x (a ++ b)) : link (a.getLastD x) b.head? := by
  induction a generalizing x with
  | nil =>
    cases b with
    | nil => exact old
    | cons y rest => exact old.1
  | cons y rest ih =>
    rw [List.getLastD_cons]
    exact ih old.2

theorem unique (functional : ∀ x y z, link x y → link x z → y = z) {x a b}
    (left : Spells link x a) (right : Spells link x b) : a = b := by
  induction a generalizing x b with
  | nil =>
    cases b with
    | nil => rfl
    | cons y rest => cases functional x _ _ left right.1
  | cons y rest ih =>
    cases b with
    | nil => cases functional x _ _ left.1 right
    | cons z tail =>
      cases functional x _ _ left.1 right.1
      rw [ih left.2 right.2]

/- The new cell n goes between the last cell of a and the first of b. Only the
predecessor's link is rewritten, every other cell keeps the link it had. -/
theorem splice {x n a b} (old : Spells link x (a ++ b)) (distinct : (x::(a ++ b)).Nodup)
    (into : other (a.getLastD x) (some n)) (out : other n b.head?)
    (same : ∀ y ∈ x::(a ++ b), y ≠ a.getLastD x → ∀ z, link y z → other y z) :
    Spells other x (a ++ n::b) := by
  induction a generalizing x with
  | nil =>
    refine ⟨into,?_⟩
    cases b with
    | nil => exact out
    | cons y rest =>
      refine ⟨out,mono old.2 ?_⟩
      intro z hz
      have apart : z ≠ x := fun eq => (List.nodup_cons.mp distinct).1 (by simpa [← eq] using hz)
      exact same z (List.mem_cons_of_mem _ hz) apart
  | cons y rest ih =>
    obtain ⟨fresh,tail⟩ := List.nodup_cons.mp distinct
    rw [List.getLastD_cons] at into same
    have apart : x ≠ rest.getLastD y := by
      intro eq
      have last : rest.getLastD y ∈ y::rest := List.getLastD_mem_cons ..
      exact fresh (List.mem_append_left _ (eq ▸ last))
    refine ⟨same x (by simp) apart _ old.1,ih old.2 tail into ?_⟩
    exact fun z hz => same z (List.mem_cons_of_mem _ hz)

end Support.Chain
