/-! Unbounded loops with a round limit. A body either asks for another round or
leaves with a result; the limit is a third way to end, kept apart from both, so
a theorem about a loop has to show that the limit is not met. -/
namespace Support.Loop

inductive Step (σ ρ : Type) where
  | again (s : σ)
  | done (r : ρ)
  deriving DecidableEq, Repr

def run {σ ρ ε : Type} (body : σ → Except ε (Step σ ρ)) (limit : ε) : Nat → σ → Except ε ρ
  | 0, _ => .error limit
  | fuel+1, s =>
    match body s with
    | .error e => .error e
    | .ok (.again t) => run body limit fuel t
    | .ok (.done r) => .ok r

variable {σ ρ ε : Type} {body : σ → Except ε (Step σ ρ)} {limit : ε}

/- The bound is an index of the invariant, so that it may speak of ghost data
the state does not carry. -/
theorem total {inv : Nat → σ → Prop} {post : ρ → Prop}
    (step : ∀ n s, inv n s →
      (∃ t k, body s = .ok (.again t) ∧ k < n ∧ inv k t) ∨ (∃ r, body s = .ok (.done r) ∧ post r))
    {n fuel : Nat} {s : σ} (start : inv n s) (enough : n < fuel) :
    ∃ r, run body limit fuel s = .ok r ∧ post r := by
  induction fuel generalizing n s with
  | zero => omega
  | succ fuel ih =>
    rcases step n s start with ⟨t,k,hb,less,next⟩ | ⟨r,hb,good⟩
    · obtain ⟨r,hr,good⟩ := ih next (by omega)
      exact ⟨r,by simp only [run,hb,hr],good⟩
    · exact ⟨r,by simp only [run,hb],good⟩

/- From the round in which the loop leaves back to the first one. -/
theorem backwards {motive : σ → Prop} {r : ρ} (again : ∀ s t, body s = .ok (.again t) → motive t → motive s)
    (done : ∀ s, body s = .ok (.done r) → motive s) {fuel : Nat} {s : σ} (left : run body limit fuel s = .ok r) :
    motive s := by
  induction fuel generalizing s with
  | zero => cases left
  | succ fuel ih =>
    rw [run] at left
    cases round : body s with
    | error e =>
      rw [round] at left
      cases left
    | ok step =>
      rw [round] at left
      cases step with
      | again t => exact again s t round (ih left)
      | done r' =>
        cases left
        exact done s round

/- A loop that has left takes no notice of a higher limit. -/
theorem more {fuel fuel' : Nat} {s : σ} {r : ρ} (left : run body limit fuel s = .ok r) (le : fuel ≤ fuel') :
    run body limit fuel' s = .ok r := by
  induction fuel generalizing fuel' s with
  | zero => cases left
  | succ fuel ih =>
    obtain ⟨rest,rfl⟩ : ∃ rest, fuel' = rest+1 := ⟨fuel'-1,by omega⟩
    rw [run] at left ⊢
    cases round : body s with
    | error e =>
      rw [round] at left
      cases left
    | ok step =>
      rw [round] at left
      cases step with
      | again t => exact ih left (Nat.le_of_succ_le_succ le)
      | done r' => exact left

end Support.Loop
