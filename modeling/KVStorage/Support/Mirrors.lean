import KVStorage.Support.Loop
import KVStorage.Support.Machine
import Mathlib.Data.Option.Basic

/-! A fallible program kept step with by another one: where the first has a result
the second has a related one or fails in a way that is excused. Nothing is asked
of the second where the first faults. -/
namespace Support

variable {α β γ δ ε φ ψ σ τ : Type}

def Mirrors (excuse : φ → Prop) (R : α → β → Prop) (x : Except ε α) (y : Except φ β) : Prop :=
  ∀ a, x = .ok a → (∃ b, y = .ok b ∧ R a b) ∨ ∃ f, y = .error f ∧ excuse f

namespace Mirrors

variable {excuse : φ → Prop} {R : α → β → Prop} {S : γ → δ → Prop} {x : Except ε α} {y : Except φ β}

theorem done {a : α} {b : β} (related : R a b) : Mirrors excuse R (.ok a : Except ε α) (.ok b) := by
  intro a' same
  cases same
  exact .inl ⟨b,rfl,related⟩

theorem faulted (e : ε) : Mirrors excuse R (.error e) y := by
  intro a same
  cases same

theorem excused {f : φ} (allowed : excuse f) : Mirrors excuse R x (.error f) := by
  intro a same
  exact .inr ⟨f,rfl,allowed⟩

theorem bound {f : α → Except ε γ} {g : β → Except φ δ} (first : Mirrors excuse R x y)
    (rest : ∀ a b, R a b → Mirrors excuse S (f a) (g b)) : Mirrors excuse S (x >>= f) (y >>= g) := by
  intro c whole
  obtain ⟨a,ran,last⟩ := Machine.okBind whole
  rcases first a ran with ⟨b,ran',related⟩ | ⟨e,failed,allowed⟩
  · rw [ran']
    exact rest a b related c last
  · rw [failed]
    exact .inr ⟨e,rfl,allowed⟩

theorem weaker {R' : α → β → Prop} (first : Mirrors excuse R x y) (less : ∀ a b, R a b → R' a b) :
    Mirrors excuse R' x y := by
  intro a ran
  exact (first a ran).imp (fun ⟨b,ran',related⟩ => ⟨b,ran',less a b related⟩) id

theorem choice {p : Prop} [Decidable p] {x' : Except ε α} {y' : Except φ β} (yes : p → Mirrors excuse R x y)
    (no : ¬ p → Mirrors excuse R x' y') : Mirrors excuse R (if p then x else x') (if p then y else y') := by
  by_cases h : p
  · rw [if_pos h,if_pos h]
    exact yes h
  · rw [if_neg h,if_neg h]
    exact no h

theorem mapped {f : α → γ} {g : β → δ} (first : Mirrors excuse R x y) (keep : ∀ a b, R a b → S (f a) (g b)) :
    Mirrors excuse S (f <$> x) (g <$> y) := by
  intro c ran
  cases x with
  | error e => cases ran
  | ok a =>
    cases ran
    rcases first a rfl with ⟨b,ran',related⟩ | ⟨e,failed,allowed⟩
    · subst ran'
      exact .inl ⟨g b,rfl,keep a b related⟩
    · subst failed
      exact .inr ⟨e,rfl,allowed⟩

/- A program that cannot fail follows also where its faults are renamed. -/
theorem renamed {y : Except ψ β} (first : Mirrors (fun _ => False) R x y) (name : ψ → φ) :
    Mirrors excuse R x (y.mapError name) := by
  intro a ran
  rcases first a ran with ⟨b,ran',related⟩ | ⟨f,_,never⟩
  · rw [ran']
    exact .inl ⟨b,rfl,related⟩
  · exact never.elim

theorem along {Q : σ → τ → Prop} {step : σ → α → Except ε σ} {step' : τ → α → Except φ τ} (as : List α)
    (forward : ∀ s t a, a ∈ as → Q s t → Mirrors excuse Q (step s a) (step' t a)) {s : σ} {t : τ} (start : Q s t) :
    Mirrors excuse Q (as.foldlM step s) (as.foldlM step' t) := by
  induction as generalizing s t with
  | nil => exact done start
  | cons a as ih =>
    simp only [List.foldlM_cons]
    have later := fun s t b mem => forward s t b (List.mem_cons_of_mem a mem)
    exact bound (forward s t a List.mem_cons_self start) fun s' t' next => ih later next

/- A run whose extra calls change nothing that the other one sees. What relates the
two may speak of the calls that are left, and what excuses a call of the state that
it is made in; a run that fails then stops at such a call. -/
theorem run {Q : List β → σ → τ → Prop} {why : τ → β → φ → Prop} {see : β → Option α} {step : σ → α → Except ε σ}
    {step' : τ → β → Except φ τ}
    (seen : ∀ s t a b bs, see b = some a → Q (b::bs) s t → Mirrors (why t b) (Q bs) (step s a) (step' t b))
    (unseen : ∀ s t b bs, see b = none → Q (b::bs) s t → Mirrors (why t b) (Q bs) (.ok s : Except ε σ) (step' t b))
    (bs : List β) {s : σ} {t : τ} (start : Q bs s t) :
    Mirrors (fun f => Machine.Stops step' (fun u b => why u b f) t bs) (Q [])
      ((bs.filterMap see).foldlM step s) (bs.foldlM step' t) := by
  induction bs generalizing s t with
  | nil => exact done start
  | cons b bs ih =>
    have further : ∀ {x : Except ε σ} {rest : σ → Except ε σ},
        Mirrors (why t b) (Q bs) x (step' t b) → (∀ s', rest s' = (bs.filterMap see).foldlM step s') →
        Mirrors (fun f => Machine.Stops step' (fun u b => why u b f) t (b::bs)) (Q []) (x >>= rest)
          ((b::bs).foldlM step' t) := by
      intro x rest first same s2 whole
      obtain ⟨s1,ran,last⟩ := Machine.okBind whole
      rw [same] at last
      rw [List.foldlM_cons]
      rcases first s1 ran with ⟨t1,ran',next⟩ | ⟨f,failed,reason⟩
      · rw [ran']
        exact (ih next s2 last).imp id fun ⟨f,failed,later⟩ => ⟨f,failed,Machine.stopsLater ran' later⟩
      · rw [failed]
        exact .inr ⟨f,rfl,Machine.stopsHere reason⟩
    cases h : see b with
    | none =>
      rw [List.filterMap_cons_none h]
      exact further (unseen s t b bs h start) fun _ => rfl
    | some a =>
      rw [List.filterMap_cons_some h,List.foldlM_cons]
      exact further (seen s t a b bs h start) fun _ => rfl

inductive Round (Q : σ → τ → Prop) (R : α → β → Prop) : Loop.Step σ α → Loop.Step τ β → Prop where
  | again {s t} (next : Q s t) : Round Q R (.again s) (.again t)
  | done {a b} (related : R a b) : Round Q R (.done a) (.done b)

/- Loops that go round together; the second may be given more rounds. -/
theorem loop {Q : σ → τ → Prop} {body : σ → Except ε (Loop.Step σ α)} {body' : τ → Except φ (Loop.Step τ β)}
    {limit : ε} {limit' : φ} (forward : ∀ s t, Q s t → Mirrors excuse (Round Q R) (body s) (body' t))
    {fuel fuel' : Nat} (enough : fuel ≤ fuel') {s : σ} {t : τ} (start : Q s t) :
    Mirrors excuse R (Loop.run body limit fuel s) (Loop.run body' limit' fuel' t) := by
  induction fuel generalizing fuel' s t with
  | zero => exact faulted limit
  | succ fuel ih =>
    obtain ⟨rest,split⟩ : ∃ rest, fuel' = rest+1 := ⟨fuel'-1,by omega⟩
    subst split
    intro a left
    rw [Loop.run] at left ⊢
    cases round : body s with
    | error e =>
      rw [round] at left
      cases left
    | ok step =>
      rw [round] at left
      rcases forward s t start step round with ⟨step',round',related⟩ | ⟨f,failed,allowed⟩
      · rw [round']
        cases related with
        | again next => exact ih (Nat.le_of_succ_le_succ enough) next a left
        | done related =>
          cases left
          exact .inl ⟨_,rfl,related⟩
      · rw [failed]
        exact .inr ⟨f,rfl,allowed⟩

end Mirrors
end Support
