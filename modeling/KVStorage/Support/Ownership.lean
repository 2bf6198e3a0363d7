import Mathlib.Logic.Function.Basic
import Mathlib.Logic.Equiv.Basic

/-! Unique ownership: a heap of live cells, and holders each with at most one of
them. Every cell held is live, no two holders share one, and none is without a
holder. Taking a free cell, giving one up and exchanging cells keep this. -/
namespace Support.Ownership

variable {ι η β : Type}

structure Owned (live : η → Option β) (owner : ι → Option η) : Prop where
  held : ∀ i h, owner i = some h → ∃ b, live h = some b
  alone : ∀ i j h, owner i = some h → owner j = some h → i = j
  covered : ∀ h b, live h = some b → ∃ i, owner i = some h

/- What each holder sees. -/
def content (live : η → Option β) (owner : ι → Option η) (i : ι) : Option β := (owner i).bind live

theorem emptyOwned : Owned (fun _ : η => (none : Option β)) (fun _ : ι => none) := ⟨nofun,nofun,nofun⟩

variable {live : η → Option β} {owner : ι → Option η} {i j : ι} {h : η}

theorem contentSome (owned : Owned live owner) (has : owner i = some h) :
    ∃ b, live h = some b ∧ content live owner i = some b := by
  obtain ⟨b,there⟩ := owned.held i h has
  exact ⟨b,there,by rw [content,has,Option.bind_some,there]⟩

theorem heldApart (owned : Owned live owner) {g : η} (holds : owner i = some g) (free : live h = none) : g ≠ h := by
  intro eq
  obtain ⟨b,there⟩ := owned.held i g holds
  rw [eq,free] at there
  cases there

theorem exchangeOwned (owned : Owned live owner) (e : Equiv.Perm ι) : Owned live (owner ∘ e) where
  held i h has := owned.held (e i) h has
  alone i j h first second := e.injective (owned.alone (e i) (e j) h first second)
  covered h b there := by
    obtain ⟨i,has⟩ := owned.covered h b there
    exact ⟨e.symm i,by rw [Function.comp_apply,Equiv.apply_symm_apply,has]⟩

variable [DecidableEq ι] [DecidableEq η]

/- Two holders exchange their cells; a move to a holder without one is such an
exchange too. -/
theorem swapUpdates {γ : Type} (f : ι → γ) (i j : ι) :
    Function.update (Function.update f i (f j)) j (f i) = f ∘ Equiv.swap i j := by
  funext k
  by_cases atJ : k = j
  · subst atJ
    rw [Function.update_self,Function.comp_apply,Equiv.swap_apply_right]
  · by_cases atI : k = i
    · subst atI
      rw [Function.update_of_ne atJ,Function.update_self,Function.comp_apply,Equiv.swap_apply_left]
    · rw [Function.update_of_ne atJ,Function.update_of_ne atI,Function.comp_apply,Equiv.swap_apply_of_ne_of_ne atI atJ]

theorem updateCases {κ γ : Type} [DecidableEq κ] {f : κ → γ} {i k : κ} {x y : γ}
    (holds : Function.update f i x k = y) : (k = i ∧ x = y) ∨ (k ≠ i ∧ f k = y) := by
  by_cases here : k = i
  · subst here
    rw [Function.update_self] at holds
    exact .inl ⟨rfl,holds⟩
  · rw [Function.update_of_ne here] at holds
    exact .inr ⟨here,holds⟩

section Release

theorem releaseOwned (owned : Owned live owner) (has : owner i = some h) :
    Owned (Function.update live h none) (Function.update owner i none) := by
  have others : ∀ k g, Function.update owner i none k = some g → g ≠ h ∧ owner k = some g := by
    intro k g holds
    rcases updateCases holds with ⟨_,nothing⟩ | ⟨apart,before⟩
    · cases nothing
    · exact ⟨fun eq => apart (owned.alone k i h (eq ▸ before) has),before⟩
  constructor
  · intro k g holds
    obtain ⟨different,before⟩ := others k g holds
    rw [Function.update_of_ne different]
    exact owned.held k g before
  · intro k l g first second
    exact owned.alone k l g (others k g first).2 (others l g second).2
  · intro g b there
    rcases updateCases there with ⟨_,nothing⟩ | ⟨different,before⟩
    · cases nothing
    · obtain ⟨k,holds⟩ := owned.covered g b before
      have apart : k ≠ i := fun eq => different (Option.some.inj (holds.symm.trans (eq ▸ has)))
      exact ⟨k,by rw [Function.update_of_ne apart,holds]⟩

theorem releaseContent (owned : Owned live owner) (has : owner i = some h) :
    content (Function.update live h none) (Function.update owner i none) =
      Function.update (content live owner) i none := by
  funext k
  by_cases here : k = i
  · subst here
    simp only [content,Function.update_self,Option.bind_none]
  · simp only [content,Function.update_of_ne here]
    cases holds : owner k with
    | none => rfl
    | some g =>
      have different : g ≠ h := fun eq => here (owned.alone k i h (eq ▸ holds) has)
      rw [Option.bind_some,Option.bind_some,Function.update_of_ne different]

end Release

section Take

variable {b : β}

theorem takeOwned (owned : Owned live owner) (idle : owner i = none) (free : live h = none) :
    Owned (Function.update live h (some b)) (Function.update owner i (some h)) := by
  have holders : ∀ k g, Function.update owner i (some h) k = some g →
      (k = i ∧ g = h) ∨ (g ≠ h ∧ owner k = some g) := by
    intro k g holds
    rcases updateCases holds with ⟨here,mine⟩ | ⟨_,before⟩
    · exact .inl ⟨here,(Option.some.inj mine).symm⟩
    · exact .inr ⟨heldApart owned before free,before⟩
  constructor
  · intro k g holds
    rcases holders k g holds with ⟨_,mine⟩ | ⟨different,before⟩
    · exact ⟨b,by rw [mine,Function.update_self]⟩
    · rw [Function.update_of_ne different]
      exact owned.held k g before
  · intro k l g first second
    rcases holders k g first with ⟨here,mine⟩ | ⟨different,before⟩
    · rcases holders l g second with ⟨here',_⟩ | ⟨different,_⟩
      · exact here.trans here'.symm
      · exact absurd mine different
    · rcases holders l g second with ⟨_,mine⟩ | ⟨_,before'⟩
      · exact absurd mine different
      · exact owned.alone k l g before before'
  · intro g c there
    rcases updateCases there with ⟨mine,_⟩ | ⟨_,before⟩
    · exact ⟨i,by rw [mine,Function.update_self]⟩
    · obtain ⟨k,holds⟩ := owned.covered g c before
      have apart : k ≠ i := by
        intro here
        rw [here,idle] at holds
        cases holds
      exact ⟨k,by rw [Function.update_of_ne apart,holds]⟩

theorem takeContent (owned : Owned live owner) (free : live h = none) :
    content (Function.update live h (some b)) (Function.update owner i (some h)) =
      Function.update (content live owner) i (some b) := by
  funext k
  by_cases here : k = i
  · subst here
    simp only [content,Function.update_self,Option.bind_some]
  · simp only [content,Function.update_of_ne here]
    cases holds : owner k with
    | none => rfl
    | some g =>
      rw [Option.bind_some,Option.bind_some,Function.update_of_ne (heldApart owned holds free)]

end Take
end Support.Ownership
