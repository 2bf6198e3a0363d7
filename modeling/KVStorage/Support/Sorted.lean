/-! Sorted lists cut by a test that is closed downwards: the part that passes
comes first, and each part keeps the order. -/
namespace Support.Sorted

variable {α : Type} {lt : α → α → Prop} {p : α → Bool} {l : List α}

theorem failsAfter {a rest} (sorted : (a::rest).Pairwise lt)
    (closed : ∀ a b, lt a b → p b = true → p a = true) (fails : p a = false) :
    ∀ b ∈ rest, p b = false := by
  intro b mem
  cases passes : p b with
  | false => rfl
  | true =>
    have up := closed a b ((List.pairwise_cons.mp sorted).1 b mem) passes
    rw [fails] at up
    contradiction

theorem split (sorted : l.Pairwise lt) (closed : ∀ a b, lt a b → p b = true → p a = true) :
    l = l.filter p ++ l.filter (fun a => !p a) := by
  induction l with
  | nil => rfl
  | cons a rest ih =>
    cases here : p a with
    | true =>
      have tail := ih (List.pairwise_cons.mp sorted).2
      simp only [List.filter_cons,here,Bool.not_true,if_true,Bool.false_eq_true,if_false,
        List.cons_append]
      rw [← tail]
    | false =>
      have later := failsAfter sorted closed here
      have none : rest.filter p = [] := List.filter_eq_nil_iff.mpr (by simpa using later)
      have all : rest.filter (fun a => !p a) = rest :=
        List.filter_eq_self.mpr (by simpa using later)
      simp [here,none,all]

/- What stands behind an element is what is greater. -/
theorem greaterRest [DecidableRel lt] {front rest : List α} {a : α} (sorted : (front ++ a::rest).Pairwise lt)
    (irrefl : ¬ lt a a) (asymm : ∀ b, lt b a → ¬ lt a b) :
    (front ++ a::rest).filter (fun b => decide (lt a b)) = rest := by
  have parts := List.pairwise_append.mp sorted
  have before : front.filter (fun b => decide (lt a b)) = [] := by
    apply List.filter_eq_nil_iff.mpr
    intro b mem
    simpa using asymm b (parts.2.2 b mem a (by simp))
  have behind : rest.filter (fun b => decide (lt a b)) = rest :=
    List.filter_eq_self.mpr (fun b mem => decide_eq_true ((List.pairwise_cons.mp parts.2.1).1 b mem))
  simp [before,behind,irrefl]

/- What stands before an element is what is less. -/
theorem lesserFront [DecidableRel lt] {front rest : List α} {a : α} (sorted : (front ++ a::rest).Pairwise lt)
    (irrefl : ¬ lt a a) (asymm : ∀ b, lt a b → ¬ lt b a) :
    (front ++ a::rest).filter (fun b => decide (lt b a)) = front := by
  have parts := List.pairwise_append.mp sorted
  have before : front.filter (fun b => decide (lt b a)) = front :=
    List.filter_eq_self.mpr (fun b mem => decide_eq_true (parts.2.2 b mem a List.mem_cons_self))
  have behind : rest.filter (fun b => decide (lt b a)) = [] := by
    apply List.filter_eq_nil_iff.mpr
    intro b mem
    simpa using asymm b ((List.pairwise_cons.mp parts.2.1).1 b mem)
  simp [before,behind,irrefl]

/- A loop that stops at the first element to fail misses none that pass. -/
theorem stopsExactly (sorted : l.Pairwise lt) (closed : ∀ a ∈ l, ∀ b ∈ l, lt a b → p b = true → p a = true) :
    l.takeWhile p = l.filter p := by
  induction l with
  | nil => rfl
  | cons a rest ih =>
    obtain ⟨first,later⟩ := List.pairwise_cons.mp sorted
    cases here : p a with
    | true =>
      have tail := ih later (fun b hb c hc => closed b (List.mem_cons_of_mem a hb) c (List.mem_cons_of_mem a hc))
      rw [List.takeWhile_cons_of_pos here,List.filter_cons_of_pos here,tail]
    | false =>
      have none : ∀ b ∈ rest, ¬ p b = true := by
        intro b mem passes
        have up := closed a List.mem_cons_self b (List.mem_cons_of_mem a mem) (first b mem) passes
        rw [here] at up
        contradiction
      simp [here,List.filter_eq_nil_iff.mpr none]

theorem headLeast {q : α → Bool} (sorted : l.Pairwise lt) {a} (head : (l.filter q).head? = some a) :
    a ∈ l ∧ q a = true ∧ ∀ b ∈ l, q b = true → b = a ∨ lt a b := by
  obtain ⟨rest,eq⟩ : ∃ rest, l.filter q = a::rest := by
    cases hf : l.filter q with
    | nil => simp [hf] at head
    | cons b rest => simp [hf] at head; exact ⟨rest,by rw [head]⟩
  have here : a ∈ l.filter q := by rw [eq]; exact List.mem_cons_self
  have kept : (a::rest).Pairwise lt := eq ▸ sorted.filter q
  refine ⟨(List.mem_filter.mp here).1,(List.mem_filter.mp here).2,?_⟩
  intro b mem hb
  have inside : b ∈ a::rest := eq ▸ List.mem_filter.mpr ⟨mem,hb⟩
  rcases List.mem_cons.mp inside with same | later
  · exact .inl same
  · exact .inr ((List.pairwise_cons.mp kept).1 b later)

theorem lastGreatest {q : α → Bool} (sorted : l.Pairwise lt) {a}
    (last : (l.filter q).getLast? = some a) :
    a ∈ l ∧ q a = true ∧ ∀ b ∈ l, q b = true → b = a ∨ lt b a := by
  obtain ⟨front,eq⟩ := List.getLast?_eq_some_iff.mp last
  have here : a ∈ l.filter q := by rw [eq]; simp
  have kept : (front ++ [a]).Pairwise lt := eq ▸ sorted.filter q
  refine ⟨(List.mem_filter.mp here).1,(List.mem_filter.mp here).2,?_⟩
  intro b mem hb
  have inside : b ∈ front ++ [a] := eq ▸ List.mem_filter.mpr ⟨mem,hb⟩
  rcases List.mem_append.mp inside with earlier | same
  · exact .inr ((List.pairwise_append.mp kept).2.2 b earlier a (by simp))
  · exact .inl (by simpa using same)

end Support.Sorted
