/-! Runs of machines: a relation between states for each call, and deterministic
machines whose calls may fault or give answers. A call is legal where its
precondition holds in the state it meets. -/
namespace Support.Machine

variable {σ τ α β ε : Type}

inductive Run (step : σ → α → σ → Prop) : σ → List α → σ → Prop where
  | nil (s) : Run step s [] s
  | cons {s a t as u} (head : step s a t) (tail : Run step t as u) : Run step s (a::as) u

def Legal (pre : σ → α → Prop) (step : σ → α → Except ε σ) : σ → List α → Prop
  | _, [] => True
  | s, a::as => pre s a ∧ ∀ t, step s a = .ok t → Legal pre step t as

theorem okBind {ρ : Type} {x : Except ε α} {f : α → Except ε ρ} {r : ρ} (ok : (x >>= f) = .ok r) :
    ∃ a, x = .ok a ∧ f a = .ok r := by
  cases x with
  | error e => cases ok
  | ok a => exact ⟨a,rfl,ok⟩

theorem legalCons {pre : σ → α → Prop} {step : σ → α → Except ε σ} {s t a as} (here : pre s a)
    (move : step s a = .ok t) (rest : Legal pre step t as) : Legal pre step s (a::as) := by
  refine ⟨here,?_⟩
  intro u other
  cases Except.ok.inj (move.symm.trans other)
  exact rest

/- One call of the concrete machine matches one of the abstract machine, so a
legal run does not fault and matches an abstract run. -/
theorem simulation {pre : σ → α → Prop} {step : σ → α → Except ε σ} {astep : τ → β → τ → Prop}
    {view : α → β} {R : σ → τ → Prop}
    (forward : ∀ s t a, R s t → pre s a → ∃ s' t', step s a = .ok s' ∧ astep t (view a) t' ∧ R s' t')
    {s t as} (start : R s t) (legal : Legal pre step s as) :
    ∃ s' t', as.foldlM step s = .ok s' ∧ Run astep t (as.map view) t' ∧ R s' t' := by
  induction as generalizing s t with
  | nil => exact ⟨s,t,rfl,.nil t,start⟩
  | cons a as ih =>
    obtain ⟨s1,t1,move,amove,next⟩ := forward s t a start legal.1
    obtain ⟨s2,t2,run,arun,last⟩ := ih next (legal.2 s1 move)
    have whole : (a::as).foldlM step s = .ok s2 := by
      simp only [List.foldlM_cons,move,bind,Except.bind]
      exact run
    exact ⟨s2,t2,whole,.cons amove arun,last⟩

/- What every legal call keeps, without a fault, holds after every legal run. -/
theorem legalRun {pre : σ → α → Prop} {step : σ → α → Except ε σ} {Kept : σ → Prop}
    (keeps : ∀ s a, Kept s → pre s a → ∃ t, step s a = .ok t ∧ Kept t) {s as} (start : Kept s)
    (legal : Legal pre step s as) : ∃ t, as.foldlM step s = .ok t ∧ Kept t := by
  induction as generalizing s with
  | nil => exact ⟨s,rfl,start⟩
  | cons a as ih =>
    obtain ⟨t,move,next⟩ := keeps s a start legal.1
    obtain ⟨u,run,last⟩ := ih next (legal.2 t move)
    rw [List.foldlM_cons,move]
    exact ⟨u,run,last⟩

/- Every call of a legal run is met in a state that has what legal calls keep. -/
theorem legalMeets {pre : σ → α → Prop} {step : σ → α → Except ε σ} {Kept : σ → Prop}
    (keeps : ∀ s a, Kept s → pre s a → ∃ t, step s a = .ok t ∧ Kept t) {s a before after} (start : Kept s)
    (legal : Legal pre step s (before ++ a::after)) : ∃ t, before.foldlM step s = .ok t ∧ Kept t ∧ pre t a := by
  induction before generalizing s with
  | nil => exact ⟨s,rfl,start,legal.1⟩
  | cons b before ih =>
    obtain ⟨t,move,next⟩ := keeps s b start legal.1
    obtain ⟨u,run,last⟩ := ih next (legal.2 t move)
    rw [List.foldlM_cons,move]
    exact ⟨u,run,last⟩

/- A run comes to a call that fails for the reason given, in the state which the
calls before it reach. -/
def Stops (step : σ → α → Except ε σ) (why : σ → α → Prop) (s : σ) (as : List α) : Prop :=
  ∃ before a after t, as = before ++ a::after ∧ before.foldlM step s = .ok t ∧ why t a

section Stopping

variable {step : σ → α → Except ε σ} {why : σ → α → Prop} {s t : σ} {a : α}

theorem stopsHere {as : List α} (reason : why s a) : Stops step why s (a::as) := ⟨[],a,as,s,rfl,rfl,reason⟩

theorem stopsLater {as : List α} (move : step s a = .ok t) (later : Stops step why t as) :
    Stops step why s (a::as) := by
  obtain ⟨before,b,after,u,split,run,reason⟩ := later
  have whole : (a::before).foldlM step s = .ok u := by
    rw [List.foldlM_cons,move]
    exact run
  exact ⟨a::before,b,after,u,by rw [split,List.cons_append],whole,reason⟩

end Stopping

/- A machine whose next state is a function of the call runs as a fold. -/
theorem runFold {f : σ → α → σ} {s t : σ} {as : List α} (run : Run (fun s a t => t = f s a) s as t) :
    t = as.foldl f s := by
  induction run with
  | nil => rfl
  | cons head tail ih =>
    rw [List.foldl_cons,← head]
    exact ih

theorem runSnoc {step : σ → α → σ → Prop} {s t u as a} (run : Run step s as t) (last : step t a u) :
    Run step s (as ++ [a]) u := by
  induction run with
  | nil => exact .cons last (.nil _)
  | cons head tail ih => exact .cons head (ih last)

theorem runAppend {step : σ → α → σ → Prop} {s t u as bs} (left : Run step s as t) (right : Run step t bs u) :
    Run step s (as ++ bs) u := by
  induction left with
  | nil => exact right
  | cons head tail ih => exact .cons head (ih right)

theorem runHead {step : σ → α → σ → Prop} {Ends : σ → Prop} {s t a as} (head : step s a t)
    (rest : ∃ u, Run step t as u ∧ Ends u) : ∃ u, Run step s (a::as) u ∧ Ends u := by
  obtain ⟨u,tail,ends⟩ := rest
  exact ⟨u,.cons head tail,ends⟩

/- What the steps of a run stand for, put together in their order. -/
inductive Traced (step : σ → α → σ → Prop) (view : σ → α → List β) : σ → List α → List β → σ → Prop where
  | nil (s) : Traced step view s [] [] s
  | cons {s a t as bs u} (head : step s a t) (tail : Traced step view t as bs u) :
      Traced step view s (a::as) (view s a ++ bs) u

/- Each step of the concrete machine is matched by the very steps of the abstract
one that it stands for, so each run is. -/
theorem traced {step : σ → α → σ → Prop} {astep : τ → β → τ → Prop} {view : σ → α → List β} {R : σ → τ → Prop}
    (forward : ∀ s a s' t, R s t → step s a s' → ∃ t', Run astep t (view s a) t' ∧ R s' t')
    {s t as s'} (start : R s t) (run : Run step s as s') :
    ∃ bs t', Traced step view s as bs s' ∧ Run astep t bs t' ∧ R s' t' := by
  induction run generalizing t with
  | nil s => exact ⟨[],t,.nil s,.nil t,start⟩
  | @cons s a u as s' head tail ih =>
    obtain ⟨t1,here,next⟩ := forward s a u t start head
    obtain ⟨bs,t2,trace,later,last⟩ := ih next
    exact ⟨view s a ++ bs,t2,.cons head trace,runAppend here later,last⟩

/- What is seen of the steps that a run stands for is what is seen of the run. -/
theorem tracedSeen {γ : Type} {step : σ → α → σ → Prop} {view : σ → α → List β} {see : α → Option γ}
    {asee : β → Option γ} (same : ∀ s a, (view s a).filterMap asee = (see a).toList) {s as bs s'}
    (trace : Traced step view s as bs s') : bs.filterMap asee = as.filterMap see := by
  induction trace with
  | nil => rfl
  | @cons s a t as bs u head tail ih =>
    rw [List.filterMap_append,same,ih]
    cases h : see a with
    | none => simp [h]
    | some c => simp [h]

/- Each step of the concrete machine is matched by a run of the abstract one that
looks the same, so each run is. -/
theorem stuttering {γ : Type} {step : σ → α → σ → Prop} {astep : τ → β → τ → Prop} {see : α → Option γ}
    {asee : β → Option γ} {R : σ → τ → Prop}
    (forward : ∀ s a s' t, R s t → step s a s' →
      ∃ bs t', Run astep t bs t' ∧ R s' t' ∧ bs.filterMap asee = (see a).toList)
    {s t as s'} (start : R s t) (run : Run step s as s') :
    ∃ bs t', Run astep t bs t' ∧ R s' t' ∧ bs.filterMap asee = as.filterMap see := by
  induction run generalizing t with
  | nil s => exact ⟨[],t,.nil t,start,rfl⟩
  | @cons s a u as s' head tail ih =>
    obtain ⟨bs1,t1,run1,next,seen1⟩ := forward s a u t start head
    obtain ⟨bs2,t2,run2,last,seen2⟩ := ih next
    have seen : (bs1 ++ bs2).filterMap asee = (a::as).filterMap see := by
      rw [List.filterMap_append,seen1,seen2]
      cases h : see a with
      | none => simp [h]
      | some c => simp [h]
    exact ⟨bs1 ++ bs2,t2,runAppend run1 run2,last,seen⟩

/- A bound on the steps that count: what each step keeps, with one more for a step
that counts, holds after a run with as many more as there were. -/
theorem countedRun {step : σ → α → σ → Prop} {pre : α → Prop} {counts : α → Bool} {Spent : σ → Nat → Prop}
    (forward : ∀ s a t n, Spent s n → pre a → step s a t → Spent t (n + (counts a).toNat)) {s t as n}
    (start : Spent s n) (all : ∀ a ∈ as, pre a) (run : Run step s as t) : Spent t (n + as.countP counts) := by
  induction run generalizing n with
  | nil => exact start
  | @cons s a u as t head tail ih =>
    have next := forward s a u n start (all a List.mem_cons_self) head
    have last := ih next (fun b mem => all b (List.mem_cons_of_mem a mem))
    have split : (a::as).countP counts = (counts a).toNat + as.countP counts := by
      cases h : counts a <;> simp [h,Nat.add_comm]
    rwa [split,← Nat.add_assoc]

/- Steps that can always be made and whose count is bounded come to an end. -/
theorem boundedEnds {step : σ → α → σ → Prop} {mine returns : α → Prop} {Spent : σ → Nat → Prop} {bound : Nat}
    (moves : ∀ s n, Spent s n → ∃ a t, step s a t ∧ mine a ∧ (returns a ∨ Spent t (n+1)))
    (bounded : ∀ s n, Spent s n → n ≤ bound) {s n} (start : Spent s n) :
    ∃ as a t, Run step s (as ++ [a]) t ∧ (∀ b ∈ as ++ [a], mine b) ∧ returns a := by
  induction left : bound + 1 - n generalizing s n with
  | zero =>
    have within := bounded s n start
    omega
  | succ k ih =>
    obtain ⟨a,t,move,own,ends | next⟩ := moves s n start
    · exact ⟨[],a,t,.cons move (.nil t),by simpa using own,ends⟩
    · obtain ⟨as,b,u,run,all,ends⟩ := ih next (by omega)
      exact ⟨a::as,b,u,.cons move run,by simpa using ⟨own,by simpa using all⟩,ends⟩

section Answers

/- The answers of a sequence of calls and the state it leaves. -/
def answers (step : α → σ → β × σ) : List α → σ → List β × σ
  | [], s => ([],s)
  | a::as, s =>
    let (b,t) := step a s
    let (bs,u) := answers step as t
    (b::bs,u)

/- The condition holds of every call in the state which the calls before it leave. -/
def Along (pre : α → σ → Prop) (step : α → σ → β × σ) : List α → σ → Prop
  | [], _ => True
  | a::as, s => pre a s ∧ Along pre step as (step a s).2

variable {f g step : α → σ → β × σ} {pre pre' : α → σ → Prop}

@[simp] theorem answersCons (a : α) (as : List α) (s : σ) : answers step (a::as) s =
    ((step a s).1 :: (answers step as (step a s).2).1,(answers step as (step a s).2).2) := rfl

theorem alongCongr (same : ∀ a s, pre a s ↔ pre' a s) (as : List α) (s : σ) :
    Along pre step as s ↔ Along pre' step as s := by
  induction as generalizing s with
  | nil => exact Iff.rfl
  | cons a as ih => exact and_congr (same a s) (ih _)

theorem alongAll (always : ∀ a s, pre a s) (as : List α) (s : σ) : Along pre step as s := by
  induction as generalizing s with
  | nil => exact trivial
  | cons a as ih => exact ⟨always a s,ih _⟩

theorem answersAgree {as : List α} {s : σ} (agree : Along (fun a s => f a s = g a s) g as s) :
    answers f as s = answers g as s := by
  induction as generalizing s with
  | nil => rfl
  | cons a as ih => simp only [answersCons,agree.1,ih agree.2]

theorem alongPrefix {as before : List α} {s : σ} (whole : Along pre step as s) (cut : before <+: as) :
    Along pre step before s := by
  induction before generalizing as s with
  | nil => exact trivial
  | cons a before ih =>
    obtain ⟨after,split⟩ := cut
    subst split
    exact ⟨whole.1,ih whole.2 ⟨after,rfl⟩⟩

/- Two machines cannot be told apart on any prefix of a sequence of calls exactly
where each of its calls does the same on both. Only the prefixes make this an
equivalence, as later calls may bring the states together again. -/
theorem agreeOnPrefixes (as : List α) (s : σ) :
    (∀ before, before <+: as → answers f before s = answers g before s) ↔
      Along (fun a s => f a s = g a s) g as s := by
  constructor
  · intro same
    induction as generalizing s with
    | nil => exact trivial
    | cons a as ih =>
      have first := same [a] ⟨as,rfl⟩
      have here : f a s = g a s := by
        simp only [answers,Prod.mk.injEq,List.cons.injEq,and_true] at first
        exact Prod.ext first.1 first.2
      have rest : ∀ before, before <+: as → answers f before (g a s).2 = answers g before (g a s).2 := by
        intro before cut
        have longer := same (a::before) (List.cons_prefix_cons.mpr ⟨rfl,cut⟩)
        simp only [answersCons,here,Prod.mk.injEq,List.cons.injEq,true_and] at longer
        exact Prod.ext longer.1 longer.2
      exact ⟨here,ih _ rest⟩
  · intro agree before cut
    exact answersAgree (alongPrefix agree cut)

end Answers
end Support.Machine
