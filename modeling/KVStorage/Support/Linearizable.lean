import KVStorage.Support.Machine
import Mathlib.Logic.Function.Basic

/-! Objects that many threads call at once. The atomic machine lets a call take
effect in one step anywhere between its start and its return; what it shows are
the starts and the returns. An implementation is linearizable where every run of
it shows what some run of the atomic machine shows. -/
namespace Support.Linearizable

variable {σ θ Op Ret : Type}

inductive Phase (Op Ret : Type) where
  | idle
  | called (op : Op)
  | done (r : Ret)

/- What a thread shows of its calls. -/
inductive Mark (θ Op Ret : Type) where
  | call (i : θ) (op : Op)
  | back (i : θ) (r : Ret)

inductive Event (θ Op Ret : Type) where
  | shown (m : Mark θ Op Ret)
  | effect (i : θ) (op : Op) (r : Ret)

def Event.mark : Event θ Op Ret → Option (Mark θ Op Ret)
  | .shown m => some m
  | .effect .. => none

/- The calls in the order in which they take effect. -/
def Event.taken : Event θ Op Ret → Option (θ × Op × Ret)
  | .shown _ => none
  | .effect i op r => some (i,op,r)

structure State (σ θ Op Ret : Type) where
  object : σ
  phase : θ → Phase Op Ret

variable [DecidableEq θ] {apply : σ → θ × Op × Ret → σ → Prop}

inductive Step (apply : σ → θ × Op × Ret → σ → Prop) :
    State σ θ Op Ret → Event θ Op Ret → State σ θ Op Ret → Prop where
  | call {s i op} (idle : s.phase i = .idle) :
      Step apply s (.shown (.call i op)) {s with phase := Function.update s.phase i (.called op)}
  | effect {s i op r object} (called : s.phase i = .called op) (takes : apply s.object (i,op,r) object) :
      Step apply s (.effect i op r) ⟨object,Function.update s.phase i (.done r)⟩
  | back {s i r} (done : s.phase i = .done r) :
      Step apply s (.shown (.back i r)) {s with phase := Function.update s.phase i .idle}

/- The calls, taken one after the other in the order of their effects, make a
sequential run of the object. -/
theorem sequential {s t : State σ θ Op Ret} {es : List (Event θ Op Ret)} (run : Machine.Run (Step apply) s es t) :
    Machine.Run apply s.object (es.filterMap Event.taken) t.object := by
  induction run with
  | nil s => exact .nil _
  | cons head tail ih =>
    cases head with
    | call idle => exact ih
    | effect called takes => exact .cons takes ih
    | back done => exact ih

/- What was shown is explained by the events es, in which each call takes effect
once, between start and return, with the result that it returns. -/
def Linearized (apply : σ → θ × Op × Ret → σ → Prop) (object : σ) (es : List (Event θ Op Ret))
    (marks : List (Mark θ Op Ret)) : Prop :=
  ∃ t, Machine.Run (Step apply) ⟨object,fun _ => .idle⟩ es t ∧ es.filterMap Event.mark = marks ∧
    Machine.Run apply object (es.filterMap Event.taken) t.object

/- An implementation that says what each of its steps puts into effect, where these
are steps of the atomic machine with the same calls and returns to be seen. -/
theorem linearizes {τ α : Type} {step : τ → α → τ → Prop} {mark : α → Option (Mark θ Op Ret)}
    {effects : τ → α → List (Event θ Op Ret)} {R : τ → State σ θ Op Ret → Prop}
    (shows : ∀ s a, (effects s a).filterMap Event.mark = (mark a).toList)
    (forward : ∀ s a s' t, R s t → step s a s' → ∃ t', Machine.Run (Step apply) t (effects s a) t' ∧ R s' t')
    {s s' : τ} {as : List α} {object : σ} (start : R s ⟨object,fun _ => .idle⟩) (run : Machine.Run step s as s') :
    ∃ es, Machine.Traced step effects s as es s' ∧ Linearized apply object es (as.filterMap mark) := by
  obtain ⟨es,t,trace,atomic,_⟩ := Machine.traced forward start run
  exact ⟨es,trace,t,atomic,Machine.tracedSeen shows trace,sequential atomic⟩

/- The steps of a call that takes effect where it returns. -/
theorem takesBack {s : State σ θ Op Ret} {i : θ} {op : Op} {r : Ret} {object : σ} (called : s.phase i = .called op)
    (takes : apply s.object (i,op,r) object) :
    Machine.Run (Step apply) s [.effect i op r,.shown (.back i r)] ⟨object,Function.update s.phase i .idle⟩ := by
  have last : Step apply ⟨object,Function.update s.phase i (.done r)⟩ (.shown (.back i r))
      ⟨object,Function.update (Function.update s.phase i (.done r)) i .idle⟩ := .back (Function.update_self ..)
  rw [Function.update_idem] at last
  exact .cons (.effect called takes) (.cons last (.nil _))

end Support.Linearizable
