import Requirements.Resolution.State

/-! How a run may end: what holds of its result, and what of its failure. -/
namespace Requirements

variable {ε σ α β : Type} {bad : ε → σ → Prop}

/-- A result is good, and a failure is as bad as it may be. -/
def Outcome (good : α → σ → Prop) (bad : ε → σ → Prop) : EStateM.Result ε σ α → Prop
  | .ok a state => good a state
  | .error failure state => bad failure state

theorem Outcome.mono {good better : α → σ → Prop} {result : EStateM.Result ε σ α}
    (outcome : Outcome good bad result) (implies : ∀ a state, result = .ok a state → good a state → better a state) :
    Outcome better bad result := by
  cases result with
  | ok a state => exact implies a state rfl outcome
  | error => exact outcome

theorem Outcome.failure_at {good : α → σ → Prop} {worse : ε → σ → Prop} {result : EStateM.Result ε σ α}
    (outcome : Outcome good bad result)
    (implies : ∀ failure state, result = .error failure state → bad failure state → worse failure state) :
    Outcome good worse result := by
  cases result with
  | ok => exact outcome
  | error failure state => exact implies failure state rfl outcome

theorem Outcome.failure {good : α → σ → Prop} {worse : ε → σ → Prop} {result : EStateM.Result ε σ α}
    (outcome : Outcome good bad result) (implies : ∀ failure state, bad failure state → worse failure state) :
    Outcome good worse result :=
  outcome.failure_at fun failure state _ => implies failure state

def fails [DecidableEq ε] (failure : ε) : EStateM.Result ε σ α → Bool
  | .ok _ _ => false
  | .error other _ => other = failure

theorem error_of_fails [DecidableEq ε] {failure : ε} {result : EStateM.Result ε σ α}
    (failed : fails failure result) : ∃ final, result = .error failure final := by
  cases result with
  | ok => cases failed
  | error other final => exact ⟨final, congrArg (EStateM.Result.error · final) (of_decide_eq_true failed)⟩

theorem outcome_bind {between : α → σ → Prop} {good : β → σ → Prop} {x : EStateM ε σ α}
    {f : α → EStateM ε σ β} {start : σ} (first : Outcome between bad (x start))
    (behind : ∀ a middle, x start = .ok a middle → between a middle → Outcome good bad (f a middle)) :
    Outcome good bad ((x >>= f) start) := by
  change Outcome good bad (EStateM.bind x f start)
  rw [EStateM.bind]
  cases ran : x start with
  | ok a middle => exact behind a middle ran (ran ▸ first :)
  | error => exact (ran ▸ first :)

theorem outcome_get {good : β → σ → Prop} {f : σ → EStateM ε σ β} {start : σ}
    (behind : Outcome good bad (f start start)) : Outcome good bad ((get >>= f) start) := behind

theorem outcome_modify {good : Unit → σ → Prop} {change : σ → σ} {start : σ} :
    Outcome good bad ((modify change : EStateM ε σ Unit) start) ↔ good () (change start) := Iff.rfl

theorem outcome_forM {holds : σ → Prop} {visit : α → EStateM ε σ Unit} {items : List α}
    (each : ∀ item ∈ items, ∀ state, holds state → Outcome (fun _ => holds) bad (visit item state))
    {start : σ} (held : holds start) : Outcome (fun _ => holds) bad (items.forM visit start) := by
  induction items generalizing start with
  | nil => exact held
  | cons item rest ih =>
    exact outcome_bind (each item (by simp) start held) fun _ middle _ heldThen =>
      ih (fun other member => each other (by simp [member])) heldThen

end Requirements
