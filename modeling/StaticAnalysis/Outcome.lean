import StaticAnalysis.Fault

/-!
Outcomes of computations that need not end. Such a computation is given a budget of steps, and the
state it reached is kept whether it finished, met a fault or ran out of budget.
-/

namespace StaticAnalysis

/-- How a bounded computation ended, with the state it reached. -/
inductive Outcome (σ : Type) where
  /-- It ran to its end. -/
  | finished (state : σ)
  /-- It met a fault. -/
  | faulted (fault : Fault) (state : σ)
  /-- Its budget was spent before its end. -/
  | unfinished (state : σ)
  deriving DecidableEq

namespace Outcome

variable {σ : Type}

/-- The state that was reached. -/
def state : Outcome σ → σ
  | .finished s => s
  | .faulted _ s => s
  | .unfinished s => s

/-- Goes on from the end of a finished computation. -/
@[inline]
def andThen (o : Outcome σ) (next : σ → Outcome σ) : Outcome σ :=
  match o with
  | .finished s => next s
  | .faulted f s => .faulted f s
  | .unfinished s => .unfinished s

@[simp]
theorem andThen_finished (s : σ) (next : σ → Outcome σ) : (finished s).andThen next = next s := rfl

/-- A computation in two parts finishes when both parts do. -/
theorem andThen_eq_finished_iff {o : Outcome σ} {next : σ → Outcome σ} {t : σ} :
    o.andThen next = finished t ↔ ∃ s, o = finished s ∧ next s = finished t := by
  cases o <;> simp [andThen]

end Outcome

end StaticAnalysis
