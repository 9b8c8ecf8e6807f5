import StaticAnalysis.Fixpoint.Ascent
import StaticAnalysis.Flow
import StaticAnalysis.Lattice.Composite

/-!
Systems of equations over a flow: the value of a key is a transfer function applied to the join of
the values that the key reads. `Equations.step` evaluates all keys at once from one assignment of
values; a solution is an assignment that this step leaves alone, and `Equations.solveByRounds`
looks for the least one by repeating it.
-/

namespace StaticAnalysis

/-- One equation for every key of a flow. -/
structure Equations (κ α : Type) where
  /-- Where the values come from. -/
  lattice : Lattice α
  /-- The keys and what they read. -/
  flow : Flow κ
  /-- The value of a key, from the join of the values it reads. -/
  transfer : κ → α → Except Fault α

namespace Equations

variable {κ α : Type} [Ord κ] [Std.TransOrd κ] (E : Equations κ α)

/-- The join of the values that a key reads. -/
def join (k : κ) (values : TotalMap κ α) : Except Fault α :=
  (E.flow.incoming k).foldlM (fun acc source => E.lattice.lub acc (values.get source))
    E.lattice.bottom

/-- The right-hand side of a key's equation. -/
def evaluate (k : κ) (values : TotalMap κ α) : Except Fault α := do
  E.transfer k (← E.join k values)

/-- The bottom everywhere. -/
def bottom : TotalMap κ α := .const E.lattice.bottom

variable [DecidableEq α]

/-- All right-hand sides at once; keys outside the domain get the bottom. -/
def step (values : TotalMap κ α) : Except Fault (TotalMap κ α) :=
  E.flow.domain.foldlM (fun acc k => do return acc.set k (← E.evaluate k values)) E.bottom

variable [Std.LawfulEqOrd κ]

/-- The lattice of assignments. -/
def assignments : Lattice (TotalMap κ α) := E.lattice.totalMap

/-- Whether an assignment solves the equations. -/
def isSolvedBy (values : TotalMap κ α) : Except Fault Bool := do
  return decide ((← E.step values) = values)

/-- Repeats the step from the bottom until it changes nothing. -/
def solveByRounds (budget : Nat) : Outcome (Ascent (TotalMap κ α)) :=
  Ascent.solve E.assignments E.step budget

end Equations

/-- What is reported once the equations are solved by rounds. -/
def Equations.roundsReport {σ : Type} (a : Ascent σ) : List Record :=
  a.report ++ [⟨.debug, "map lattice solver: " ++ toString a.rounds ++ " rounds"⟩]

end StaticAnalysis
