import StaticAnalysis.Journal
import StaticAnalysis.Lattice.Basic
import StaticAnalysis.Outcome

/-!
Ascending iteration: apply a function to the bottom of a lattice, then to the result, and so on,
until a round changes nothing. The value reached is then a fixpoint of the function, and the least
one if the function is monotone.
-/

namespace StaticAnalysis

/-- A value with the number of rounds that led to it. -/
structure Ascent (α : Type) where
  /-- The value reached. -/
  value : α
  /-- How often the function was applied. -/
  rounds : Nat
  deriving DecidableEq

namespace Ascent

variable {α : Type}

/-- The bottom of a lattice, before the first round. -/
def start (L : Lattice α) : Ascent α := ⟨L.bottom, 0⟩

/-- Back to the bottom, with the count at zero. -/
def reset (L : Lattice α) (a : Ascent α) : Ascent α := { a with value := L.bottom, rounds := 0 }

/-- What is reported once a round has changed nothing. -/
def report (a : Ascent α) : List Record :=
  [⟨.debug, "naive fixpoint converged after " ++ toString a.rounds ++ " iterations"⟩]

variable [DecidableEq α]

/-- Applies the function until a round changes nothing, at most `budget` times. -/
def climb (f : α → Except Fault α) : Nat → Ascent α → Outcome (Ascent α)
  | 0, a => .unfinished a
  | budget + 1, a =>
    match f a.value with
    | .error fault => .faulted fault a
    | .ok y =>
      if y = a.value then .finished ⟨y, a.rounds + 1⟩
      else climb f budget ⟨y, a.rounds + 1⟩

/-- The iteration from the bottom of a lattice. -/
def solve (L : Lattice α) (f : α → Except Fault α) (budget : Nat) : Outcome (Ascent α) :=
  climb f budget (start L)

/-- The iteration on a solver that was used before, which gives up what it reached and counted. -/
def solveAgain (L : Lattice α) (f : α → Except Fault α) (budget : Nat) (before : Ascent α) :
    Outcome (Ascent α) :=
  climb f budget (before.reset L)

end Ascent

end StaticAnalysis
