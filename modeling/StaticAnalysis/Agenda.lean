import StaticAnalysis.Outcome
import StaticAnalysis.Worklist

/-!
Agendas: computations that are driven by a worklist. An agenda is a worklist beside the state that
is worked on. Processing a key may change both; `Agenda.drain` takes keys off the worklist until
none waits or the budget is spent.
-/

namespace StaticAnalysis

/-- A worklist with the state that its keys are processed on. -/
structure Agenda (κ σ : Type) where
  /-- The keys that wait. -/
  pending : Worklist κ
  /-- What is worked on. -/
  state : σ
  deriving DecidableEq

namespace Agenda

variable {κ σ : Type}

/-- Processes waiting keys, oldest first, at most `budget` of them. -/
def drain (process : κ → Agenda κ σ → Outcome (Agenda κ σ)) :
    Nat → Agenda κ σ → Outcome (Agenda κ σ)
  | budget, a =>
    match a.pending.pop? with
    | none => .finished a
    | some (k, rest) =>
      match budget with
      | 0 => .unfinished a
      | budget + 1 => (process k { a with pending := rest }).andThen (drain process budget)

variable [DecidableEq κ]

/-- Replaces what waits by the given keys and processes until nothing waits. -/
def run (process : κ → Agenda κ σ → Outcome (Agenda κ σ)) (budget : Nat) (seed : List κ)
    (a : Agenda κ σ) : Outcome (Agenda κ σ) :=
  drain process budget { a with pending := Worklist.empty.addAll seed }

end Agenda

/-- What to add to a worklist when a key is processed for the first time, the second time, and so
on. -/
abbrev Script (κ : Type) := List (κ × List (List κ))

/-- Processes a key by a script; the state lists the keys processed so far, in order. -/
def Script.process {κ : Type} [DecidableEq κ] (script : Script κ) (k : κ) (a : Agenda κ (List κ)) :
    Outcome (Agenda κ (List κ)) :=
  let turns := (script.lookup k).getD []
  let next := (turns[a.state.count k]?).getD []
  .finished { pending := a.pending.addAll next, state := a.state ++ [k] }

end StaticAnalysis
