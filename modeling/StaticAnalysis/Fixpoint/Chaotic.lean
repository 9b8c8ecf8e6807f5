import StaticAnalysis.Agenda
import StaticAnalysis.Fixpoint.Equations
import StaticAnalysis.Fixpoint.Widening

/-!
Chaotic iteration: the keys of a system of equations are evaluated one at a time, in the order of
a worklist, and a key whose value changes puts the keys that read it back on the list. Along back
edges the new value is widened. When nothing waits any more the values are final, up to a number
of narrowing rounds, each of which evaluates all keys at once. A value has changed if the new one is
not equal to the old one, whatever the order of the lattice says about them.
-/

namespace StaticAnalysis

/-- What happened during an iteration. -/
inductive Event (κ α : Type) where
  /-- The new value of a key was widened. -/
  | widened (key : κ)
  /-- A key took a new value. -/
  | updated (key : κ) (value : α)
  /-- Nothing waits after this many evaluations. -/
  | settled (steps : Nat)
  /-- A narrowing round began. -/
  | narrowing (round : Nat)
  /-- This many narrowing rounds were made. -/
  | narrowed (rounds : Nat)
  deriving DecidableEq

/-- An event as a record of a journal. -/
def Event.record {κ α : Type} [Describe κ] [Describe α] : Event κ α → Record
  | .widened k => ⟨.debug, "widening at " ++ describe k⟩
  | .updated k value => ⟨.trace, "update " ++ describe k ++ " := " ++ describe value⟩
  | .settled n => ⟨.debug, "worklist fixpoint reached after " ++ toString n ++ " iterations"⟩
  | .narrowing i => ⟨.trace, "narrowing round " ++ toString i⟩
  | .narrowed n => ⟨.debug, "applied " ++ toString n ++ " narrowing rounds"⟩

/-- How far an iteration has come. -/
structure Progress (κ α : Type) [Ord κ] [Std.TransOrd κ] where
  /-- The current value of every key. -/
  values : TotalMap κ α
  /-- How many evaluations were made. -/
  steps : Nat := 0
  /-- What happened so far, latest first. -/
  events : List (Event κ α) := []

/-- How a system of equations is to be solved. -/
structure Strategy (κ α : Type) where
  /-- The keys to begin with; all of them if not given. -/
  seed : Option (List κ) := none
  /-- How to jump ahead. -/
  widening : Widening κ α := .never
  /-- How many narrowing rounds to make at the end. -/
  narrowing : Nat := 0

/-- An iteration: the keys that wait and the progress made. -/
abbrev Iteration (κ α : Type) [Ord κ] [Std.TransOrd κ] := Agenda κ (Progress κ α)

namespace Iteration

variable {κ α : Type} [Ord κ] [Std.TransOrd κ]

/-- Nothing waits and every key has the bottom. -/
def start (E : Equations κ α) : Iteration κ α := ⟨.empty, { values := E.bottom }⟩

/-- The current value of every key. -/
def values (a : Iteration κ α) : TotalMap κ α := a.state.values

/-- How many evaluations were made. -/
def steps (a : Iteration κ α) : Nat := a.state.steps

/-- What happened so far, in order, as a journal. -/
def journal [Describe κ] [Describe α] (a : Iteration κ α) : List Record :=
  a.state.events.reverse.map Event.record

/-- Notes an event. -/
def note (a : Iteration κ α) (e : Event κ α) : Iteration κ α :=
  { a with state := { a.state with events := e :: a.state.events } }

/-- Counts an evaluation. -/
def tick (a : Iteration κ α) : Iteration κ α :=
  { a with state := { a.state with steps := a.state.steps + 1 } }

/-- Replaces all values. -/
def withValues (a : Iteration κ α) (values : TotalMap κ α) : Iteration κ α :=
  { a with state := { a.state with values := values } }

variable [DecidableEq κ] [DecidableEq α]

/-- Gives a key a new value and lets the keys that read it wait. -/
def update (a : Iteration κ α) (k : κ) (value : α) (readers : List κ) : Iteration κ α :=
  let a := (a.note (.updated k value)).withValues (a.values.set k value)
  { a with pending := a.pending.addAll readers }

end Iteration

namespace Equations

variable {κ α : Type} [Ord κ] [Std.TransOrd κ] [DecidableEq κ] [DecidableEq α]
variable (E : Equations κ α)

/-- Evaluates one key. If its value changes, it is widened where an edge to a reader closes a
cycle, and the readers are put on the worklist. -/
def process (w : Widening κ α) (k : κ) (a : Iteration κ α) : Outcome (Iteration κ α) :=
  let a := a.tick
  match E.evaluate k a.values with
  | .error fault => .faulted fault a
  | .ok y =>
    let readers := E.flow.outgoing k
    if y = a.values.get k then
      .finished a
    else if readers.any (w.isBackedge k) then
      let a := a.note (.widened k)
      match w.widen y with
      | .error fault => .faulted fault a
      | .ok z => .finished (a.update k z readers)
    else
      .finished (a.update k y readers)

/-- Processes the given keys and all that follow from them. -/
def run (w : Widening κ α) (budget : Nat) (seed : List κ) (a : Iteration κ α) :
    Outcome (Iteration κ α) :=
  Agenda.run (E.process w) budget seed a

/-- Makes narrowing rounds, the first of them numbered `round`. -/
def narrow : (round rounds : Nat) → Iteration κ α → Outcome (Iteration κ α)
  | _, 0, a => .finished a
  | round, rounds + 1, a =>
    let a := a.note (.narrowing round)
    match E.step a.values with
    | .error fault => .faulted fault a
    | .ok values => narrow (round + 1) rounds (a.withValues values)

/-- Solves the equations from the bottom by a strategy. Of the iteration so far only the journal is
kept. -/
def solve (s : Strategy κ α) (budget : Nat) (a : Iteration κ α) : Outcome (Iteration κ α) :=
  let fresh : Iteration κ α :=
    { a with state := { values := E.bottom, steps := 0, events := a.state.events } }
  (E.run s.widening budget (s.seed.getD E.flow.domain) fresh).andThen fun a =>
    (E.narrow 1 s.narrowing (a.note (.settled a.steps))).andThen fun a =>
      .finished (if s.narrowing = 0 then a else a.note (.narrowed s.narrowing))

end Equations

end StaticAnalysis
