/-!
Journals: what a computation reports about itself. A record has a level and a text, and a reader
asks for all records down to some level.
-/

namespace StaticAnalysis

/-- How detailed a record is. -/
inductive Level where
  /-- Milestones of a computation. -/
  | debug
  /-- Single steps of a computation. -/
  | trace
  deriving DecidableEq

/-- The name of a level at the head of a line. -/
def Level.name : Level → String
  | .debug => "DEBUG"
  | .trace => "TRACE"

/-- Whether a reader who asks for one level is shown another: steps are shown only on request. -/
def Level.shows : Level → Level → Bool
  | .debug, .trace => false
  | _, _ => true

/-- A record of a journal. -/
structure Record where
  /-- How detailed the record is. -/
  level : Level
  /-- What it says. -/
  text : String
  deriving DecidableEq

/-- A record as a line. -/
def Record.line (r : Record) : String := r.level.name ++ " " ++ r.text

/-- The lines that a reader at some level is shown. -/
def Record.lines (asked : Level) (records : List Record) : List String :=
  (records.filter fun r => asked.shows r.level).map Record.line

end StaticAnalysis
