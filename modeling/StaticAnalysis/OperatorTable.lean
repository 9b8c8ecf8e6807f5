import StaticAnalysis.Fault
import StaticAnalysis.Text

/-!
Operator tables: a binary operator written out over a finite domain. Looking up two elements of
the domain gives the operator's value; anything outside the domain is a fault, and of two such
elements the left one is reported. An element is in the domain if the same value is listed there:
elements are compared by equality.
-/

namespace StaticAnalysis

/-- The values of a binary operator on a finite domain. -/
structure OperatorTable (α : Type) where
  /-- The operands, in the order of the rows and columns. -/
  domain : List α
  /-- One row for every left operand, with one value for every right operand. -/
  rows : List (List α)
  /-- There is a row for every operand. -/
  length_rows : rows.length = domain.length
  /-- Every row has a value for every operand. -/
  length_of_mem_rows : ∀ row ∈ rows, row.length = domain.length

namespace OperatorTable

variable {α : Type}

/-- The table of an operator. -/
def tabulate (domain : List α) (op : α → α → α) : OperatorTable α where
  domain := domain
  rows := domain.map fun l => domain.map fun r => op l r
  length_rows := by simp
  length_of_mem_rows := by simp

/-- The value in a row and a column. -/
def cell (t : OperatorTable α) (i j : Fin t.domain.length) : α :=
  let row := t.rows.get (i.cast t.length_rows.symm)
  row.get (j.cast (t.length_of_mem_rows _ (List.get_mem _ _)).symm)

variable [DecidableEq α] [Describe α]

/-- The first position of an element in the domain. -/
def position (t : OperatorTable α) (x : α) : Except Fault (Fin t.domain.length) :=
  match t.domain.finIdxOf? x with
  | some i => .ok i
  | none => .error (.outsideDomain (describe x))

/-- The value for two operands. -/
def apply (t : OperatorTable α) (l r : α) : Except Fault α := do
  let i ← t.position l
  let j ← t.position r
  return t.cell i j

end OperatorTable

end StaticAnalysis
