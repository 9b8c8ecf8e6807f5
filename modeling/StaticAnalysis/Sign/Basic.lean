import StaticAnalysis.Lattice.Flat
import StaticAnalysis.OperatorTable

/-!
Signs of integers. The sign lattice is the flat lattice over negative, zero and positive.
Arithmetic on integers becomes arithmetic on its elements through operator tables: each operator
is given by its rules (`SignOp.combine`) and evaluated by looking up its table (`SignOp.apply`).
-/

namespace StaticAnalysis

/-- The sign of an integer. -/
inductive Sign where
  | neg
  | zero
  | pos
  deriving DecidableEq

namespace Sign

/-- All signs, from negative to positive. -/
def all : List Sign := [.neg, .zero, .pos]

/-- The sign of an integer. -/
def ofInt (n : Int) : Sign :=
  if n < 0 then .neg else if n = 0 then .zero else .pos

instance : ToString Sign where
  toString
    | .neg => "-"
    | .zero => "0"
    | .pos => "+"

instance : Describe Sign where
  describe
    | .neg => "Neg"
    | .zero => "Zero"
    | .pos => "Pos"

/-- The lattice of signs. -/
def lattice : Lattice (Flat Sign) := Flat.lattice

/-- The elements of the sign lattice. -/
def elements : List (Flat Sign) := [.top, .bottom] ++ all.map .simple

end Sign

/-- The binary operators of sign arithmetic. A comparison has the value one where it holds and zero
where it does not. -/
inductive SignOp where
  | plus
  | minus
  | times
  | div
  | equals
  | gt
  deriving DecidableEq

namespace SignOp

/-- Signs whose quotient or product is known: positive if they agree, negative if not. -/
def agreement (l r : Sign) : Flat Sign := if l = r then .simple .pos else .simple .neg

/-- The sign of the value of an operator, from the signs of its operands. An operand without a
value leaves the operation without one. -/
def combine : SignOp → Flat Sign → Flat Sign → Flat Sign
  | .plus, l, r =>
    match l, r with
    | .bottom, _ | _, .bottom => .bottom
    | .top, _ | _, .top => .top
    | .simple .zero, r => r
    | l, .simple .zero => l
    | .simple l, .simple r => if l = r then .simple l else .top
  | .minus, l, r =>
    match l, r with
    | .bottom, _ | _, .bottom => .bottom
    | .top, _ | _, .top => .top
    | .simple .zero, .simple .neg => .simple .pos
    | .simple .zero, .simple .zero => .simple .zero
    | .simple .zero, .simple .pos => .simple .neg
    | .simple l, .simple r => if l = r then .top else .simple l
  | .times, l, r =>
    match l, r with
    | .bottom, _ | _, .bottom => .bottom
    | .simple .zero, _ | _, .simple .zero => .simple .zero
    | .top, _ | _, .top => .top
    | .simple l, .simple r => agreement l r
  | .div, l, r =>
    -- A divisor that may be zero gives no value at all.
    match l, r with
    | .bottom, _ | _, .bottom | _, .top | _, .simple .zero => .bottom
    | .simple .zero, _ => .simple .zero
    | .top, _ => .top
    | .simple l, .simple r => agreement l r
  | .equals, l, r =>
    match l, r with
    | .bottom, _ | _, .bottom => .bottom
    | .simple .zero, .simple .zero => .simple .pos
    | .simple l, .simple r => if l = r then .top else .simple .zero
    | _, _ => .top
  | .gt, l, r =>
    match l, r with
    | .bottom, _ | _, .bottom => .bottom
    | .top, _ | _, .top => .top
    | .simple .pos, .simple .pos | .simple .neg, .simple .neg => .top
    | .simple .pos, _ | .simple .zero, .simple .neg => .simple .pos
    | _, _ => .simple .zero

/-- The table of an operator over all elements of the sign lattice. -/
def table (op : SignOp) : OperatorTable (Flat Sign) := .tabulate Sign.elements op.combine

/-- The value of an operator, looked up in its table. -/
def apply (op : SignOp) (l r : Flat Sign) : Except Fault (Flat Sign) := op.table.apply l r

end SignOp

end StaticAnalysis
