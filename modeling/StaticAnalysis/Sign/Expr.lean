import StaticAnalysis.Sign.Basic
import StaticAnalysis.TotalMap

/-!
Sign expressions: arithmetic over integer constants, sign elements and variables, evaluated to an
element of the sign lattice in an environment that gives every variable one.
-/

namespace StaticAnalysis

/-- An arithmetic expression with variables named by `κ`. -/
inductive SignExpr (κ : Type) where
  /-- An integer constant. -/
  | const (n : Int)
  /-- Any integer that the element describes. -/
  | element (s : Flat Sign)
  /-- A variable. -/
  | var (name : κ)
  /-- An operator applied to two expressions. -/
  | binary (op : SignOp) (l r : SignExpr κ)
  deriving DecidableEq

namespace SignExpr

variable {κ : Type}

/-- The sign of an expression, from the signs of its variables. -/
def eval (env : κ → Flat Sign) : SignExpr κ → Except Fault (Flat Sign)
  | .const n => .ok (.simple (Sign.ofInt n))
  | .element s => .ok s
  | .var name => .ok (env name)
  | .binary op l r => do op.apply (← l.eval env) (← r.eval env)

/-- The effect of an assignment: the variable takes the sign of the expression. -/
def assign [Ord κ] [Std.TransOrd κ] (target : κ) (e : SignExpr κ) (env : TotalMap κ (Flat Sign)) :
    Except Fault (TotalMap κ (Flat Sign)) := do
  return env.set target (← e.eval env.get)

end SignExpr

end StaticAnalysis
