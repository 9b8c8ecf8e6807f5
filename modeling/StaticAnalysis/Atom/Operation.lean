import StaticAnalysis.Atom

/-!
Binary operations on atoms. Arithmetic is defined on integers only and concatenation on strings
only.
-/

namespace StaticAnalysis

/-- A binary operation on atoms. -/
inductive AtomOp where
  | first
  | second
  /-- Whether both atoms are equal. -/
  | equal
  | least
  | greatest
  | add
  | sub
  | mul
  /-- The sum modulo three. -/
  | addMod3
  /-- The strings one after the other. -/
  | concat
  deriving DecidableEq

namespace AtomOp

/-- The value of an operation, where it is defined. -/
def eval? : AtomOp → Atom → Atom → Option Atom
  | .first, a, _ => some a
  | .second, _, b => some b
  | .equal, a, b => some (.bool (a = b))
  | .least, a, b => some (a.least b)
  | .greatest, a, b => some (a.greatest b)
  | .add, .int m, .int n => some (.int (m + n))
  | .sub, .int m, .int n => some (.int (m - n))
  | .mul, .int m, .int n => some (.int (m * n))
  | .addMod3, .int m, .int n => some (.int ((m + n) % 3))
  | .concat, .str s, .str t => some (.str (s ++ t))
  | _, _, _ => none

/-- Whether an operation is defined on every two atoms of a list. -/
def definedOn (op : AtomOp) (domain : List Atom) : Bool :=
  domain.all fun a => domain.all fun b => (op.eval? a b).isSome

/-- The operation as a function, with the left atom where it is undefined. -/
def total (op : AtomOp) (a b : Atom) : Atom := (op.eval? a b).getD a

end AtomOp

/-- Moves an integer; other atoms stay. -/
def Atom.shift (n : Int) : Atom → Atom
  | .int m => .int (m + n)
  | a => a

end StaticAnalysis
