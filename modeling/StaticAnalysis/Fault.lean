/-!
Faults: the two ways in which a computation on lattice elements can be asked for something that
has no answer.
-/

namespace StaticAnalysis

/-- Two product elements of different sizes, which cannot be combined. -/
structure SizeMismatch where
  /-- The size of the left element. -/
  left : Nat
  /-- The size of the right element. -/
  right : Nat
  deriving DecidableEq

/-- The wording of a size mismatch. -/
def SizeMismatch.message (m : SizeMismatch) : String :=
  "cannot combine product elements of sizes " ++ toString m.left ++ " and " ++ toString m.right

/-- Why a computation stopped without a value. -/
inductive Fault where
  /-- Two product elements of different sizes were to be combined. -/
  | sizeMismatch (mismatch : SizeMismatch)
  /-- An operator table was asked about an element outside its domain, given by its description. -/
  | outsideDomain (element : String)
  deriving DecidableEq

/-- The wording of a fault. -/
def Fault.message : Fault → String
  | .sizeMismatch mismatch => mismatch.message
  | .outsideDomain element => element ++ " is not in the table domain"

end StaticAnalysis
