import StaticAnalysis.Lattice.Basic
import StaticAnalysis.Text

/-!
Flat lattices: plain values side by side, with a bottom under all of them and a top above. Plain
values stand side by side when they are not the same value; no other comparison is known here.
-/

namespace StaticAnalysis

/-- A plain value, or one of the two ends. -/
inductive Flat (α : Type) where
  /-- No value. -/
  | bottom
  /-- Any value. -/
  | top
  /-- Exactly this value. -/
  | simple (value : α)
  deriving DecidableEq

namespace Flat

variable {α : Type}

/-- Whether the element is the bottom. -/
def isBottom : Flat α → Bool
  | .bottom => true
  | _ => false

/-- Whether the element is the top. -/
def isTop : Flat α → Bool
  | .top => true
  | _ => false

/-- The plain value, if there is one. -/
def value? : Flat α → Option α
  | .simple v => some v
  | _ => none

/-- The flat lattice over a type of plain values. -/
def lattice [DecidableEq α] : Lattice (Flat α) := .ofEnds .bottom .top

/-- The diagnostic name of the lattice itself. -/
def latticeName : String := "FlatLattice"

instance [ToString α] : ToString (Flat α) where
  toString
    | .bottom => "⊥"
    | .top => "⊤"
    | .simple v => toString v

instance [Describe α] : Describe (Flat α) where
  describe
    | .bottom => "Bottom"
    | .top => "Top"
    | .simple v => "Simple(" ++ describe v ++ ")"

end Flat

end StaticAnalysis
