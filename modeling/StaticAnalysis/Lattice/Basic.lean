import StaticAnalysis.Fault

/-!
Lattices as values. A lattice is a record of a bottom, a top, a least upper bound, an order and a
membership test on some carrier type. Combining or comparing two elements may fail, because a
carrier can hold values of unequal shape.

`Lattice.ofEnds` is the smallest such record: it is given by its two ends alone. `MeetLattice`
adds greatest lower bounds, and `MeetLattice.reverse` turns such a lattice upside down.

Where elements are compared, here and in the rest of the library, the comparison is equality: it
decides whether they are the same value. Carriers with a coarser comparison of their own, or with
values that do not equal themselves, such as floating point numbers, are not covered.
-/

namespace StaticAnalysis

/-- The operations of a lattice on the carrier `α`. -/
structure Lattice (α : Type) where
  /-- The least element. -/
  bottom : α
  /-- The greatest element. -/
  top : α
  /-- The least upper bound of two elements. -/
  lub : α → α → Except Fault α
  /-- Whether the first element is below the second or equal to it. -/
  leq : α → α → Except Fault Bool
  /-- Whether a value of the carrier belongs to the lattice. -/
  contains : α → Bool := fun _ => true

namespace Lattice

variable {α : Type}

/-- The order that a least upper bound induces: `x` is below `y` when joining `x` to `y` changes
nothing. -/
def leqOfLub [DecidableEq α] (lub : α → α → Except Fault α) (x y : α) : Except Fault Bool := do
  return decide ((← lub x y) = y)

/-- The least upper bound that knows nothing but the ends: two different elements, neither of them
the bottom, have only the top above them. -/
def lubOfEnds [DecidableEq α] (bottom top x y : α) : α :=
  if x = bottom then y
  else if y = bottom ∨ x = y then x
  else top

/-- The lattice in which every element but the ends stands beside every other. -/
def ofEnds [DecidableEq α] (bottom top : α) : Lattice α where
  bottom := bottom
  top := top
  lub x y := .ok (lubOfEnds bottom top x y)
  leq := leqOfLub fun x y => .ok (lubOfEnds bottom top x y)

variable (L : Lattice α)

/-- Whether the first element is above the second or equal to it. -/
def geq (x y : α) : Except Fault Bool := L.leq y x

/-- Whether two elements are below each other. -/
def equiv (x y : α) : Except Fault Bool := do
  if ← L.leq x y then L.leq y x else return false

/-- The least upper bound of a list of elements. -/
def lubAll (xs : List α) : Except Fault α := xs.foldlM L.lub L.bottom

end Lattice

/-- A lattice that also has greatest lower bounds. -/
structure MeetLattice (α : Type) extends Lattice α where
  /-- The greatest lower bound of two elements. -/
  glb : α → α → Except Fault α

/-- The same elements in the opposite order. -/
def MeetLattice.reverse {α : Type} (L : MeetLattice α) : MeetLattice α where
  bottom := L.top
  top := L.bottom
  lub := L.glb
  leq x y := L.leq y x
  contains := L.contains
  glb := L.lub

end StaticAnalysis
