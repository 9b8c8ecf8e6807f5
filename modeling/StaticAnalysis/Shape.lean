import StaticAnalysis.Atom
import StaticAnalysis.Lattice.Composite
import StaticAnalysis.Lattice.Extent
import StaticAnalysis.Lattice.Powerset
import StaticAnalysis.Sign.Basic

/-!
Shapes: how a lattice is put together from basic ones. A shape determines the type of its elements
(`Shape.Elem`) and the lattice on them (`Shape.lattice`), so a statement about every nested
lattice is a statement about every shape.
-/

namespace StaticAnalysis

/-- A lattice of sets of atoms. -/
inductive SetShape where
  /-- The subsets of a set. -/
  | powerset (carrier : AtomSet)
  /-- Another lattice of sets upside down. -/
  | reverse (s : SetShape)
  deriving DecidableEq

/-- The lattice of a set shape. -/
def SetShape.lattice : SetShape → MeetLattice AtomSet
  | .powerset carrier => Powerset.lattice carrier
  | .reverse s => s.lattice.reverse

/-- A lattice put together from basic ones. -/
inductive Shape where
  /-- Atoms side by side. -/
  | flat
  /-- Signs of integers. -/
  | sign
  /-- Sets of atoms. -/
  | sets (s : SetShape)
  /-- Pairs. -/
  | pair (left right : Shape)
  /-- Several copies. -/
  | product (s : Shape) (size : Nat)
  /-- Total maps from atoms. -/
  | map (s : Shape)
  /-- The chain of extents. -/
  | extent
  /-- Atoms with only two of them, the ends, comparable to others. -/
  | ends (bottom top : Atom)
  deriving DecidableEq

namespace Shape

/-- The elements of a lattice of some shape. -/
@[reducible]
def Elem : Shape → Type
  | .flat => Flat Atom
  | .sign => Flat Sign
  | .sets _ => AtomSet
  | .pair a b => a.Elem × b.Elem
  | .product s _ => List s.Elem
  | .map s => TotalMap Atom s.Elem
  | .extent => Extent
  | .ends _ _ => Atom

/-- Decides whether two elements are the same. -/
def decEqElem : (s : Shape) → DecidableEq s.Elem
  | .flat => inferInstanceAs (DecidableEq (Flat Atom))
  | .sign => inferInstanceAs (DecidableEq (Flat Sign))
  | .sets _ => inferInstanceAs (DecidableEq AtomSet)
  | .pair a b =>
    have := a.decEqElem
    have := b.decEqElem
    inferInstanceAs (DecidableEq (a.Elem × b.Elem))
  | .product s _ =>
    have := s.decEqElem
    inferInstanceAs (DecidableEq (List s.Elem))
  | .map s =>
    have := s.decEqElem
    inferInstanceAs (DecidableEq (TotalMap Atom s.Elem))
  | .extent => inferInstanceAs (DecidableEq Extent)
  | .ends _ _ => inferInstanceAs (DecidableEq Atom)

instance (s : Shape) : DecidableEq s.Elem := s.decEqElem

/-- The lattice of a shape. -/
def lattice : (s : Shape) → Lattice s.Elem
  | .flat => Flat.lattice
  | .sign => Sign.lattice
  | .sets s => s.lattice.toLattice
  | .pair a b => a.lattice.pair b.lattice
  | .product s size => s.lattice.product size
  | .map s => s.lattice.totalMap
  | .extent => Extent.lattice
  | .ends bottom top => .ofEnds bottom top

/-- Reads the elements of one shape as elements of another. The shapes may differ in the universes of
their sets, in the sizes of their products and in their ends, none of which the elements know. -/
def recast? : (a b : Shape) → Option (a.Elem → b.Elem)
  | .flat, .flat => some id
  | .sign, .sign => some id
  | .sets _, .sets _ => some id
  | .pair a b, .pair c d => do
    let f ← recast? a c
    let g ← recast? b d
    return fun x => (f x.1, g x.2)
  | .product s _, .product t _ => (recast? s t).map fun f x => x.map f
  | .map s, .map t => (recast? s t).map fun f x => x.map f
  | .extent, .extent => some id
  | .ends _ _, .ends _ _ => some id
  | _, _ => none

/-- Exchanges the halves of a pair, where each can take the other's place. -/
def swap? (a b : Shape) : Option (a.Elem × b.Elem → a.Elem × b.Elem) := do
  let f ← recast? a b
  let g ← recast? b a
  return fun x => (g x.2, f x.1)

/-- The text of an element. -/
def display : (s : Shape) → s.Elem → String
  | .flat, x => toString x
  | .sign, x => toString x
  | .sets _, x => Text.braced (x.toList.map toString)
  | .pair a b, x => "(" ++ a.display x.1 ++ ", " ++ b.display x.2 ++ ")"
  | .product s _, x => "[" ++ Text.commaSeparated (x.map s.display) ++ "]"
  | .map s, x =>
    have : ToString s.Elem := ⟨s.display⟩
    toString x
  | .extent, x => toString x
  | .ends _ _, x => toString x

/-- The diagnostic text of an element. -/
def diagnostic : (s : Shape) → s.Elem → String
  | .flat, x => describe x
  | .sign, x => describe x
  | .sets _, x => describe x
  | .pair a b, x =>
    have : Describe a.Elem := ⟨a.diagnostic⟩
    have : Describe b.Elem := ⟨b.diagnostic⟩
    describe x
  | .product s _, x =>
    have : Describe s.Elem := ⟨s.diagnostic⟩
    describe x
  | .map s, x =>
    have : Describe s.Elem := ⟨s.diagnostic⟩
    describe x
  | .extent, x => describe x
  | .ends _ _, x => describe x

instance (s : Shape) : Describe s.Elem := ⟨s.diagnostic⟩

end Shape

end StaticAnalysis
