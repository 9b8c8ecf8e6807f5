import Std.Data.ExtTreeSet
import StaticAnalysis.Lattice.Basic
import StaticAnalysis.Text

/-!
Powersets: the subsets of a finite universe, ordered by inclusion, with union and intersection as
bounds. The operations themselves do not look at the universe; membership in the lattice does.
-/

namespace StaticAnalysis

namespace Powerset

variable {κ : Type} [Ord κ] [Std.TransOrd κ]

/-- Whether every member of the first set is a member of the second. -/
def isSubset (x y : Std.ExtTreeSet κ compare) : Bool := x.toList.all fun k => y.contains k

/-- The subsets of `carrier`. -/
def lattice (carrier : Std.ExtTreeSet κ compare) : MeetLattice (Std.ExtTreeSet κ compare) where
  bottom := ∅
  top := carrier
  lub x y := .ok (x ∪ y)
  leq x y := .ok (isSubset x y)
  contains x := isSubset x carrier
  glb x y := .ok (x ∩ y)

/-- Adds the members of a list to a set. -/
def gen (members : List κ) (x : Std.ExtTreeSet κ compare) : Std.ExtTreeSet κ compare :=
  x.insertMany members

/-- Takes the members of a list out of a set. -/
def kill (members : List κ) (x : Std.ExtTreeSet κ compare) : Std.ExtTreeSet κ compare :=
  x.eraseMany members

/-- One round of deduction: every rule, a list of premises with a list of conclusions, whose
premises are all members of the set contributes its conclusions. -/
def deduce (rules : List (List κ × List κ)) (x : Std.ExtTreeSet κ compare) :
    Std.ExtTreeSet κ compare :=
  rules.foldl (fun acc rule => if rule.1.all fun k => x.contains k then gen rule.2 acc else acc) x

instance [Describe κ] : Describe (Std.ExtTreeSet κ compare) where
  describe x := Text.braced (x.toList.map describe)

end Powerset

end StaticAnalysis
