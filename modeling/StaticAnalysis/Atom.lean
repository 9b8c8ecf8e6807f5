import Std.Data.ExtTreeSet
import StaticAnalysis.Text

/-!
Atoms: the names, labels and plain values that analyses are stated over. An atom is a truth value,
an integer or a string, and atoms of different kinds are never equal.

The order puts truth values before integers and integers before strings; strings compare by code
point. It is a linear order that agrees with equality, which makes atoms usable as keys of ordered
maps.
-/

namespace StaticAnalysis

/-- A name, label or plain value. -/
inductive Atom where
  | bool (value : Bool)
  | int (value : Int)
  | str (value : String)
  deriving DecidableEq, Inhabited, Hashable

namespace Atom

/-- Comparison: by kind first, within a kind by value. -/
def cmp : Atom → Atom → Ordering
  | .bool a, .bool b => compare a b
  | .bool _, _ => .lt
  | .int _, .bool _ => .gt
  | .int a, .int b => compare a b
  | .int _, .str _ => .lt
  | .str a, .str b => compare a b
  | .str _, _ => .gt

instance : Ord Atom := ⟨cmp⟩

theorem compare_def (a b : Atom) : compare a b = cmp a b := rfl

instance : Std.LawfulEqOrd Atom where
  compare_self {a} := by cases a <;> simp [compare_def, cmp]
  eq_of_compare {a b} h := by
    cases a <;> cases b <;> simp_all [compare_def, cmp]

instance : Std.OrientedOrd Atom where
  eq_swap {a b} := by
    cases a <;> cases b <;> simp [compare_def, cmp] <;> exact Std.OrientedOrd.eq_swap

instance : Std.TransOrd Atom where
  isLE_trans {a b c} h₁ h₂ := by
    cases a <;> cases b <;> cases c <;> simp_all [compare_def, cmp] <;>
      exact Std.TransOrd.isLE_trans h₁ h₂

/-- The smaller of two atoms. -/
def least (a b : Atom) : Atom := if (compare a b).isLE then a else b

/-- The larger of two atoms. -/
def greatest (a b : Atom) : Atom := if (compare a b).isLE then b else a

/-- The plain text of an atom. -/
def display : Atom → String
  | .bool b => toString b
  | .int n => toString n
  | .str s => s

instance : ToString Atom := ⟨display⟩

instance : Describe Atom where
  describe
    | .bool b => describe b
    | .int n => describe n
    | .str s => describe s

end Atom

/-- Finite sets of atoms; two sets with the same members are equal. -/
abbrev AtomSet := Std.ExtTreeSet Atom compare

end StaticAnalysis
