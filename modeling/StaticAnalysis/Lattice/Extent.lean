import StaticAnalysis.Lattice.Basic
import StaticAnalysis.Text

/-!
Extents: how far a quantity has been seen to reach. They form a chain without a finite height: not
reached at all, then every finite bound in turn, then no bound. Analyses over them need widening.
-/

namespace StaticAnalysis

/-- An upper bound on a quantity. -/
inductive Extent where
  /-- The quantity has not been reached. -/
  | unreached
  /-- The quantity is at most this. -/
  | finite (bound : Int)
  /-- The quantity has no bound. -/
  | infinite
  deriving DecidableEq

namespace Extent

/-- The larger of two extents. -/
def max : Extent → Extent → Extent
  | .unreached, y => y
  | x, .unreached => x
  | .finite m, .finite n => .finite (if m ≤ n then n else m)
  | .infinite, _ => .infinite
  | _, .infinite => .infinite

/-- The chain of extents. -/
def lattice : Lattice Extent where
  bottom := .unreached
  top := .infinite
  lub x y := .ok (x.max y)
  leq := Lattice.leqOfLub fun x y => .ok (x.max y)

/-- Moves a finite bound. -/
def shift (n : Int) : Extent → Extent
  | .finite m => .finite (m + n)
  | x => x

/-- Keeps what is reached at or under a finite bound. -/
def cap (n : Int) : Extent → Extent
  | .unreached => .unreached
  | .finite m => .finite (if m ≤ n then m else n)
  | .infinite => .finite n

/-- Gives up on finite bounds from a threshold on. -/
def giveUpAt (n : Int) : Extent → Extent
  | .finite m => if n ≤ m then .infinite else .finite m
  | x => x

instance : ToString Extent where
  toString
    | .unreached => "⊥"
    | .finite n => toString n
    | .infinite => "∞"

instance : Describe Extent where
  describe
    | .unreached => "Unreached"
    | .finite n => "Finite(" ++ describe n ++ ")"
    | .infinite => "Infinite"

end Extent

end StaticAnalysis
