import StaticAnalysis.Lattice.Basic
import StaticAnalysis.TotalMap

/-!
Lattices made of lattices: pairs, products of several copies, and total maps. Each is ordered
componentwise. A product element is a list, so its size can differ from the declared one;
combining two lists of different sizes is a fault.
-/

namespace StaticAnalysis.Lattice

variable {α β κ : Type}

/-- Pairs, componentwise. -/
def pair (L : Lattice α) (M : Lattice β) : Lattice (α × β) where
  bottom := (L.bottom, M.bottom)
  top := (L.top, M.top)
  lub x y := do return (← L.lub x.1 y.1, ← M.lub x.2 y.2)
  leq x y := do
    if ← L.leq x.1 y.1 then M.leq x.2 y.2 else return false
  contains x := L.contains x.1 && M.contains x.2

/-- The componentwise least upper bound of two lists, or the mismatch of their sizes. A fault can
still come from the components. -/
def productTryLub (L : Lattice α) (x y : List α) : Except Fault (Except SizeMismatch (List α)) :=
  if x.length = y.length then do
    return .ok (← (x.zip y).mapM fun p => L.lub p.1 p.2)
  else
    return .error ⟨x.length, y.length⟩

/-- The componentwise least upper bound of two lists; different sizes are a fault. -/
def productLub (L : Lattice α) (x y : List α) : Except Fault (List α) := do
  match ← L.productTryLub x y with
  | .ok z => return z
  | .error mismatch => throw (.sizeMismatch mismatch)

/-- Products of `size` copies, componentwise. -/
def product [DecidableEq α] (L : Lattice α) (size : Nat) : Lattice (List α) where
  bottom := List.replicate size L.bottom
  top := List.replicate size L.top
  lub := L.productLub
  leq := leqOfLub L.productLub
  contains x := x.length = size && x.all L.contains

variable [Ord κ] [Std.TransOrd κ]

/-- Whether a map is below another: at the default first, then at every key where one of them has
an explicit entry. -/
def totalMapLeq (L : Lattice α) (x y : TotalMap κ α) : Except Fault Bool := do
  if ← L.leq x.default y.default then
    (x.support ++ y.support).allM fun k => L.leq (x.get k) (y.get k)
  else
    return false

/-- Total maps into a lattice, pointwise. -/
def totalMap [Std.LawfulEqOrd κ] [DecidableEq α] (L : Lattice α) : Lattice (TotalMap κ α) where
  bottom := .const L.bottom
  top := .const L.top
  lub x y := if x = y then .ok x else x.zipM L.lub y
  leq := L.totalMapLeq

end StaticAnalysis.Lattice
