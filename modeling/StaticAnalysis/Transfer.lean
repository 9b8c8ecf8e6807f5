import StaticAnalysis.Atom.Operation
import StaticAnalysis.Lattice.Composite
import StaticAnalysis.Lattice.Extent
import StaticAnalysis.Lattice.Flat
import StaticAnalysis.Lattice.Powerset
import StaticAnalysis.Sign.Expr

/-!
Transfer functions: what happens to an element of a lattice at a key. Analyses are stated with a
few of them, put together by sequence, by cases on the element and by cases on the key.
-/

namespace StaticAnalysis

/-- What happens to an element at a key. -/
abbrev Transfer (κ α : Type) := κ → α → Except Fault α

namespace Transfer

variable {κ α β : Type}

/-- A function of the element alone. -/
def plain (f : α → α) : Transfer κ α := fun _ x => .ok (f x)

/-- The element as it is. -/
def identity : Transfer κ α := plain id

/-- Always the same element. -/
def const (e : α) : Transfer κ α := plain fun _ => e

/-- The least upper bound with an element. -/
def join (L : Lattice α) (e : α) : Transfer κ α := fun _ x => L.lub x e

/-- One after the other. -/
def andThen (f g : Transfer κ α) : Transfer κ α := fun k x => do g k (← f k x)

/-- A sequence of functions. -/
def sequence (fs : List (Transfer κ α)) : Transfer κ α := fs.foldr andThen identity

/-- The result of the first row for the element, and another function for elements without a row. -/
def cases [DecidableEq α] (rows : List (α × α)) (otherwise : Transfer κ α) : Transfer κ α :=
  fun k x =>
    match rows.lookup x with
    | some y => .ok y
    | none => otherwise k x

/-- The function of the first row for the key, and another function for keys without a row. -/
def byKey [DecidableEq κ] (rows : List (κ × Transfer κ α)) (otherwise : Transfer κ α) :
    Transfer κ α :=
  fun k => (rows.lookup k).getD otherwise k

/-- Each half of a pair by a function of its own. -/
def halves (f : Transfer κ α) (g : Transfer κ β) : Transfer κ (α × β) :=
  fun k x => do return (← f k x.1, ← g k x.2)

/-- Every component of a product. -/
def each (f : Transfer κ α) : Transfer κ (List α) := fun k x => x.mapM (f k)

/-- The first component of a product goes to its end. -/
def rotate : Transfer κ (List α) :=
  plain fun x =>
    match x with
    | [] => []
    | a :: rest => rest ++ [a]

/-- One component more. -/
def push (e : α) : Transfer κ (List α) := plain fun x => x ++ [e]

/-- The last component goes away. -/
def pop : Transfer κ (List α) := plain List.dropLast

/-- The key becomes a member of the set. -/
def insertKey [Ord κ] [Std.TransOrd κ] : Transfer κ (Std.ExtTreeSet κ compare) :=
  fun k x => .ok (x.insert k)

/-- The integer of a flat element is moved. -/
def shiftFlat (n : Int) : Transfer κ (Flat Atom) :=
  plain fun x =>
    match x with
    | .simple a => .simple (a.shift n)
    | x => x

/-- The sign of an expression whose variables all stand for the element. -/
def signOf {ι : Type} (e : SignExpr ι) : Transfer κ (Flat Sign) := fun _ x => e.eval fun _ => x

section Maps

variable {ι : Type} [Ord ι] [Std.TransOrd ι]

/-- A variable takes the sign of an expression. -/
def assign (target : ι) (e : SignExpr ι) : Transfer κ (TotalMap ι (Flat Sign)) :=
  fun _ x => e.assign target x

variable [DecidableEq α]

/-- One entry of a map gets a new value. -/
def set (i : ι) (e : α) : Transfer κ (TotalMap ι α) := plain fun x => x.set i e

/-- One entry of a map gets the value of another. -/
def copy (source target : ι) : Transfer κ (TotalMap ι α) :=
  plain fun x => x.set target (x.get source)

/-- Every value of a map, the default included. -/
def values (f : Transfer κ α) : Transfer κ (TotalMap ι α) := fun k x => x.mapM (f k)

end Maps

end Transfer

end StaticAnalysis
