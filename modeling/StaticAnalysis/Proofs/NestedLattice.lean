import StaticAnalysis.Proofs.CompositeLattice
import StaticAnalysis.Shape

/-!
Nested lattices. Basic lattices are flat, chains of extents, given by two different ends, or made of
sets; out of lattices come pairs, products of any size and total maps, to any depth. With every such
lattice goes the predicate of the values that belong to it: sets inside their universe, products of
the declared size, and everything in them again a member of what it is a component of.

Main statement: all of them are lattices, by the algebraic laws and by the order, and the sets have
greatest lower bounds too. The lattices of shapes are among them.
-/

namespace StaticAnalysis

/-- The subsets of a universe, turned upside down any number of times. -/
inductive NestedSets {κ : Type} [Ord κ] [Std.TransOrd κ] (carrier : Std.ExtTreeSet κ compare) :
    MeetLattice (Std.ExtTreeSet κ compare) → Prop
  | powerset : NestedSets carrier (Powerset.lattice carrier)
  | reverse {M : MeetLattice (Std.ExtTreeSet κ compare)} (h : NestedSets carrier M) :
      NestedSets carrier M.reverse

theorem NestedSets.ordered {κ : Type} [Ord κ] [Std.TransOrd κ] [Std.LawfulEqOrd κ]
    {carrier : Std.ExtTreeSet κ compare} {M : MeetLattice (Std.ExtTreeSet κ compare)}
    (h : NestedSets carrier M) : M.Ordered (Powerset.Within carrier) := by
  induction h with
  | powerset => exact Powerset.lattice_ordered
  | reverse _ ih => exact ih.reverse

/-- A lattice put together from basic ones, with its members. -/
inductive Nested : {α : Type} → Lattice α → (α → Prop) → Prop
  | flat {α : Type} [DecidableEq α] : Nested (Flat.lattice (α := α)) fun _ => True
  | sign : Nested Sign.lattice fun _ => True
  | extent : Nested Extent.lattice fun _ => True
  | ends {α : Type} [DecidableEq α] {bottom top : α} (hne : bottom ≠ top) :
      Nested (.ofEnds bottom top) fun _ => True
  | sets {κ : Type} [Ord κ] [Std.TransOrd κ] [Std.LawfulEqOrd κ]
      {carrier : Std.ExtTreeSet κ compare} {M : MeetLattice (Std.ExtTreeSet κ compare)}
      (h : NestedSets carrier M) : Nested M.toLattice (Powerset.Within carrier)
  | pair {α β : Type} {L : Lattice α} {M : Lattice β} {P : α → Prop} {Q : β → Prop}
      (hL : Nested L P) (hM : Nested M Q) : Nested (L.pair M) fun x => P x.1 ∧ Q x.2
  | product {α : Type} [DecidableEq α] {L : Lattice α} {P : α → Prop} (size : Nat)
      (hL : Nested L P) : Nested (L.product size) (Lattice.Sized size P)
  | map {κ α : Type} [Ord κ] [Std.TransOrd κ] [Std.LawfulEqOrd κ] [DecidableEq α] {L : Lattice α}
      {P : α → Prop} (hL : Nested L P) : Nested (L.totalMap (κ := κ)) (TotalMap.All P)

theorem Nested.ordered {α : Type} {L : Lattice α} {Member : α → Prop} (h : Nested L Member) :
    L.Ordered Member := by
  induction h with
  | flat => exact Flat.lattice_ordered
  | sign => exact Flat.lattice_ordered
  | extent => exact Extent.lattice_ordered
  | ends hne => exact Lattice.ofEnds_ordered hne
  | sets h => exact h.ordered.toOrdered
  | pair _ _ ihL ihM => exact Lattice.pair_ordered ihL ihM
  | product size _ ih => exact Lattice.product_ordered ih
  | map _ ih => exact Lattice.totalMap_ordered ih

/-- Every nested lattice is a lattice on its members: least upper bounds satisfy the algebraic laws
and are least in the order, the order is a partial order between the two ends, and members that are
below each other are equal. Lattices of sets have greatest lower bounds as well. -/
theorem nested_lattice_laws :
    (∀ {α : Type} [DecidableEq α] {L : Lattice α} {Member : α → Prop}, Nested L Member →
      L.Lawful Member ∧ L.Ordered Member ∧
        ∀ {x y}, Member x → Member y → L.equiv x y = .ok (decide (x = y))) ∧
    ∀ {κ : Type} [Ord κ] [Std.TransOrd κ] [Std.LawfulEqOrd κ]
      {carrier : Std.ExtTreeSet κ compare} {M : MeetLattice (Std.ExtTreeSet κ compare)},
      NestedSets carrier M → ∀ {x y}, Powerset.Within carrier x → Powerset.Within carrier y →
        ∃ z, M.glb x y = .ok z ∧ M.IsGlb (Powerset.Within carrier) x y z := by
  refine ⟨fun h => ⟨h.ordered.lawful, h.ordered, ?_⟩, fun h => h.ordered.glb_greatest⟩
  exact fun hx hy => h.ordered.equiv_eq hx hy

/-! ### Shapes -/

/-- The universe of a lattice of sets. -/
def SetShape.carrier : SetShape → AtomSet
  | .powerset carrier => carrier
  | .reverse s => s.carrier

theorem SetShape.nestedSets : ∀ s : SetShape, NestedSets s.carrier s.lattice
  | .powerset _ => .powerset
  | .reverse s => .reverse s.nestedSets

namespace Shape

/-- The element belongs to the lattice of the shape, with everything in it. -/
def Member : (s : Shape) → s.Elem → Prop
  | .flat, _ => True
  | .sign, _ => True
  | .sets s, x => Powerset.Within s.carrier x
  | .pair a b, x => a.Member x.1 ∧ b.Member x.2
  | .product s size, x => Lattice.Sized size s.Member x
  | .map s, x => x.All s.Member
  | .extent, _ => True
  | .ends _ _, _ => True

/-- Wherever a lattice is given by its ends, they differ. -/
def Proper : Shape → Prop
  | .pair a b => a.Proper ∧ b.Proper
  | .product s _ => s.Proper
  | .map s => s.Proper
  | .ends bottom top => bottom ≠ top
  | _ => True

theorem nested : ∀ s : Shape, s.Proper → Nested s.lattice s.Member
  | .flat, _ => .flat
  | .sign, _ => .sign
  | .sets s, _ => .sets s.nestedSets
  | .pair a b, h => .pair (a.nested h.1) (b.nested h.2)
  | .product s size, h => .product size (s.nested h)
  | .map s, h => .map (s.nested h)
  | .extent, _ => .extent
  | .ends _ _, h => .ends h

end Shape

/-- The sets of truth values, upside down. -/
def reversedBools : SetShape := .reverse (.powerset (.ofList [Atom.bool false, Atom.bool true] compare))

/-- Maps from atoms to pairs of a set upside down and two truth values. -/
def deepShape : Shape :=
  .map (.pair (.sets reversedBools) (.product (.ends (.bool false) (.bool true)) 2))

theorem proper_deepShape : deepShape.Proper := by
  simp [deepShape, Shape.Proper]

/-- The map that has the empty set and two different truth values everywhere. -/
def deepElem : deepShape.Elem := .const (∅, [.bool false, .bool true])

theorem member_deepElem : deepShape.Member deepElem :=
  TotalMap.all_const ⟨Powerset.within_empty, rfl, fun _ _ => trivial⟩

theorem nested_lattice_laws_deepShape :
    (deepShape.lattice.Lawful deepShape.Member ∧ deepShape.lattice.Ordered deepShape.Member ∧
      deepShape.lattice.equiv deepElem deepShape.lattice.bottom = .ok false) ∧
    ∃ z, reversedBools.lattice.glb ∅ reversedBools.carrier = .ok z ∧
      reversedBools.lattice.IsGlb (Powerset.Within reversedBools.carrier) ∅ reversedBools.carrier
        z := by
  obtain ⟨hlawful, hordered, hequiv⟩ := nested_lattice_laws.1 (deepShape.nested proper_deepShape)
  refine ⟨⟨hlawful, hordered, ?_⟩, ?_⟩
  · have hne : deepElem ≠ deepShape.lattice.bottom := by
      intro h
      have hdefault : [Atom.bool false, .bool true] = [.bool false, .bool false] :=
        congrArg (fun m : deepShape.Elem => m.default.2) h
      simp at hdefault
    rw [hequiv member_deepElem hordered.bottom_mem, decide_eq_false hne]
  · exact nested_lattice_laws.2 reversedBools.nestedSets Powerset.within_empty Powerset.within_self

end StaticAnalysis
