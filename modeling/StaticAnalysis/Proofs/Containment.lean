import Mathlib.Data.Fintype.EquivFin
import StaticAnalysis.Proofs.CanonicalMap
import StaticAnalysis.Proofs.NestedLattice

/-!
The membership test. The members of a nested lattice are the values of the carrier between its two
ends, so a test that is exact lets these pass and no others. The test of sets looks at the universe,
those of pairs and products look at the components, and that of maps looks at nothing: every map
passes. Hence the test never refuses a member, and it is exact if and only if nothing restricts the
values of the maps in the lattice: all values of what a map is into are members of it.

For the lattices of shapes this can be seen from the shape, as there are more atoms than in any
universe: no map may have values that are, or contain, sets or products.
-/

namespace StaticAnalysis

/-! ### Between the ends -/

namespace Lattice

variable {α β κ : Type} {L : Lattice α} {M : Lattice β} {P : α → Prop} {Q : β → Prop}

/-- Values of the carrier between the ends are members. The order of a product is the one that least
upper bounds induce, so what it says about the components is said in terms of these. -/
structure Enclosed (L : Lattice α) (Member : α → Prop) : Prop where
  of_below : ∀ {x}, L.Below L.bottom x → L.Below x L.top → Member x
  of_lub : ∀ {x}, L.lub L.bottom x = .ok x → L.lub x L.top = .ok L.top → Member x

theorem enclosed_true : L.Enclosed fun _ => True := ⟨fun _ _ => trivial, fun _ _ => trivial⟩

theorem enclosed_pair (hL : L.Enclosed P) (hM : M.Enclosed Q) :
    (L.pair M).Enclosed fun x => P x.1 ∧ Q x.2 where
  of_below hbottom htop := by
    rw [below_pair_iff] at hbottom htop
    exact ⟨hL.of_below hbottom.1 htop.1, hM.of_below hbottom.2 htop.2⟩
  of_lub hbottom htop := by
    rw [lub_pair_eq_ok_iff] at hbottom htop
    exact ⟨hL.of_lub hbottom.1 htop.1, hM.of_lub hbottom.2 htop.2⟩

section Composite

variable [DecidableEq α]

theorem below_product_iff_productLub {size : Nat} {x y : List α} :
    (L.product size).Below x y ↔ L.productLub x y = .ok y := by
  show leqOfLub L.productLub x y = .ok true ↔ _
  cases h : L.productLub x y <;> simp [leqOfLub, h, bind, Except.bind, pure, Except.pure]

theorem enclosed_product {size : Nat} (hL : L.Enclosed P) :
    (L.product size).Enclosed (Sized size P) := by
  have hlub : ∀ {x : List α}, L.productLub (List.replicate size L.bottom) x = .ok x →
      L.productLub x (List.replicate size L.top) = .ok (List.replicate size L.top) →
        Sized size P x := by
    intro x hbottom htop
    obtain ⟨hsize, hbottom⟩ := productLub_eq_ok_iff.mp hbottom
    obtain ⟨-, htop⟩ := productLub_eq_ok_iff.mp htop
    obtain ⟨-, hbottom⟩ := List.forall₂_iff_get.mp (mapM_eq_ok_iff.mp hbottom)
    obtain ⟨-, htop⟩ := List.forall₂_iff_get.mp (mapM_eq_ok_iff.mp htop)
    rw [List.length_replicate] at hsize
    refine ⟨hsize.symm, fun a ha => ?_⟩
    obtain ⟨i, rfl⟩ := List.get_of_mem ha
    refine hL.of_lub ?_ ?_
    · simpa using hbottom i (by simp [hsize]) i.isLt
    · simpa using htop i (by simp [hsize]) (by simp [hsize])
  exact ⟨fun hbottom htop => hlub (below_product_iff_productLub.mp hbottom)
    (below_product_iff_productLub.mp htop), hlub⟩

variable [Ord κ] [Std.TransOrd κ] [Std.LawfulEqOrd κ]

theorem enclosed_totalMap (hordered : L.Ordered P) (hL : L.Enclosed P) :
    (L.totalMap (κ := κ)).Enclosed (TotalMap.All P) where
  of_below {x} hbottom htop := by
    obtain ⟨hdefault, hget⟩ := below_totalMap_iff.mp hbottom
    obtain ⟨hdefault', hget'⟩ := below_totalMap_iff.mp htop
    refine ⟨hL.of_below hdefault hdefault', fun k => hL.of_below ?_ ?_⟩
    · simpa [totalMap] using hget k
    · simpa [totalMap] using hget' k
  of_lub {x} hbottom htop := by
    -- a map that is one of the ends is not compared with it
    rcases eq_or_ne x L.totalMap.bottom with rfl | hne
    · exact TotalMap.all_const hordered.bottom_mem
    rcases eq_or_ne x L.totalMap.top with rfl | hne'
    · exact TotalMap.all_const hordered.top_mem
    obtain ⟨hdefault, hget⟩ := TotalMap.zipM_eq_ok_iff.mp ((if_neg hne.symm).symm.trans hbottom)
    obtain ⟨hdefault', hget'⟩ := TotalMap.zipM_eq_ok_iff.mp ((if_neg hne').symm.trans htop)
    refine ⟨hL.of_lub hdefault hdefault', fun k => hL.of_lub ?_ ?_⟩
    · simpa [totalMap] using hget k
    · simpa [totalMap] using hget' k

end Composite

end Lattice

namespace NestedSets

variable {κ : Type} [Ord κ] [Std.TransOrd κ] {carrier : Std.ExtTreeSet κ compare}
  {M : MeetLattice (Std.ExtTreeSet κ compare)}

/-- Turning upside down twice changes nothing. -/
theorem eq_or_eq_reverse (h : NestedSets carrier M) :
    M = Powerset.lattice carrier ∨ M = (Powerset.lattice carrier).reverse := by
  induction h with
  | powerset => exact Or.inl rfl
  | reverse _ ih =>
    rcases ih with rfl | rfl
    · exact Or.inr rfl
    · exact Or.inl rfl

/-- The test of sets looks at the universe, whichever way up they are. -/
theorem contains_iff [Std.LawfulEqOrd κ] (h : NestedSets carrier M)
    {x : Std.ExtTreeSet κ compare} : M.contains x = true ↔ Powerset.Within carrier x := by
  induction h with
  | powerset => exact Powerset.isSubset_iff
  | reverse _ ih => exact ih

end NestedSets

namespace Powerset

variable {κ : Type} [Ord κ] [Std.TransOrd κ] [Std.LawfulEqOrd κ]
  {carrier : Std.ExtTreeSet κ compare}

theorem enclosed_lattice : (lattice carrier).toLattice.Enclosed (Within carrier) where
  of_below _ htop := below_lattice_iff.mp htop
  of_lub {x} _ htop k hk := by
    have hunion : x ∪ carrier = carrier := Except.ok.inj htop
    rw [← hunion]
    exact Std.ExtTreeSet.mem_union_iff.mpr (Or.inl hk)

theorem enclosed_reverse : (lattice carrier).reverse.toLattice.Enclosed (Within carrier) where
  of_below {x} hbottom _ := by
    have hbelow : (lattice carrier).Below x carrier := hbottom
    exact below_lattice_iff.mp hbelow
  of_lub {x} hbottom _ k hk := by
    have hinter : carrier ∩ x = x := Except.ok.inj hbottom
    rw [← hinter] at hk
    exact (Std.ExtTreeSet.mem_inter_iff.mp hk).1

end Powerset

namespace Nested

variable {α : Type} {L : Lattice α} {Member : α → Prop}

theorem enclosed (h : Nested L Member) : L.Enclosed Member := by
  induction h with
  | flat => exact Lattice.enclosed_true
  | sign => exact Lattice.enclosed_true
  | extent => exact Lattice.enclosed_true
  | ends _ => exact Lattice.enclosed_true
  | sets h =>
    rcases h.eq_or_eq_reverse with rfl | rfl
    · exact Powerset.enclosed_lattice
    · exact Powerset.enclosed_reverse
  | pair _ _ ihL ihM => exact Lattice.enclosed_pair ihL ihM
  | product size _ ih => exact Lattice.enclosed_product ih
  | map hL ih => exact Lattice.enclosed_totalMap hL.ordered ih

/-- The members of a nested lattice are the values between its ends. -/
theorem member_iff_between (h : Nested L Member) {x : α} :
    Member x ↔ L.Below L.bottom x ∧ L.Below x L.top :=
  ⟨fun hx => ⟨h.ordered.bottom_below hx, h.ordered.below_top hx⟩,
    fun hx => h.enclosed.of_below hx.1 hx.2⟩

/-- The test never refuses a member. -/
theorem contains_of_member (h : Nested L Member) {x : α} (hx : Member x) : L.contains x = true := by
  induction h with
  | flat => rfl
  | sign => rfl
  | extent => rfl
  | ends _ => rfl
  | sets h => exact h.contains_iff.mpr hx
  | pair _ _ ihL ihM => simp [Lattice.pair, ihL hx.1, ihM hx.2]
  | product size _ ih => simpa [Lattice.product, hx.1] using fun a ha => ih (hx.2 a ha)
  | map _ _ => rfl

end Nested

/-! ### Exact tests -/

/-- The test does what it is for: the ends pass, bounds of what passes exist and pass, and whatever
passes lies between the ends. -/
structure Lattice.Exact {α : Type} (L : Lattice α) : Prop where
  bottom : L.contains L.bottom = true
  top : L.contains L.top = true
  lub : ∀ {x y}, L.contains x = true → L.contains y = true →
    ∃ z, L.lub x y = .ok z ∧ L.contains z = true
  between : ∀ {x}, L.contains x = true → L.Below L.bottom x ∧ L.Below x L.top

/-- The test of a nested lattice is exact if only members pass. -/
theorem Nested.exact_iff {α : Type} {L : Lattice α} {Member : α → Prop} (h : Nested L Member) :
    L.Exact ↔ ∀ x, L.contains x = true → Member x := by
  constructor
  · exact fun hexact x hx => h.member_iff_between.mpr (hexact.between hx)
  · intro hmember
    refine ⟨h.contains_of_member h.ordered.bottom_mem, h.contains_of_member h.ordered.top_mem, ?_,
      fun hx => h.member_iff_between.mp (hmember _ hx)⟩
    intro x y hx hy
    obtain ⟨z, hz, hlub⟩ := h.ordered.lub_least (hmember x hx) (hmember y hy)
    exact ⟨z, hz, h.contains_of_member hlub.mem⟩

section Parts

variable {α β κ : Type} {L : Lattice α} {M : Lattice β} {P : α → Prop} {Q : β → Prop}

theorem Lattice.contains_pair_iff {x : α × β} :
    (L.pair M).contains x = true ↔ L.contains x.1 = true ∧ M.contains x.2 = true :=
  Bool.and_eq_true_iff

/-- The test of a pair is exact if those of its parts are. -/
theorem Nested.exact_pair_iff (hL : Nested L P) (hM : Nested M Q) :
    (L.pair M).Exact ↔ L.Exact ∧ M.Exact := by
  rw [(Nested.pair hL hM).exact_iff, hL.exact_iff, hM.exact_iff]
  constructor
  · -- a value of one part that passes does so beside the bottom of the other part
    intro h
    refine ⟨fun x hx => ?_, fun y hy => ?_⟩
    · have hbottom := hM.contains_of_member hM.ordered.bottom_mem
      exact (h (x, M.bottom) (Lattice.contains_pair_iff.mpr ⟨hx, hbottom⟩)).1
    · have hbottom := hL.contains_of_member hL.ordered.bottom_mem
      exact (h (L.bottom, y) (Lattice.contains_pair_iff.mpr ⟨hbottom, hy⟩)).2
  · rintro ⟨hP, hQ⟩ x hx
    rw [Lattice.contains_pair_iff] at hx
    exact ⟨hP x.1 hx.1, hQ x.2 hx.2⟩

variable [DecidableEq α]

theorem Lattice.contains_product_iff {size : Nat} {x : List α} :
    (L.product size).contains x = true ↔ Sized size (fun a => L.contains a = true) x := by
  simp [product, Sized]

/-- The test of a product is exact if that of its components is, or if it has none. -/
theorem Nested.exact_product_iff (hL : Nested L P) {size : Nat} :
    (L.product size).Exact ↔ size = 0 ∨ L.Exact := by
  rw [(Nested.product size hL).exact_iff, hL.exact_iff]
  constructor
  · -- a value that passes does so as every component
    intro h
    refine or_iff_not_imp_left.mpr fun hsize x hx => ?_
    have hcontains : Lattice.Sized size (fun a => L.contains a = true) (List.replicate size x) :=
      ⟨List.length_replicate, fun a ha => List.eq_of_mem_replicate ha ▸ hx⟩
    have hmember := h _ (Lattice.contains_product_iff.mpr hcontains)
    exact hmember.2 x (List.mem_replicate.mpr ⟨hsize, rfl⟩)
  · intro h x hx
    obtain ⟨hlength, hall⟩ := Lattice.contains_product_iff.mp hx
    refine ⟨hlength, fun a ha => ?_⟩
    rcases h with rfl | h
    · simp [List.length_eq_zero_iff.mp hlength] at ha
    · exact h a (hall a ha)

variable [Ord κ] [Std.TransOrd κ] [Std.LawfulEqOrd κ]

/-- The test of maps is exact if everything that can be a value of a map is a member. -/
theorem Nested.exact_totalMap_iff (hL : Nested L P) :
    (L.totalMap (κ := κ)).Exact ↔ ∀ x, P x := by
  rw [(Nested.map hL).exact_iff]
  constructor
  · exact fun h x => (h (.const x) rfl).1
  · exact fun h m _ => ⟨h m.default, fun k => h (m.get k)⟩

end Parts

/-- A lattice put together from basic ones in which nothing restricts the values of the maps. A
product without components has no maps in it, whatever it is a product of. -/
inductive Nested.MapsUnrestricted : {α : Type} → Lattice α → (α → Prop) → Prop
  | flat {α : Type} [DecidableEq α] : MapsUnrestricted (Flat.lattice (α := α)) fun _ => True
  | sign : MapsUnrestricted Sign.lattice fun _ => True
  | extent : MapsUnrestricted Extent.lattice fun _ => True
  | ends {α : Type} [DecidableEq α] {bottom top : α} (hne : bottom ≠ top) :
      MapsUnrestricted (.ofEnds bottom top) fun _ => True
  | sets {κ : Type} [Ord κ] [Std.TransOrd κ] [Std.LawfulEqOrd κ]
      {carrier : Std.ExtTreeSet κ compare} {M : MeetLattice (Std.ExtTreeSet κ compare)}
      (h : NestedSets carrier M) : MapsUnrestricted M.toLattice (Powerset.Within carrier)
  | pair {α β : Type} {L : Lattice α} {M : Lattice β} {P : α → Prop} {Q : β → Prop}
      (hL : MapsUnrestricted L P) (hM : MapsUnrestricted M Q) :
      MapsUnrestricted (L.pair M) fun x => P x.1 ∧ Q x.2
  | noComponents {α : Type} [DecidableEq α] {L : Lattice α} {P : α → Prop} (hL : Nested L P) :
      MapsUnrestricted (L.product 0) (Lattice.Sized 0 P)
  | product {α : Type} [DecidableEq α] {L : Lattice α} {P : α → Prop} (size : Nat)
      (hL : MapsUnrestricted L P) : MapsUnrestricted (L.product size) (Lattice.Sized size P)
  | map {κ α : Type} [Ord κ] [Std.TransOrd κ] [Std.LawfulEqOrd κ] [DecidableEq α] {L : Lattice α}
      {P : α → Prop} (hL : Nested L P) (hall : ∀ x, P x) :
      MapsUnrestricted (L.totalMap (κ := κ)) (TotalMap.All P)

namespace Nested

variable {α : Type} {L : Lattice α} {Member : α → Prop}

theorem MapsUnrestricted.nested (h : MapsUnrestricted L Member) : Nested L Member := by
  induction h with
  | flat => exact .flat
  | sign => exact .sign
  | extent => exact .extent
  | ends hne => exact .ends hne
  | sets h => exact .sets h
  | pair _ _ ihL ihM => exact .pair ihL ihM
  | noComponents hL => exact .product 0 hL
  | product size _ ih => exact .product size ih
  | map hL _ => exact .map hL

theorem MapsUnrestricted.exact (h : MapsUnrestricted L Member) : L.Exact := by
  induction h with
  | flat => exact Nested.flat.exact_iff.mpr fun _ _ => trivial
  | sign => exact Nested.sign.exact_iff.mpr fun _ _ => trivial
  | extent => exact Nested.extent.exact_iff.mpr fun _ _ => trivial
  | ends hne => exact (Nested.ends hne).exact_iff.mpr fun _ _ => trivial
  | sets h => exact (Nested.sets h).exact_iff.mpr fun _ hx => h.contains_iff.mp hx
  | pair hL hM ihL ihM => exact (hL.nested.exact_pair_iff hM.nested).mpr ⟨ihL, ihM⟩
  | noComponents hL => exact hL.exact_product_iff.mpr (Or.inl rfl)
  | product size hL ih => exact hL.nested.exact_product_iff.mpr (Or.inr ih)
  | map hL hall => exact hL.exact_totalMap_iff.mpr hall

theorem mapsUnrestricted_of_exact (h : Nested L Member) (hexact : L.Exact) :
    MapsUnrestricted L Member := by
  induction h with
  | flat => exact .flat
  | sign => exact .sign
  | extent => exact .extent
  | ends hne => exact .ends hne
  | sets h => exact .sets h
  | pair hL hM ihL ihM =>
    obtain ⟨hexactL, hexactM⟩ := (hL.exact_pair_iff hM).mp hexact
    exact .pair (ihL hexactL) (ihM hexactM)
  | product size hL ih =>
    rcases hL.exact_product_iff.mp hexact with rfl | hexactL
    · exact .noComponents hL
    · exact .product size (ih hexactL)
  | map hL _ => exact .map hL (hL.exact_totalMap_iff.mp hexact)

end Nested

/-- The membership test. In every nested lattice both ends pass it, and so do all members, which are
the values between the ends and have least upper bounds among themselves. It is exact if and only if
nothing but members passes, and if and only if nothing restricts the values of the maps in the
lattice. -/
theorem contains_exact_iff {α : Type} {L : Lattice α} {Member : α → Prop} (h : Nested L Member) :
    L.contains L.bottom = true ∧ L.contains L.top = true ∧
      (∀ x, Member x → L.contains x = true) ∧
      (∀ x, Member x ↔ L.Below L.bottom x ∧ L.Below x L.top) ∧
      (∀ x y, Member x → Member y → ∃ z, L.lub x y = .ok z ∧ Member z) ∧
      (L.Exact ↔ ∀ x, L.contains x = true → Member x) ∧
      (L.Exact ↔ Nested.MapsUnrestricted L Member) := by
  refine ⟨?_, ?_, ?_, ?_, ?_, h.exact_iff, ?_⟩
  · -- the bottom passes
    exact h.contains_of_member h.ordered.bottom_mem
  · -- the top passes
    exact h.contains_of_member h.ordered.top_mem
  · -- members pass
    exact fun x hx => h.contains_of_member hx
  · -- members are what lies between the ends
    exact fun x => h.member_iff_between
  · -- members have bounds among the members
    exact fun x y hx hy => h.ordered.lawful.lub_mem hx hy
  · -- only members pass if the maps are unrestricted
    exact ⟨h.mapsUnrestricted_of_exact, fun hmaps => hmaps.exact⟩

/-! ### Shapes -/

/-- There are more atoms than in any set of atoms. -/
theorem exists_notMem_atomSet (s : AtomSet) : ∃ a, a ∉ s := by
  obtain ⟨a, ha⟩ := Infinite.exists_notMem_finset s.toList.toFinset
  exact ⟨a, by simpa using ha⟩

namespace Shape

/-- Nothing restricts the values: there are no sets and no products in the shape. -/
def Unrestricted : Shape → Prop
  | .sets _ => False
  | .product _ _ => False
  | .pair a b => a.Unrestricted ∧ b.Unrestricted
  | .map s => s.Unrestricted
  | _ => True

/-- Nothing restricts the values of the maps in the shape. -/
def MapsUnrestricted : Shape → Prop
  | .pair a b => a.MapsUnrestricted ∧ b.MapsUnrestricted
  | .product s size => size = 0 ∨ s.MapsUnrestricted
  | .map s => s.Unrestricted
  | _ => True

/-- All values are members if nothing restricts them, and only then. -/
theorem forall_member_iff (s : Shape) : (∀ x, s.Member x) ↔ s.Unrestricted := by
  induction s with
  | flat => exact iff_of_true (fun _ => trivial) trivial
  | sign => exact iff_of_true (fun _ => trivial) trivial
  | extent => exact iff_of_true (fun _ => trivial) trivial
  | ends => exact iff_of_true (fun _ => trivial) trivial
  | sets s =>
    -- the set of one atom outside the universe is no member
    refine iff_of_false (fun h => ?_) id
    obtain ⟨a, ha⟩ := exists_notMem_atomSet s.carrier
    exact ha (h ((∅ : AtomSet).insert a) a (by simp))
  | pair a b iha ihb =>
    rw [Unrestricted, ← iha, ← ihb]
    constructor
    · exact fun h => ⟨fun x => (h (x, b.lattice.bottom)).1, fun y => (h (a.lattice.bottom, y)).2⟩
    · exact fun h x => ⟨h.1 x.1, h.2 x.2⟩
  | product s size ih =>
    -- a list with one component too many is no member
    refine iff_of_false (fun h => ?_) id
    have hlength : (List.replicate (size + 1) s.lattice.bottom).length = size := (h _).1
    simp at hlength
  | map s ih =>
    rw [Unrestricted, ← ih]
    constructor
    · exact fun h x => (h (.const x)).1
    · exact fun h m => ⟨h m.default, fun k => h (m.get k)⟩

/-- The test of the lattice of a shape is exact if no map in the shape has values that are, or
contain, sets or products, and not otherwise. -/
theorem exact_iff (s : Shape) (hs : s.Proper) : s.lattice.Exact ↔ s.MapsUnrestricted := by
  induction s with
  | flat => exact iff_of_true Nested.MapsUnrestricted.flat.exact trivial
  | sign => exact iff_of_true Nested.MapsUnrestricted.sign.exact trivial
  | extent => exact iff_of_true Nested.MapsUnrestricted.extent.exact trivial
  | ends => exact iff_of_true (Nested.MapsUnrestricted.ends hs).exact trivial
  | sets s => exact iff_of_true (Nested.MapsUnrestricted.sets s.nestedSets).exact trivial
  | pair a b iha ihb =>
    rw [MapsUnrestricted, ← iha hs.1, ← ihb hs.2]
    exact (a.nested hs.1).exact_pair_iff (b.nested hs.2)
  | product s size ih =>
    rw [MapsUnrestricted, ← ih hs]
    exact (s.nested hs).exact_product_iff
  | map s ih =>
    rw [MapsUnrestricted, ← forall_member_iff]
    exact (s.nested hs).exact_totalMap_iff

end Shape

/-- Sets of truth values in a product, beside the signs of variables. -/
def shelteredShape : Shape := .pair (.product (.sets reversedBools) 2) (.map .sign)

/-- All sets of truth values. -/
def truthSets : MeetLattice (Std.ExtTreeSet Bool compare) :=
  Powerset.lattice (.ofList [false, true] compare)

theorem contains_exact_shelteredShape :
    shelteredShape.lattice.Exact ∧ (truthSets.toLattice.totalMap (κ := Nat)).Exact ∧
      deepShape.lattice.contains deepElem = true ∧
      deepShape.lattice.Below deepElem deepShape.lattice.top ∧ ¬ deepShape.lattice.Exact := by
  have hproper : shelteredShape.Proper := by simp [shelteredShape, Shape.Proper]
  have htruthSets : Nested truthSets.toLattice (Powerset.Within _) := .sets .powerset
  obtain ⟨-, -, -, -, -, -, hsheltered⟩ := contains_exact_iff (shelteredShape.nested hproper)
  obtain ⟨-, -, -, -, -, -, hmaps⟩ := contains_exact_iff (Nested.map (κ := Nat) htruthSets)
  obtain ⟨-, -, hcontains, hbetween, -, -, -⟩ :=
    contains_exact_iff (deepShape.nested proper_deepShape)
  refine ⟨?_, ?_, hcontains _ member_deepElem, ((hbetween _).mp member_deepElem).2, ?_⟩
  · exact hsheltered.mpr
      (.pair (.product 2 (.sets reversedBools.nestedSets)) (.map .sign fun _ => trivial))
  · -- both truth values are in the universe, so no set is outside of it
    exact hmaps.mpr (.map htruthSets fun x b _ => by cases b <;> simp)
  · rw [deepShape.exact_iff proper_deepShape]
    simp [deepShape, Shape.MapsUnrestricted, Shape.Unrestricted]

/-- Maps into the subsets of a set with one member. -/
def mapsToSets : Shape := .map (.sets (.powerset (.ofList [.int 1] compare)))

/-- Maps into products with one component. -/
def mapsToProducts : Shape := .map (.product .flat 1)

/-- A map into sets outside the universe passes and is not below the top, and a map into products of
the wrong size passes and cannot be compared with the bottom at all. -/
theorem contains_map_not_exact :
    (mapsToSets.lattice.contains (.const (.ofList [.int 5] compare)) = true ∧
      mapsToSets.lattice.leq (.const (.ofList [.int 5] compare)) mapsToSets.lattice.top = .ok false) ∧
    (mapsToProducts.lattice.contains (.const []) = true ∧
      mapsToProducts.lattice.leq mapsToProducts.lattice.bottom (.const []) =
        .error (.sizeMismatch ⟨1, 0⟩)) ∧
    ¬ ∀ s : Shape, s.Proper → s.lattice.Exact := by
  have hsets : mapsToSets.lattice.leq (.const (.ofList [.int 5] compare)) mapsToSets.lattice.top =
      .ok false := by decide +kernel
  refine ⟨⟨rfl, hsets⟩, ⟨rfl, by decide +kernel⟩, fun h => ?_⟩
  have hbelow : mapsToSets.lattice.leq (.const (.ofList [.int 5] compare))
      mapsToSets.lattice.top = .ok true := ((h mapsToSets trivial).between rfl).2
  rw [hsets] at hbelow
  cases hbelow

end StaticAnalysis
