import StaticAnalysis.Lattice.Powerset
import StaticAnalysis.Proofs.Lattice

/-!
Lattices by their order. On its members the order of such a lattice is a partial order between two
ends, and the least upper bound is the least of the members above both. Least upper bounds are
unique, so the algebraic laws follow, and from the algebraic laws with a greatest member the order
comes back.

A lattice with greatest lower bounds can be turned upside down. Sets of keys are the case in point:
inclusion orders them, and they may be reversed any number of times.
-/

namespace StaticAnalysis

namespace Lattice

variable {α : Type} {L : Lattice α} {Member : α → Prop} {x y z a b c : α}

/-- The least of the members above two elements. -/
structure IsLub (L : Lattice α) (Member : α → Prop) (x y z : α) : Prop where
  mem : Member z
  left : L.Below x z
  right : L.Below y z
  least : ∀ {w}, Member w → L.Below x w → L.Below y w → L.Below z w

/-- The greatest of the members below two elements. -/
structure IsGlb (L : Lattice α) (Member : α → Prop) (x y z : α) : Prop where
  mem : Member z
  left : L.Below z x
  right : L.Below z y
  greatest : ∀ {w}, Member w → L.Below w x → L.Below w y → L.Below w z

/-- On the members the order is a partial order with a least and a greatest member, and any two have
a least upper bound. -/
structure Ordered (L : Lattice α) (Member : α → Prop) : Prop where
  bottom_mem : Member L.bottom
  top_mem : Member L.top
  leq_total : ∀ {x y}, Member x → Member y → ∃ b, L.leq x y = .ok b
  refl : ∀ {x}, Member x → L.Below x x
  trans : ∀ {x y z}, Member x → Member y → Member z → L.Below x y → L.Below y z → L.Below x z
  antisymm : ∀ {x y}, Member x → Member y → L.Below x y → L.Below y x → x = y
  bottom_below : ∀ {x}, Member x → L.Below L.bottom x
  below_top : ∀ {x}, Member x → L.Below x L.top
  lub_least : ∀ {x y}, Member x → Member y → ∃ z, L.lub x y = .ok z ∧ L.IsLub Member x y z

theorem IsLub.symm (h : L.IsLub Member x y z) : L.IsLub Member y x z :=
  ⟨h.mem, h.right, h.left, fun hw hy hx => h.least hw hx hy⟩

namespace Ordered

/-- There is only one least upper bound, the one that the lattice computes. -/
theorem lub_eq_ok_iff (h : L.Ordered Member) (hx : Member x) (hy : Member y) :
    L.lub x y = .ok z ↔ L.IsLub Member x y z := by
  obtain ⟨z', hz', hlub⟩ := h.lub_least hx hy
  rw [hz', Except.ok.injEq]
  constructor
  · rintro rfl
    exact hlub
  · intro hz
    exact h.antisymm hlub.mem hz.mem (hlub.least hz.mem hz.left hz.right)
      (hz.least hlub.mem hlub.left hlub.right)

theorem isLub_of_below (h : L.Ordered Member) (hy : Member y) (hxy : L.Below x y) :
    L.IsLub Member x y y :=
  ⟨hy, hxy, h.refl hy, fun _ _ hyw => hyw⟩

/-- Bounds of three elements can be taken in either order. -/
theorem isLub_assoc (h : L.Ordered Member) (hx : Member x) (hy : Member y) (hz : Member z)
    (ha : L.IsLub Member x y a) (hb : L.IsLub Member y z b) (hc : L.IsLub Member a z c) :
    L.IsLub Member x b c where
  mem := hc.mem
  left := h.trans hx ha.mem hc.mem ha.left hc.left
  right := hb.least hc.mem (h.trans hy ha.mem hc.mem ha.right hc.left) hc.right
  least hw hxw hbw := by
    have hyw := h.trans hy hb.mem hw hb.left hbw
    have hzw := h.trans hz hb.mem hw hb.right hbw
    exact hc.least hw (ha.least hw hxw hyw) hzw

/-- Least upper bounds in a partial order satisfy the algebraic laws. -/
theorem lawful (h : L.Ordered Member) : L.Lawful Member where
  bottom_mem := h.bottom_mem
  lub_mem hx hy := by
    obtain ⟨z, hz, hlub⟩ := h.lub_least hx hy
    exact ⟨z, hz, hlub.mem⟩
  lub_comm hx hy := by
    obtain ⟨z, hz, hlub⟩ := h.lub_least hx hy
    rw [hz, (h.lub_eq_ok_iff hy hx).mpr hlub.symm]
  lub_assoc {x y z} hx hy hz := by
    obtain ⟨a, hxy, ha⟩ := h.lub_least hx hy
    obtain ⟨b, hyz, hb⟩ := h.lub_least hy hz
    obtain ⟨c, haz, hc⟩ := h.lub_least ha.mem hz
    have hxb := (h.lub_eq_ok_iff hx hb.mem).mpr (h.isLub_assoc hx hy hz ha hb hc)
    rw [hxy, hyz]
    exact haz.trans hxb.symm
  lub_self hx := (h.lub_eq_ok_iff hx hx).mpr (h.isLub_of_below hx (h.refl hx))
  bottom_lub hx :=
    (h.lub_eq_ok_iff h.bottom_mem hx).mpr (h.isLub_of_below hx (h.bottom_below hx))
  leq_total := h.leq_total
  below_iff hx hy := by
    rw [h.lub_eq_ok_iff hx hy]
    exact ⟨h.isLub_of_below hy, IsLub.left⟩

/-- Members that are below each other are equal, and the lattice finds out. -/
theorem equiv_eq [DecidableEq α] (h : L.Ordered Member) (hx : Member x) (hy : Member y) :
    L.equiv x y = .ok (decide (x = y)) := by
  obtain ⟨b, hb⟩ := h.leq_total hx hy
  obtain ⟨c, hc⟩ := h.leq_total hy hx
  have hequiv : L.equiv x y = .ok (b && c) := both_eq_ok hb hc
  rw [hequiv, Except.ok.injEq, Bool.eq_iff_iff, Bool.and_eq_true, decide_eq_true_iff]
  constructor
  · rintro ⟨rfl, rfl⟩
    exact h.antisymm hx hy hb hc
  · rintro rfl
    have hxx : L.leq x x = .ok true := h.refl hx
    rw [hxx, Except.ok.injEq] at hb hc
    exact ⟨hb.symm, hc.symm⟩

end Ordered

/-- The algebraic laws with a greatest member give the order. -/
theorem Lawful.ordered (h : L.Lawful Member) (htop : Member L.top)
    (hbelow : ∀ {x}, Member x → L.Below x L.top) : L.Ordered Member where
  bottom_mem := h.bottom_mem
  top_mem := htop
  leq_total := h.leq_total
  refl := h.below_refl
  trans := h.below_trans
  antisymm := h.below_antisymm
  bottom_below := h.bottom_below
  below_top := hbelow
  lub_least hx hy := by
    obtain ⟨z, hz, hzm⟩ := h.lub_mem hx hy
    exact ⟨z, hz, hzm, h.below_lub_left hx hy hz, h.below_lub_right hx hy hz,
      fun hw hxw hyw => h.lub_below hx hy hw hz hzm hxw hyw⟩

theorem ofEnds_ordered [DecidableEq α] {bottom top : α} (hne : bottom ≠ top) :
    (ofEnds bottom top).Ordered fun _ => True := by
  have hlawful := ofEnds_lawful hne
  refine hlawful.ordered trivial fun {x} _ => (hlawful.below_iff trivial trivial).mpr ?_
  show Except.ok (lubOfEnds bottom top x top) = .ok top
  grind [lubOfEnds]

end Lattice

theorem Flat.lattice_ordered {α : Type} [DecidableEq α] :
    (Flat.lattice (α := α)).Ordered fun _ => True :=
  Lattice.ofEnds_ordered (by simp)

theorem Extent.lattice_ordered : Extent.lattice.Ordered fun _ => True := by
  refine Extent.lattice_lawful.ordered trivial fun {x} _ => Extent.below_iff.mpr ?_
  cases x <;> rfl

/-- An ordered lattice in which any two members have a greatest lower bound as well. -/
structure MeetLattice.Ordered {α : Type} (M : MeetLattice α) (Member : α → Prop) : Prop
    extends M.toLattice.Ordered Member where
  glb_greatest : ∀ {x y}, Member x → Member y → ∃ z, M.glb x y = .ok z ∧ M.IsGlb Member x y z

/-- Upside down, the two ends and the two bounds change places. -/
theorem MeetLattice.Ordered.reverse {α : Type} {M : MeetLattice α} {Member : α → Prop}
    (h : M.Ordered Member) : M.reverse.Ordered Member where
  bottom_mem := h.top_mem
  top_mem := h.bottom_mem
  leq_total hx hy := h.leq_total hy hx
  refl := h.refl
  trans hx hy hz hxy hyz := h.trans hz hy hx hyz hxy
  antisymm hx hy hxy hyx := h.antisymm hx hy hyx hxy
  bottom_below := h.below_top
  below_top := h.bottom_below
  lub_least hx hy := by
    obtain ⟨z, hz, hglb⟩ := h.glb_greatest hx hy
    exact ⟨z, hz, hglb.mem, hglb.left, hglb.right, hglb.greatest⟩
  glb_greatest hx hy := by
    obtain ⟨z, hz, hlub⟩ := h.lub_least hx hy
    exact ⟨z, hz, hlub.mem, hlub.left, hlub.right, hlub.least⟩

namespace Powerset

variable {κ : Type} [Ord κ] [Std.TransOrd κ] {carrier x y : Std.ExtTreeSet κ compare}

/-- The set lies inside the universe. -/
def Within (carrier x : Std.ExtTreeSet κ compare) : Prop := ∀ k ∈ x, k ∈ carrier

theorem within_empty : Within carrier ∅ := fun _ hk => absurd hk Std.ExtTreeSet.not_mem_empty

theorem within_self : Within carrier carrier := fun _ hk => hk

theorem isSubset_iff [Std.LawfulEqOrd κ] : isSubset x y = true ↔ Within y x := by
  simp only [isSubset, Within, List.all_eq_true, Std.ExtTreeSet.mem_toList,
    Std.ExtTreeSet.contains_iff_mem]

theorem below_lattice_iff [Std.LawfulEqOrd κ] :
    (lattice carrier).Below x y ↔ Within y x := by
  rw [← isSubset_iff]
  exact ⟨Except.ok.inj, congrArg Except.ok⟩

variable [Std.LawfulEqOrd κ]

/-- The subsets of a universe are ordered by inclusion, with union and intersection as bounds. -/
theorem lattice_ordered : (lattice carrier).Ordered (Within carrier) where
  bottom_mem := within_empty
  top_mem := within_self
  leq_total _ _ := ⟨_, rfl⟩
  refl _ := below_lattice_iff.mpr within_self
  trans _ _ _ hxy hyz := by
    rw [below_lattice_iff] at hxy hyz ⊢
    exact fun k hk => hyz k (hxy k hk)
  antisymm _ _ hxy hyx := by
    rw [below_lattice_iff] at hxy hyx
    exact Std.ExtTreeSet.ext_mem fun k => ⟨hxy k, hyx k⟩
  bottom_below _ := below_lattice_iff.mpr within_empty
  below_top hx := below_lattice_iff.mpr hx
  lub_least {x y} hx hy := by
    refine ⟨x ∪ y, rfl, fun k hk => ?_, ?_, ?_, fun {w} _ hxw hyw => ?_⟩
    · -- the union is inside the universe, above both sets and below what is above both
      exact (Std.ExtTreeSet.mem_union_iff.mp hk).elim (hx k) (hy k)
    · exact below_lattice_iff.mpr fun k hk => Std.ExtTreeSet.mem_union_iff.mpr (Or.inl hk)
    · exact below_lattice_iff.mpr fun k hk => Std.ExtTreeSet.mem_union_iff.mpr (Or.inr hk)
    · rw [below_lattice_iff] at hxw hyw ⊢
      exact fun k hk => (Std.ExtTreeSet.mem_union_iff.mp hk).elim (hxw k) (hyw k)
  glb_greatest {x y} hx _ := by
    refine ⟨x ∩ y, rfl, fun k hk => ?_, ?_, ?_, fun {w} _ hwx hwy => ?_⟩
    · -- the intersection, the other way round
      exact hx k (Std.ExtTreeSet.mem_inter_iff.mp hk).1
    · exact below_lattice_iff.mpr fun k hk => (Std.ExtTreeSet.mem_inter_iff.mp hk).1
    · exact below_lattice_iff.mpr fun k hk => (Std.ExtTreeSet.mem_inter_iff.mp hk).2
    · rw [below_lattice_iff] at hwx hwy ⊢
      exact fun k hk => Std.ExtTreeSet.mem_inter_iff.mpr ⟨hwx k hk, hwy k hk⟩

end Powerset

end StaticAnalysis
