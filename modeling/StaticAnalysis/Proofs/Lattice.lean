import StaticAnalysis.Lattice.Extent
import StaticAnalysis.Lattice.Flat

/-!
The laws of a lattice. A carrier can hold values that do not belong to the lattice, such as lists of
the wrong size in a product, so the laws are stated on the members of a predicate that the least
upper bound does not leave. On these members the order is a partial order with the bottom below
everything, and the least upper bound is what its name says.
-/

namespace StaticAnalysis

/-- A computation in two parts has a value when both parts have one. -/
theorem bind_eq_ok_iff {α β : Type} {x : Except Fault α} {f : α → Except Fault β} {b : β} :
    (x >>= f) = .ok b ↔ ∃ a, x = .ok a ∧ f a = .ok b := by
  cases x with
  | error fault => simp [bind, Except.bind]
  | ok a => simp [bind, Except.bind]

section Both

variable {p q : Except Fault Bool}

/-- Two tests, of which the second is made only if the first holds, have both held. -/
theorem both_eq_ok_true_iff :
    (do if ← p then q else return false) = .ok true ↔ p = .ok true ∧ q = .ok true := by
  cases p with
  | error fault => simp [bind, Except.bind]
  | ok b => cases b <;> simp [bind, Except.bind, pure, Except.pure]

theorem both_eq_ok {b c : Bool} (hp : p = .ok b) (hq : q = .ok c) :
    (do if ← p then q else return false) = .ok (b && c) := by
  rw [hp, hq]
  cases b <;> rfl

end Both

namespace Lattice

variable {α κ : Type}

/-- The order of the lattice puts `x` below `y`, or they are equal. -/
def Below (L : Lattice α) (x y : α) : Prop := L.leq x y = .ok true

/-- The laws on the members: least upper bounds exist and are commutative, associative and
idempotent, the bottom is neutral, and the order is the one that they induce. -/
structure Lawful (L : Lattice α) (Member : α → Prop) : Prop where
  bottom_mem : Member L.bottom
  lub_mem : ∀ {x y}, Member x → Member y → ∃ z, L.lub x y = .ok z ∧ Member z
  lub_comm : ∀ {x y}, Member x → Member y → L.lub x y = L.lub y x
  lub_assoc : ∀ {x y z}, Member x → Member y → Member z →
    (L.lub x y >>= fun a => L.lub a z) = (L.lub y z >>= fun b => L.lub x b)
  lub_self : ∀ {x}, Member x → L.lub x x = .ok x
  bottom_lub : ∀ {x}, Member x → L.lub L.bottom x = .ok x
  leq_total : ∀ {x y}, Member x → Member y → ∃ b, L.leq x y = .ok b
  below_iff : ∀ {x y}, Member x → Member y → (L.Below x y ↔ L.lub x y = .ok y)

namespace Lawful

variable {L : Lattice α} {Member : α → Prop} {x y z w : α}

/-- Associativity for bounds that are known. -/
theorem lub_assoc_of_eq (h : L.Lawful Member) (hx : Member x) (hy : Member y) (hz : Member z)
    {a b : α} (hxy : L.lub x y = .ok a) (hyz : L.lub y z = .ok b) : L.lub a z = L.lub x b := by
  have hassoc := h.lub_assoc hx hy hz
  rw [hxy, hyz] at hassoc
  exact hassoc

theorem below_refl (h : L.Lawful Member) (hx : Member x) : L.Below x x :=
  (h.below_iff hx hx).mpr (h.lub_self hx)

theorem bottom_below (h : L.Lawful Member) (hx : Member x) : L.Below L.bottom x :=
  (h.below_iff h.bottom_mem hx).mpr (h.bottom_lub hx)

theorem below_antisymm (h : L.Lawful Member) (hx : Member x) (hy : Member y) (hxy : L.Below x y)
    (hyx : L.Below y x) : x = y := by
  rw [h.below_iff hx hy, h.lub_comm hx hy] at hxy
  rw [h.below_iff hy hx, hxy] at hyx
  injection hyx with e
  exact e.symm

/-- What is above something else than the bottom is not the bottom. -/
theorem ne_bottom_of_below (h : L.Lawful Member) (hx : Member x) (hxy : L.Below x y)
    (hne : x ≠ L.bottom) : y ≠ L.bottom := by
  rintro rfl
  exact hne (h.below_antisymm hx h.bottom_mem hxy (h.bottom_below hx))

theorem below_trans (h : L.Lawful Member) (hx : Member x) (hy : Member y) (hz : Member z)
    (hxy : L.Below x y) (hyz : L.Below y z) : L.Below x z := by
  rw [h.below_iff hx hy] at hxy
  rw [h.below_iff hy hz] at hyz
  rw [h.below_iff hx hz, ← h.lub_assoc_of_eq hx hy hz hxy hyz]
  exact hyz

theorem mem_of_lub_eq (h : L.Lawful Member) (hx : Member x) (hy : Member y)
    (hz : L.lub x y = .ok z) : Member z := by
  obtain ⟨z', hz', hmem⟩ := h.lub_mem hx hy
  obtain rfl : z' = z := Except.ok.inj (hz'.symm.trans hz)
  exact hmem

theorem below_lub_left (h : L.Lawful Member) (hx : Member x) (hy : Member y)
    (hz : L.lub x y = .ok z) : L.Below x z := by
  rw [h.below_iff hx (h.mem_of_lub_eq hx hy hz), ← h.lub_assoc_of_eq hx hx hy (h.lub_self hx) hz]
  exact hz

theorem below_lub_right (h : L.Lawful Member) (hx : Member x) (hy : Member y)
    (hz : L.lub x y = .ok z) : L.Below y z :=
  h.below_lub_left hy hx (h.lub_comm hx hy ▸ hz)

theorem lub_below (h : L.Lawful Member) (hx : Member x) (hy : Member y) (hw : Member w)
    (hz : L.lub x y = .ok z) (hzm : Member z) (hxw : L.Below x w) (hyw : L.Below y w) :
    L.Below z w := by
  rw [h.below_iff hy hw] at hyw
  rw [h.below_iff hx hw] at hxw
  rw [h.below_iff hzm hw, h.lub_assoc_of_eq hx hy hw hz hyw]
  exact hxw

/-- Joining a list of members to a member gives their least upper bound. -/
theorem fold_lub (h : L.Lawful Member) (g : κ → α) :
    ∀ (ks : List κ) (a : α), Member a → (∀ k ∈ ks, Member (g k)) →
      ∃ z, ks.foldlM (fun acc k => L.lub acc (g k)) a = .ok z ∧ Member z ∧ L.Below a z ∧
        (∀ k ∈ ks, L.Below (g k) z) ∧
        ∀ w, Member w → L.Below a w → (∀ k ∈ ks, L.Below (g k) w) → L.Below z w
  | [], a, ha, _ => ⟨a, rfl, ha, h.below_refl ha, by simp, fun _ _ haw _ => haw⟩
  | k :: ks, a, ha, hg => by
      have hk : Member (g k) := hg k (List.mem_cons_self ..)
      obtain ⟨b, hb, hbm⟩ := h.lub_mem ha hk
      obtain ⟨z, hz, hzm, hbz, hup, hleast⟩ :=
        fold_lub h g ks b hbm fun j hj => hg j (List.mem_cons_of_mem _ hj)
      refine ⟨z, ?_, hzm, ?_, ?_, ?_⟩
      · -- the fold succeeds
        rw [List.foldlM_cons, hb]
        exact hz
      · -- its result is above the start
        exact h.below_trans ha hbm hzm (h.below_lub_left ha hk hb) hbz
      · -- and above every element
        intro j hj
        rcases List.mem_cons.mp hj with rfl | hj
        · exact h.below_trans hk hbm hzm (h.below_lub_right ha hk hb) hbz
        · exact hup j hj
      · -- and below whatever is above all of them
        intro w hw haw hall
        refine hleast w hw ?_ fun j hj => hall j (List.mem_cons_of_mem _ hj)
        exact h.lub_below ha hk hw hb hbm haw (hall k (List.mem_cons_self ..))

end Lawful

/-- A lattice whose order is induced and whose least upper bound never fails is lawful on all of its
carrier once the bound satisfies the algebraic laws. -/
theorem lawful_of_total [DecidableEq α] (L : Lattice α) (sup : α → α → α)
    (hlub : ∀ x y, L.lub x y = .ok (sup x y)) (hleq : L.leq = leqOfLub L.lub)
    (hcomm : ∀ x y, sup x y = sup y x) (hassoc : ∀ x y z, sup (sup x y) z = sup x (sup y z))
    (hself : ∀ x, sup x x = x) (hbottom : ∀ x, sup L.bottom x = x) :
    L.Lawful fun _ => True := by
  have hleq' : ∀ x y, L.leq x y = .ok (decide (sup x y = y)) := by
    intro x y
    rw [hleq, leqOfLub, hlub]
    rfl
  refine ⟨trivial, fun _ _ => ⟨_, hlub _ _, trivial⟩, ?_, ?_, ?_, ?_, fun _ _ => ⟨_, hleq' _ _⟩, ?_⟩
  · -- commutative
    intro x y _ _
    rw [hlub, hlub, hcomm]
  · -- associative
    intro x y z _ _ _
    rw [hlub, hlub]
    show L.lub (sup x y) z = L.lub x (sup y z)
    rw [hlub, hlub, hassoc]
  · -- idempotent
    intro x _
    rw [hlub, hself]
  · -- the bottom is neutral
    intro x _
    rw [hlub, hbottom]
  · -- the order is the one that the bounds induce
    intro x y _ _
    rw [Below, hleq', hlub]
    simp

/-- Two different ends make a lattice. -/
theorem ofEnds_lawful [DecidableEq α] {bottom top : α} (hne : bottom ≠ top) :
    (ofEnds bottom top).Lawful fun _ => True := by
  refine lawful_of_total _ (lubOfEnds bottom top) (fun _ _ => rfl) rfl ?_ ?_ ?_ ?_
  · -- commutative
    intro x y
    simp only [lubOfEnds]
    grind
  · -- associative
    intro x y z
    simp only [lubOfEnds]
    grind
  · -- idempotent
    intro x
    simp [lubOfEnds]
  · -- the bottom is neutral
    intro x
    simp [lubOfEnds, ofEnds]

end Lattice

theorem Flat.lattice_lawful {α : Type} [DecidableEq α] :
    (Flat.lattice (α := α)).Lawful fun _ => True :=
  Lattice.ofEnds_lawful (by simp)

/-- The order of a flat lattice. -/
theorem Flat.below_iff {α : Type} [DecidableEq α] {x y : Flat α} :
    Flat.lattice.Below x y ↔ x = .bottom ∨ x = y ∨ y = .top := by
  rw [Flat.lattice_lawful.below_iff trivial trivial]
  show Except.ok (Lattice.lubOfEnds .bottom .top x y) = .ok y ↔ _
  grind [Lattice.lubOfEnds]

/-- The chain of extents is a lattice. -/
theorem Extent.lattice_lawful : Extent.lattice.Lawful fun _ => True := by
  refine Lattice.lawful_of_total _ Extent.max (fun _ _ => rfl) rfl ?_ ?_ ?_ ?_
  · intro x y
    cases x <;> cases y <;> grind [Extent.max]
  · intro x y z
    cases x <;> cases y <;> cases z <;> grind [Extent.max]
  · intro x
    cases x <;> simp [Extent.max]
  · intro x
    cases x <;> rfl

theorem Extent.below_iff {x y : Extent} : Extent.lattice.Below x y ↔ x.max y = y := by
  rw [Extent.lattice_lawful.below_iff trivial trivial]
  exact ⟨fun h => Except.ok.inj h, fun h => congrArg Except.ok h⟩

theorem Extent.max_shift {n : Int} {x y : Extent} (hxy : x.max y = y) :
    (x.shift n).max (y.shift n) = y.shift n := by
  cases x <;> cases y <;> simp only [Extent.max, Extent.shift] at hxy ⊢ <;> grind

theorem Extent.max_cap {n : Int} {x y : Extent} (hxy : x.max y = y) :
    (x.cap n).max (y.cap n) = y.cap n := by
  cases x <;> cases y <;> simp only [Extent.max, Extent.cap] at hxy ⊢ <;> grind

theorem Extent.max_max {x y : Extent} (hxy : x.max y = y) (z : Extent) :
    (x.max z).max (y.max z) = y.max z := by
  cases x <;> cases y <;> cases z <;> simp only [Extent.max] at hxy ⊢ <;> grind

end StaticAnalysis
