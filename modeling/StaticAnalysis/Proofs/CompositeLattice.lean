import Mathlib.Data.List.Forall2
import StaticAnalysis.Proofs.LatticeOrder
import StaticAnalysis.Proofs.TotalMap

/-!
Pairs, products and total maps of ordered lattices are ordered. All three are componentwise: an
element is determined by its components, and the ends, the order and the least upper bounds are
those of the components. What they do differently is in how they are computed. The order of a product
is the one that its least upper bound induces, and the least upper bound of a map with itself is not
computed at all.
-/

namespace StaticAnalysis.Lattice

variable {α β γ κ ι : Type}

/-- The components of an element are found by projections, and everything in the lattice is
componentwise on its members. -/
structure Componentwise (K : Lattice γ) (Within : γ → Prop) {A : ι → Type}
    (L : ∀ i, Lattice (A i)) (Member : ∀ i, A i → Prop) (proj : ∀ i, γ → A i) : Prop where
  bottom_mem : Within K.bottom
  top_mem : Within K.top
  proj_mem : ∀ {x}, Within x → ∀ i, Member i (proj i x)
  ext : ∀ {x y}, Within x → Within y → (∀ i, proj i x = proj i y) → x = y
  proj_bottom : ∀ i, proj i K.bottom = (L i).bottom
  proj_top : ∀ i, proj i K.top = (L i).top
  leq_total : ∀ {x y}, Within x → Within y → ∃ b, K.leq x y = .ok b
  below_iff : ∀ {x y}, Within x → Within y →
    (K.Below x y ↔ ∀ i, (L i).Below (proj i x) (proj i y))
  lub : ∀ {x y}, Within x → Within y →
    ∃ z, K.lub x y = .ok z ∧ Within z ∧ ∀ i, (L i).lub (proj i x) (proj i y) = .ok (proj i z)

theorem Componentwise.ordered {K : Lattice γ} {Within : γ → Prop} {A : ι → Type}
    {L : ∀ i, Lattice (A i)} {Member : ∀ i, A i → Prop} {proj : ∀ i, γ → A i}
    (hK : K.Componentwise Within L Member proj) (h : ∀ i, (L i).Ordered (Member i)) :
    K.Ordered Within where
  bottom_mem := hK.bottom_mem
  top_mem := hK.top_mem
  leq_total := hK.leq_total
  refl hx := (hK.below_iff hx hx).mpr fun i => (h i).refl (hK.proj_mem hx i)
  trans hx hy hz hxy hyz := by
    rw [hK.below_iff hx hy] at hxy
    rw [hK.below_iff hy hz] at hyz
    refine (hK.below_iff hx hz).mpr fun i => ?_
    exact (h i).trans (hK.proj_mem hx i) (hK.proj_mem hy i) (hK.proj_mem hz i) (hxy i) (hyz i)
  antisymm hx hy hxy hyx := by
    rw [hK.below_iff hx hy] at hxy
    rw [hK.below_iff hy hx] at hyx
    refine hK.ext hx hy fun i => ?_
    exact (h i).antisymm (hK.proj_mem hx i) (hK.proj_mem hy i) (hxy i) (hyx i)
  bottom_below hx := by
    refine (hK.below_iff hK.bottom_mem hx).mpr fun i => ?_
    rw [hK.proj_bottom i]
    exact (h i).bottom_below (hK.proj_mem hx i)
  below_top hx := by
    refine (hK.below_iff hx hK.top_mem).mpr fun i => ?_
    rw [hK.proj_top i]
    exact (h i).below_top (hK.proj_mem hx i)
  lub_least hx hy := by
    obtain ⟨z, hz, hzm, hparts⟩ := hK.lub hx hy
    have hlub := fun i =>
      ((h i).lub_eq_ok_iff (hK.proj_mem hx i) (hK.proj_mem hy i)).mp (hparts i)
    refine ⟨z, hz, hzm, ?_, ?_, fun hw hxw hyw => ?_⟩
    · exact (hK.below_iff hx hzm).mpr fun i => (hlub i).left
    · exact (hK.below_iff hy hzm).mpr fun i => (hlub i).right
    · rw [hK.below_iff hx hw] at hxw
      rw [hK.below_iff hy hw] at hyw
      exact (hK.below_iff hzm hw).mpr fun i => (hlub i).least (hK.proj_mem hw i) (hxw i) (hyw i)

/-! ### Pairs -/

section Pair

variable {L : Lattice α} {M : Lattice β} {P : α → Prop} {Q : β → Prop}

theorem below_pair_iff {x y : α × β} :
    (L.pair M).Below x y ↔ L.Below x.1 y.1 ∧ M.Below x.2 y.2 :=
  both_eq_ok_true_iff

theorem leq_pair_total (hL : L.Ordered P) (hM : M.Ordered Q) {x y : α × β} (hx : P x.1 ∧ Q x.2)
    (hy : P y.1 ∧ Q y.2) : ∃ b, (L.pair M).leq x y = .ok b := by
  obtain ⟨b, hb⟩ := hL.leq_total hx.1 hy.1
  obtain ⟨c, hc⟩ := hM.leq_total hx.2 hy.2
  exact ⟨b && c, both_eq_ok hb hc⟩

theorem lub_pair_eq_ok_iff {x y z : α × β} :
    (L.pair M).lub x y = .ok z ↔ L.lub x.1 y.1 = .ok z.1 ∧ M.lub x.2 y.2 = .ok z.2 := by
  obtain ⟨a, b⟩ := z
  simp [pair, bind_eq_ok_iff, pure, Except.pure]

theorem pair_ordered (hL : L.Ordered P) (hM : M.Ordered Q) :
    (L.pair M).Ordered fun x => P x.1 ∧ Q x.2 := by
  have hpair : (L.pair M).Componentwise (fun x => P x.1 ∧ Q x.2) (A := fun i => cond i α β)
      (Bool.rec M L) (Bool.rec Q P) (Bool.rec Prod.snd Prod.fst) :=
    { bottom_mem := ⟨hL.bottom_mem, hM.bottom_mem⟩
      top_mem := ⟨hL.top_mem, hM.top_mem⟩
      proj_mem := fun hx => Bool.rec hx.2 hx.1
      ext := fun _ _ hproj => Prod.ext (hproj true) (hproj false)
      proj_bottom := Bool.rec rfl rfl
      proj_top := Bool.rec rfl rfl
      leq_total := leq_pair_total hL hM
      below_iff := fun _ _ => by
        rw [below_pair_iff, Bool.forall_bool]
        exact and_comm
      lub := fun hx hy => by
        obtain ⟨a, ha, hla⟩ := hL.lub_least hx.1 hy.1
        obtain ⟨b, hb, hlb⟩ := hM.lub_least hx.2 hy.2
        exact ⟨(a, b), lub_pair_eq_ok_iff.mpr ⟨ha, hb⟩, ⟨hla.mem, hlb.mem⟩, Bool.rec hb ha⟩ }
  exact hpair.ordered (Bool.rec hM hL)

end Pair

/-! ### Products -/

section Product

variable {L : Lattice α} {P : α → Prop} {size : Nat}

/-- Working out a value for every member of a list in turn. -/
theorem mapM_eq_ok_iff {f : β → Except Fault α} : ∀ {xs : List β} {ys : List α},
    xs.mapM f = .ok ys ↔ List.Forall₂ (fun x y => f x = .ok y) xs ys
  | [], ys => by simp [pure, Except.pure, eq_comm]
  | x :: xs, ys => by
      rw [List.mapM_cons, bind_eq_ok_iff, List.forall₂_cons_left_iff]
      refine exists_congr fun y => ?_
      simp only [bind_eq_ok_iff, mapM_eq_ok_iff, pure, Except.pure, Except.ok.injEq]
      constructor
      · rintro ⟨hy, zs, hzs, rfl⟩
        exact ⟨zs, hy, hzs, rfl⟩
      · rintro ⟨zs, hy, hzs, rfl⟩
        exact ⟨hy, zs, hzs, rfl⟩

theorem exists_mapM {f : β → Except Fault α} :
    ∀ (xs : List β), (∀ x ∈ xs, ∃ y, f x = .ok y) → ∃ ys, xs.mapM f = .ok ys
  | [], _ => ⟨[], rfl⟩
  | x :: xs, h => by
      obtain ⟨y, hy⟩ := h x (List.mem_cons_self ..)
      obtain ⟨ys, hys⟩ := exists_mapM xs fun x' hx' => h x' (List.mem_cons_of_mem _ hx')
      refine ⟨y :: ys, ?_⟩
      rw [List.mapM_cons, hy, hys]
      rfl

/-- The lists of the declared size whose components are all members. -/
def Sized (size : Nat) (P : α → Prop) (x : List α) : Prop := x.length = size ∧ ∀ a ∈ x, P a

/-- The component at a place, which is the bottom beyond the end of the list. -/
def component (L : Lattice α) (i : Fin size) (x : List α) : α := x.getD i L.bottom

theorem component_eq {x : List α} (i : Fin size) (hi : i < x.length) :
    L.component i x = x.get ⟨i, hi⟩ := by
  simp [component, hi]

theorem Sized.component {x : List α} (h : Sized size P x) (i : Fin size) :
    P (L.component i x) := by
  rw [component_eq i (h.1 ▸ i.isLt)]
  exact h.2 _ (List.get_mem ..)

theorem ext_component {x y : List α} (hx : x.length = size) (hy : y.length = size)
    (h : ∀ i : Fin size, L.component i x = L.component i y) : x = y := by
  refine List.ext_get (hx.trans hy.symm) fun i hi hi' => ?_
  rw [← component_eq (L := L) ⟨i, hx ▸ hi⟩, ← component_eq (L := L) ⟨i, hx ▸ hi⟩, h]

theorem component_replicate (a : α) (i : Fin size) :
    L.component i (List.replicate size a) = a := by
  simp [component]

/-- Two lists have a least upper bound if they have one size and their components have one. -/
theorem productLub_eq_ok_iff {x y z : List α} : L.productLub x y = .ok z ↔
    x.length = y.length ∧ (x.zip y).mapM (fun p => L.lub p.1 p.2) = .ok z := by
  unfold productLub productTryLub
  split
  · next hlength =>
    cases h : (x.zip y).mapM fun p => L.lub p.1 p.2 <;>
      simp [hlength, bind, Except.bind, pure, Except.pure]
  · next hlength =>
    simp [hlength, bind, Except.bind, pure, Except.pure, throw, throwThe, MonadExceptOf.throw]

/-- The least upper bound of two lists of one size is that of their components. -/
theorem productLub_sized (hL : L.Ordered P) {x y : List α} (hx : Sized size P x)
    (hy : Sized size P y) : ∃ z, L.productLub x y = .ok z ∧ Sized size P z ∧
      ∀ i : Fin size, L.lub (L.component i x) (L.component i y) = .ok (L.component i z) := by
  have hlub : ∀ p ∈ x.zip y, ∃ c, L.lub p.1 p.2 = .ok c ∧ P c := fun p hp =>
    hL.lawful.lub_mem (hx.2 _ (List.of_mem_zip hp).1) (hy.2 _ (List.of_mem_zip hp).2)
  obtain ⟨z, hz⟩ := exists_mapM (x.zip y) fun p hp => (hlub p hp).imp fun _ h => h.1
  obtain ⟨hlength, hget⟩ := List.forall₂_iff_get.mp (mapM_eq_ok_iff.mp hz)
  rw [List.length_zip, hx.1, hy.1, Nat.min_self] at hlength
  have hparts : ∀ (i : Nat) (hi : i < size), L.lub (x.get ⟨i, hx.1 ▸ hi⟩) (y.get ⟨i, hy.1 ▸ hi⟩) =
      .ok (z.get ⟨i, hlength ▸ hi⟩) := by
    intro i hi
    simpa using hget i (by simp [hx.1, hy.1, hi]) (hlength ▸ hi)
  refine ⟨z, productLub_eq_ok_iff.mpr ⟨hx.1.trans hy.1.symm, hz⟩, ⟨hlength.symm, ?_⟩, ?_⟩
  · intro c hc
    obtain ⟨i, rfl⟩ := List.get_of_mem hc
    have hi : i < size := hlength ▸ i.isLt
    have hxi := hx.2 _ (List.get_mem x ⟨i, hx.1 ▸ hi⟩)
    have hyi := hy.2 _ (List.get_mem y ⟨i, hy.1 ▸ hi⟩)
    exact ((hL.lub_eq_ok_iff hxi hyi).mp (hparts i hi)).mem
  · intro i
    rw [component_eq i (hx.1 ▸ i.isLt), component_eq i (hy.1 ▸ i.isLt),
      component_eq i (hlength ▸ i.isLt)]
    exact hparts i i.isLt

variable [DecidableEq α]

theorem leq_product_eq {x y z : List α} (hz : L.productLub x y = .ok z) :
    (L.product size).leq x y = .ok (decide (z = y)) := by
  simp [product, leqOfLub, hz, bind, Except.bind, pure, Except.pure]

/-- The order that the least upper bound induces is componentwise. -/
theorem below_product_iff (hL : L.Ordered P) {x y : List α} (hx : Sized size P x)
    (hy : Sized size P y) : (L.product size).Below x y ↔
      ∀ i : Fin size, L.Below (L.component i x) (L.component i y) := by
  obtain ⟨z, hz, hzm, hparts⟩ := productLub_sized hL hx hy
  have hbelow : (L.product size).Below x y ↔ z = y := by
    rw [Below, leq_product_eq hz, Except.ok.injEq, decide_eq_true_iff]
  have hcomponent : ∀ i : Fin size,
      L.Below (L.component i x) (L.component i y) ↔ L.component i z = L.component i y := by
    intro i
    rw [hL.lawful.below_iff (hx.component i) (hy.component i), hparts i, Except.ok.injEq]
  rw [hbelow]
  constructor
  · rintro rfl i
    exact (hcomponent i).mpr rfl
  · exact fun h => ext_component hzm.1 hy.1 fun i => (hcomponent i).mp (h i)

theorem product_ordered (hL : L.Ordered P) : (L.product size).Ordered (Sized size P) := by
  have hproduct : (L.product size).Componentwise (Sized size P) (fun _ : Fin size => L)
      (fun _ => P) L.component :=
    { bottom_mem := ⟨List.length_replicate, fun a ha => List.eq_of_mem_replicate ha ▸ hL.bottom_mem⟩
      top_mem := ⟨List.length_replicate, fun a ha => List.eq_of_mem_replicate ha ▸ hL.top_mem⟩
      proj_mem := fun hx i => hx.component i
      ext := fun hx hy => ext_component hx.1 hy.1
      proj_bottom := component_replicate _
      proj_top := component_replicate _
      leq_total := fun hx hy => by
        obtain ⟨z, hz, -⟩ := productLub_sized hL hx hy
        exact ⟨_, leq_product_eq hz⟩
      below_iff := below_product_iff hL
      lub := productLub_sized hL }
  exact hproduct.ordered fun _ => hL

end Product

/-! ### Total maps -/

section TotalMap

variable [Ord κ] [Std.TransOrd κ] [Std.LawfulEqOrd κ] [DecidableEq α] {L : Lattice α} {P : α → Prop}

/-- The value at a key, or the default. -/
def valueAt (i : Option κ) (m : TotalMap κ α) : α := i.elim m.default m.get

theorem leq_totalMap_total (hL : L.Lawful P) {x y : TotalMap κ α} (hx : x.All P) (hy : y.All P) :
    ∃ b, L.totalMap.leq x y = .ok b := by
  obtain ⟨b, hb⟩ := hL.leq_total hx.1 hy.1
  obtain ⟨c, hc⟩ := exists_allM (x.support ++ y.support) fun k _ =>
    hL.leq_total (hx.2 k) (hy.2 k)
  exact ⟨b && c, both_eq_ok hb hc⟩

/-- The least upper bound of two maps is pointwise, also where it is cut short because the maps are
equal. -/
theorem lub_totalMap (hL : L.Lawful P) {x y : TotalMap κ α} (hx : x.All P) (hy : y.All P) :
    ∃ z, L.totalMap.lub x y = .ok z ∧ z.All P ∧
      ∀ i : Option κ, L.lub (valueAt i x) (valueAt i y) = .ok (valueAt i z) := by
  rcases eq_or_ne x y with rfl | hne
  · -- equal maps are not combined value by value
    refine ⟨x, if_pos rfl, hx, Option.forall.mpr ⟨?_, fun k => ?_⟩⟩
    · exact hL.lub_self hx.1
    · exact hL.lub_self (hx.2 k)
  · -- different maps have bounds at all keys and for the default
    obtain ⟨z, hz⟩ := TotalMap.exists_zipM
      ((hL.lub_mem hx.1 hy.1).imp fun _ h => h.1)
      fun k => (hL.lub_mem (hx.2 k) (hy.2 k)).imp fun _ h => h.1
    obtain ⟨hdefault, hget⟩ := TotalMap.zipM_eq_ok_iff.mp hz
    refine ⟨z, (if_neg hne).trans hz, ⟨?_, fun k => ?_⟩, Option.forall.mpr ⟨hdefault, hget⟩⟩
    · exact hL.mem_of_lub_eq hx.1 hy.1 hdefault
    · exact hL.mem_of_lub_eq (hx.2 k) (hy.2 k) (hget k)

theorem totalMap_ordered (hL : L.Ordered P) :
    (L.totalMap (κ := κ)).Ordered (TotalMap.All P) := by
  have hmap : (L.totalMap (κ := κ)).Componentwise (TotalMap.All P) (fun _ : Option κ => L)
      (fun _ => P) valueAt :=
    { bottom_mem := TotalMap.all_const hL.bottom_mem
      top_mem := TotalMap.all_const hL.top_mem
      proj_mem := fun hx => Option.forall.mpr hx
      ext := fun _ _ hvalue =>
        TotalMap.ext_get (hvalue none) fun k => hvalue (some k)
      proj_bottom := Option.forall.mpr ⟨rfl, TotalMap.get_const _⟩
      proj_top := Option.forall.mpr ⟨rfl, TotalMap.get_const _⟩
      leq_total := leq_totalMap_total hL.lawful
      below_iff := fun _ _ => by
        rw [below_totalMap_iff, Option.forall]
        rfl
      lub := lub_totalMap hL.lawful }
  exact hmap.ordered fun _ => hL

end TotalMap

end StaticAnalysis.Lattice
