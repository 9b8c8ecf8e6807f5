import Mathlib.Data.List.Forall2
import Mathlib.Data.List.OfFn
import Mathlib.Data.PFunctor.Univariate.M

/-!
Finite and infinite trees of constructors, with leaves from a given type. A tree is known by its
top layer and the trees below it, and two trees are equal if they agree layer by layer forever.

Besides the two constructors there are three ways to make trees: `Tree.unfold` grows a tree from a
seed, `Tree.graft` puts trees in place of the leaves, and `Tree.knot` puts a tree in place of some
of its own leaves, over and over again.
-/

namespace StaticAnalysis

/-- The top of a tree: a leaf, or a constructor over what is below it. -/
inductive Layer (β σ : Type) where
  | leaf (label : β)
  | node (name : String) (below : List σ)

/-- Replaces what is below. -/
def Layer.map {β σ τ : Type} (f : σ → τ) : Layer β σ → Layer β τ
  | .leaf b => .leaf b
  | .node name xs => .node name (xs.map f)

/-- The places below a label, or below a constructor with a number of arguments. -/
abbrev Layer.Places {β : Type} : β ⊕ String × Nat → Type
  | .inl _ => Empty
  | .inr a => Fin a.2

/-- The shapes of layers. -/
abbrev Layer.shapes (β : Type) : PFunctor.{0, 0} := ⟨β ⊕ String × Nat, Layer.Places⟩

/-- A layer as a shape with its places filled. -/
def Layer.fill {β σ : Type} : Layer β σ → Layer.shapes β σ
  | .leaf b => ⟨.inl b, nofun⟩
  | .node name xs => ⟨.inr (name, xs.length), xs.get⟩

/-- A shape with its places filled as a layer. -/
def Layer.ofFilled {β σ : Type} : Layer.shapes β σ → Layer β σ
  | ⟨.inl b, _⟩ => .leaf b
  | ⟨.inr a, f⟩ => .node a.1 (List.ofFn f)

theorem Layer.ofFilled_fill {β σ : Type} : ∀ l : Layer β σ, ofFilled l.fill = l
  | .leaf _ => rfl
  | .node name xs => congrArg (Layer.node name) (List.ofFn_get xs)

theorem Layer.ofFilled_map {β σ τ : Type} (f : σ → τ) :
    ∀ x : Layer.shapes β σ, ofFilled ((Layer.shapes β).map f x) = (ofFilled x).map f
  | ⟨.inl _, _⟩ => rfl
  | ⟨.inr a, g⟩ => congrArg (Layer.node a.1) (List.map_ofFn (g := f) (f := g)).symm

theorem Layer.fill_node {β σ : Type} (name : String) {xs : List σ} {n : Nat} (h : xs.length = n) :
    (Layer.node name xs : Layer β σ).fill = ⟨.inr (name, n), fun i => xs.get (i.cast h.symm)⟩ := by
  subst h
  rfl

theorem Layer.fill_ofFilled {β σ : Type} : ∀ x : Layer.shapes β σ, (ofFilled x).fill = x
  | ⟨.inl _, _⟩ => congrArg (Sigma.mk _) (funext nofun)
  | ⟨.inr a, f⟩ => by
      refine (fill_node a.1 List.length_ofFn).trans ?_
      exact congrArg (Sigma.mk _) (funext fun i => List.get_ofFn f _)

/-- A finite or infinite tree with leaves from `β`. -/
def Tree (β : Type) : Type := (Layer.shapes β).M

namespace Tree

variable {β γ σ : Type}

/-- The tree with a given top layer. -/
def ofLayer (l : Layer β (Tree β)) : Tree β := PFunctor.M.mk l.fill

/-- The top layer of a tree. -/
def layer (t : Tree β) : Layer β (Tree β) := Layer.ofFilled (PFunctor.M.dest t)

/-- A tree that is a leaf. -/
def leaf (b : β) : Tree β := ofLayer (.leaf b)

/-- A constructor over a list of trees. -/
def node (name : String) (ts : List (Tree β)) : Tree β := ofLayer (.node name ts)

theorem layer_ofLayer (l : Layer β (Tree β)) : (ofLayer l).layer = l := Layer.ofFilled_fill l

theorem ofLayer_layer (t : Tree β) : ofLayer t.layer = t :=
  (congrArg PFunctor.M.mk (Layer.fill_ofFilled _)).trans (PFunctor.M.mk_dest t)

@[simp]
theorem layer_leaf (b : β) : (leaf b).layer = .leaf b := layer_ofLayer _

@[simp]
theorem layer_node (name : String) (ts : List (Tree β)) : (node name ts).layer = .node name ts :=
  layer_ofLayer _

theorem eq_leaf_or_eq_node (t : Tree β) : (∃ b, t = leaf b) ∨ ∃ name ts, t = node name ts := by
  rw [← ofLayer_layer t]
  cases t.layer with
  | leaf b => exact Or.inl ⟨b, rfl⟩
  | node name ts => exact Or.inr ⟨name, ts, rfl⟩

theorem node_inj {name name' : String} {ts ts' : List (Tree β)} (h : node name ts = node name' ts') :
    name = name' ∧ ts = ts' := by
  have hlayer := congrArg layer h
  rw [layer_node, layer_node] at hlayer
  exact Layer.node.inj hlayer

/-- Trees that agree layer by layer are equal. -/
theorem eq_of_bisim (R : Tree β → Tree β → Prop)
    (h : ∀ s t, R s t → s = t ∨ ∃ name ss ts, s = node name ss ∧ t = node name ts ∧
      List.Forall₂ R ss ts) {s t : Tree β} (hst : R s t) : s = t := by
  refine PFunctor.M.bisim (fun s t => s = t ∨ R s t) ?_ s t (Or.inr hst)
  intro s t hst
  have heq : ∀ s : Tree β, ∃ a f f', PFunctor.M.dest s = ⟨a, f⟩ ∧ PFunctor.M.dest s = ⟨a, f'⟩ ∧
      ∀ i, f i = f' i ∨ R (f i) (f' i) := fun s => ⟨_, _, _, rfl, rfl, fun _ => Or.inl rfl⟩
  rcases hst with rfl | hst
  · exact heq s
  · rcases h s t hst with rfl | ⟨name, ss, ts, rfl, rfl, hargs⟩
    · exact heq s
    · -- two nodes with the same label and related children
      refine ⟨.inr (name, ss.length), _, _, rfl, Layer.fill_node name hargs.length_eq.symm, ?_⟩
      exact fun i => Or.inr (hargs.get i.2 _)

/-! ### Growing a tree -/

/-- The tree that grows from a seed, layer by layer. -/
def unfold (grow : σ → Layer β σ) (x : σ) : Tree β :=
  PFunctor.M.corec (fun x => (grow x).fill) x

theorem layer_unfold (grow : σ → Layer β σ) (x : σ) :
    (unfold grow x).layer = (grow x).map (unfold grow) := by
  have hdest := congrArg Layer.ofFilled (PFunctor.M.dest_corec (fun x => (grow x).fill) x)
  rw [Layer.ofFilled_map, Layer.ofFilled_fill] at hdest
  exact hdest

theorem unfold_eq_leaf {grow : σ → Layer β σ} {x : σ} {b : β} (h : grow x = .leaf b) :
    unfold grow x = leaf b := by
  rw [← ofLayer_layer (unfold grow x), layer_unfold, h]
  rfl

theorem unfold_eq_node {grow : σ → Layer β σ} {x : σ} {name : String} {xs : List σ}
    (h : grow x = .node name xs) : unfold grow x = node name (xs.map (unfold grow)) := by
  rw [← ofLayer_layer (unfold grow x), layer_unfold, h]
  rfl

/-- Seeds that begin with the same layer grow to the same tree. -/
theorem unfold_congr {grow : σ → Layer β σ} {x y : σ} (h : grow x = grow y) :
    unfold grow x = unfold grow y := by
  rw [← ofLayer_layer (unfold grow x), ← ofLayer_layer (unfold grow y), layer_unfold, layer_unfold,
    h]

/-! ### Putting trees in place of leaves -/

/-- Goes on with a tree where leaves are replaced, or with one that has been put in place. -/
def graftLayer (place : β → Tree γ) : Tree β ⊕ Tree γ → Layer γ (Tree β ⊕ Tree γ)
  | .inl t =>
    match t.layer with
    | .leaf b => (place b).layer.map .inr
    | .node name ts => .node name (ts.map .inl)
  | .inr t => t.layer.map .inr

/-- The tree with other trees in place of its leaves. -/
def graft (place : β → Tree γ) (t : Tree β) : Tree γ := unfold (graftLayer place) (.inl t)

theorem unfold_graftLayer_inr (place : β → Tree γ) (t : Tree γ) :
    unfold (graftLayer place) (.inr t) = t := by
  refine eq_of_bisim (fun s t => s = unfold (graftLayer place) (.inr t)) ?_ rfl
  rintro _ t rfl
  rcases eq_leaf_or_eq_node t with ⟨b, rfl⟩ | ⟨name, ts, rfl⟩
  · exact Or.inl (unfold_eq_leaf (by simp [graftLayer, Layer.map]))
  · refine Or.inr ⟨name, _, ts, unfold_eq_node (by simp [graftLayer, Layer.map]; rfl), rfl, ?_⟩
    rw [List.map_map, List.forall₂_map_left_iff]
    exact List.forall₂_same.mpr fun t _ => rfl

@[simp]
theorem graft_leaf (place : β → Tree γ) (b : β) : graft place (leaf b) = place b := by
  have hlayer : graftLayer place (.inl (leaf b)) = graftLayer place (.inr (place b)) := by
    simp [graftLayer]
  rw [graft, unfold_congr hlayer, unfold_graftLayer_inr]

@[simp]
theorem graft_node (place : β → Tree γ) (name : String) (ts : List (Tree β)) :
    graft place (node name ts) = node name (ts.map (graft place)) := by
  have hlayer : graftLayer place (.inl (node name ts)) = .node name (ts.map .inl) := by
    simp [graftLayer]
  rw [graft, unfold_eq_node hlayer, List.map_map]
  rfl

theorem graft_graft {δ : Type} (place : γ → Tree δ) (place' : β → Tree γ) (t : Tree β) :
    graft place (graft place' t) = graft (fun b => graft place (place' b)) t := by
  refine eq_of_bisim (fun s s' => ∃ t, s = graft place (graft place' t) ∧
    s' = graft (fun b => graft place (place' b)) t) ?_ ⟨t, rfl, rfl⟩
  rintro _ _ ⟨t, rfl, rfl⟩
  rcases eq_leaf_or_eq_node t with ⟨b, rfl⟩ | ⟨name, ts, rfl⟩
  · simp
  · refine Or.inr ⟨name, _, _, by rw [graft_node, graft_node], graft_node .., ?_⟩
    rw [List.map_map, List.forall₂_map_left_iff, List.forall₂_map_right_iff]
    exact List.forall₂_same.mpr fun t _ => ⟨t, rfl, rfl⟩

theorem graft_leaf_self (t : Tree β) : graft leaf t = t := by
  refine eq_of_bisim (fun s t => s = graft leaf t) ?_ rfl
  rintro _ t rfl
  rcases eq_leaf_or_eq_node t with ⟨b, rfl⟩ | ⟨name, ts, rfl⟩
  · exact Or.inl (graft_leaf ..)
  · refine Or.inr ⟨name, _, ts, graft_node .., rfl, ?_⟩
    rw [List.forall₂_map_left_iff]
    exact List.forall₂_same.mpr fun t _ => rfl

/-! ### Putting a tree in place of its own leaves -/

variable [DecidableEq β]

/-- Goes on with a tree in which the leaves of one label stand for another tree. -/
def knotLayer (b : β) (whole : Tree β) (t : Tree β) : Layer β (Tree β) :=
  match t.layer with
  | .leaf c => if c = b then whole.layer else .leaf c
  | .node name ts => .node name ts

/-- The tree with itself in place of the leaves of one label, over and over again. A tree that is
only such a leaf stays as it is. -/
def knot (b : β) (t : Tree β) : Tree β := unfold (knotLayer b t) t

theorem knotLayer_self (b : β) (t : Tree β) : knotLayer b t t = t.layer := by
  unfold knotLayer
  split
  · next c hc =>
    split
    · rfl
    · exact hc.symm
  · next hnode => exact hnode.symm

theorem unfold_knotLayer (b : β) (whole t : Tree β) :
    unfold (knotLayer b whole) t = graft (Function.update leaf b (knot b whole)) t := by
  refine eq_of_bisim (fun s s' => ∃ t, s = unfold (knotLayer b whole) t ∧
    s' = graft (Function.update leaf b (knot b whole)) t) ?_ ⟨t, rfl, rfl⟩
  rintro _ _ ⟨t, rfl, rfl⟩
  rcases eq_leaf_or_eq_node t with ⟨c, rfl⟩ | ⟨name, ts, rfl⟩
  · refine Or.inl ?_
    rw [graft_leaf]
    by_cases hc : c = b
    · -- the leaf that is tied: it grows like the whole tree
      subst hc
      have hlayer : knotLayer c whole (leaf c) = knotLayer c whole whole := by
        rw [knotLayer_self]
        simp [knotLayer]
      rw [Function.update_self, unfold_congr hlayer]
      rfl
    · -- another leaf stays
      rw [Function.update_of_ne hc, unfold_eq_leaf]
      simp [knotLayer, hc]
  · -- a node has the same label and related children
    refine Or.inr ⟨name, _, _, unfold_eq_node (by simp [knotLayer]; rfl), graft_node .., ?_⟩
    rw [List.forall₂_map_left_iff, List.forall₂_map_right_iff]
    exact List.forall₂_same.mpr fun t _ => ⟨t, rfl, rfl⟩

/-- A knot is its own tree, with the knot in place of the leaves. -/
theorem knot_eq_graft (b : β) (t : Tree β) :
    knot b t = graft (Function.update leaf b (knot b t)) t := unfold_knotLayer b t t

/-- There is only one tree that has itself in place of the leaves of one label. -/
theorem eq_of_eq_graft_update {place : β → Tree γ} {b : β} {name : String} {ts : List (Tree β)}
    {x y : Tree γ} (hx : x = graft (Function.update place b x) (node name ts))
    (hy : y = graft (Function.update place b y) (node name ts)) : x = y := by
  have hbelow : ∀ ts : List (Tree β), List.Forall₂ (fun s s' => ∃ t,
      s = graft (Function.update place b x) t ∧ s' = graft (Function.update place b y) t)
      (ts.map (graft (Function.update place b x))) (ts.map (graft (Function.update place b y))) := by
    intro ts
    rw [List.forall₂_map_left_iff, List.forall₂_map_right_iff]
    exact List.forall₂_same.mpr fun t _ => ⟨t, rfl, rfl⟩
  refine eq_of_bisim (fun s s' => ∃ t, s = graft (Function.update place b x) t ∧
    s' = graft (Function.update place b y) t) ?_ ⟨node name ts, hx, hy⟩
  rintro _ _ ⟨t, rfl, rfl⟩
  rcases eq_leaf_or_eq_node t with ⟨c, rfl⟩ | ⟨name', ts', rfl⟩
  · rw [graft_leaf, graft_leaf]
    by_cases hc : c = b
    · -- a leaf that stands for the whole tree has the constructor of the whole tree on top
      rw [hc, Function.update_self, Function.update_self]
      rw [graft_node] at hx hy
      exact Or.inr ⟨name, _, _, hx, hy, hbelow ts⟩
    · rw [Function.update_of_ne hc, Function.update_of_ne hc]
      exact Or.inl rfl
  · exact Or.inr ⟨name', _, _, graft_node .., graft_node .., hbelow ts'⟩

theorem graft_knot (place : β → Tree γ) (b : β) (t : Tree β) : graft place (knot b t) =
    graft (Function.update place b (graft place (knot b t))) t := by
  have hplace : (fun c => graft place (Function.update leaf b (knot b t) c)) =
      Function.update place b (graft place (knot b t)) := by
    funext c
    by_cases hc : c = b
    · rw [hc, Function.update_self, Function.update_self]
    · rw [Function.update_of_ne hc, Function.update_of_ne hc, graft_leaf]
  rw [← hplace, ← graft_graft, ← knot_eq_graft]

theorem graft_knot_eq {place : β → Tree γ} {b : β} {name : String} {ts : List (Tree β)}
    {x : Tree γ} (hx : x = graft (Function.update place b x) (node name ts)) :
    graft place (knot b (node name ts)) = x :=
  eq_of_eq_graft_update (graft_knot place b _) hx

/-- Knots can be tied before or after other leaves are replaced, if the new trees have no leaves for
the knot. -/
theorem knot_graft {place : β → Tree β} {b : β} (hb : place b = leaf b)
    (hplace : ∀ c x, c ≠ b → graft (Function.update leaf b x) (place c) = place c) (name : String)
    (ts : List (Tree β)) :
    knot b (graft place (node name ts)) = graft place (knot b (node name ts)) := by
  rw [graft_node, ← graft_leaf_self (knot b _)]
  refine graft_knot_eq ?_
  rw [← graft_node, graft_graft]
  refine (graft_knot place b _).trans (congrArg (graft · (node name ts)) (funext fun c => ?_))
  by_cases hc : c = b
  · rw [hc, Function.update_self, hb, graft_leaf, Function.update_self]
  · rw [Function.update_of_ne hc, hplace c _ hc]

end Tree

end StaticAnalysis
