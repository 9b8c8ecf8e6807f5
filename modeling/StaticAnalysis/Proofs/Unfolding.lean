import StaticAnalysis.Proofs.Substitution

/-!
Unfolding the binders of a term forever. Every layer of the tree comes from unfolding the binders at
the top of a term by substitution. A substitution can capture references, so this is the tree that
the term denotes only if no name is both bound in the term and referred to from outside of its
binders. Unfolding keeps such a term as it is in this respect.
-/

namespace StaticAnalysis.Term

variable {ν : Type}

/-- The number of binders at the top of a term. -/
def leading : Term ν → Nat
  | .mu _ body => body.leading + 1
  | _ => 0

mutual

/-- The names that binders of a term bind. -/
def binders : Term ν → List ν
  | .var _ => []
  | .app _ args => bindersAll args
  | .mu param body => param :: body.binders

/-- The names that binders in a list of terms bind. -/
def bindersAll : List (Term ν) → List ν
  | [] => []
  | t :: ts => t.binders ++ bindersAll ts

end

theorem mem_bindersAll {y : ν} : ∀ {ts : List (Term ν)}, y ∈ bindersAll ts ↔ ∃ t ∈ ts, y ∈ t.binders
  | [] => by simp [bindersAll]
  | t :: ts => by simp [bindersAll, mem_bindersAll]

theorem mem_binders_app {y : ν} {name : String} {args : List (Term ν)} :
    y ∈ (app name args).binders ↔ ∃ t ∈ args, y ∈ t.binders := by
  rw [binders, mem_bindersAll]

theorem mem_binders_mu {y x : ν} {body : Term ν} :
    y ∈ (mu x body).binders ↔ y = x ∨ y ∈ body.binders := by
  rw [binders, List.mem_cons]

variable [DecidableEq ν]

/-- The top of a term whose binders at the top have been unfolded. If there are only binders, there
is nothing to be found under them. -/
def layer (t : Term ν) : Layer (Var ν) (Term ν) :=
  match Term.unfold^[t.leading] t with
  | .var v => .leaf v
  | .app name args => .node name args
  | .mu param _ => .leaf (.bound param)

/-- The tree that comes from unfolding the binders of a term forever. -/
def unfolding (t : Term ν) : Tree (Var ν) := Tree.unfold layer t

/-- A guarded term with references to the given names only, none of which it binds. -/
structure Apart (P : ν → Prop) (t : Term ν) : Prop where
  guarded : t.Guarded
  refers : ∀ y, .bound y ∈ t.occurrences → P y
  binds : ∀ y ∈ t.binders, ¬ P y

variable {P : ν → Prop} {s t : Term ν} {v w : Var ν}

theorem Guarded.subst (ht : t.Guarded) (hs : s.Guarded) : (t.subst v s).Guarded := by
  induction ht with
  | var w =>
    rw [Term.subst]
    split
    · exact hs
    · exact .var w
  | app _ ih =>
    rw [subst_app]
    refine .app fun r hr => ?_
    obtain ⟨t, ht, rfl⟩ := List.mem_map.mp hr
    exact ih t ht
  | mu h ih =>
    rw [Term.subst]
    split
    · -- the binder is for the variable, so nothing is replaced under it
      exact .mu h
    · rw [subst_app] at ih ⊢
      exact .mu ih

theorem Guarded.mem_binders_subst (ht : t.Guarded) {y : ν} (hy : y ∈ (t.subst v s).binders) :
    y ∈ t.binders ∨ y ∈ s.binders := by
  induction ht with
  | var w =>
    rw [Term.subst] at hy
    split at hy
    · exact Or.inr hy
    · exact Or.inl hy
  | app _ ih =>
    rw [subst_app, mem_binders_app] at hy
    obtain ⟨r, hr, hy⟩ := hy
    obtain ⟨t, ht, rfl⟩ := List.mem_map.mp hr
    exact (ih t ht hy).imp_left fun h => mem_binders_app.mpr ⟨t, ht, h⟩
  | mu h ih =>
    rw [Term.subst] at hy
    split at hy
    · exact Or.inl hy
    · rcases mem_binders_mu.mp hy with rfl | hy
      · exact Or.inl (mem_binders_mu.mpr (Or.inl rfl))
      · exact (ih hy).imp_left fun h => mem_binders_mu.mpr (Or.inr h)

/-- A substitution that captures nothing puts the new tree in place of the leaves. -/
theorem Guarded.tree_subst (ht : t.Guarded) (hs : s.Guarded)
    (hcapture : ∀ y ∈ t.binders, .bound y ∉ s.occurrences) :
    (t.subst v s).tree = t.tree.graft (Function.update Tree.leaf v s.tree) := by
  induction ht with
  | var w =>
    rw [Term.subst, tree, Tree.graft_leaf]
    by_cases hw : w = v
    · rw [if_pos hw, hw, Function.update_self]
    · rw [if_neg hw, Function.update_of_ne hw, tree]
  | app _ ih =>
    rw [subst_app, tree, tree, treeAll_eq_map, treeAll_eq_map, Tree.graft_node, List.map_map,
      List.map_map]
    refine congrArg _ (List.map_congr_left fun t ht => ih t ht fun y hy => hcapture y ?_)
    exact mem_binders_app.mpr ⟨t, ht, hy⟩
  | @mu x name args h ih =>
    rw [Term.subst]
    split
    · -- the binder is for the variable: it does not occur in the term, and its graft does nothing
      next hv =>
      have hself : ∀ w ∈ (Term.mu x (.app name args)).occurrences,
          Function.update Tree.leaf v s.tree w = .leaf w := by
        intro w hw
        exact Function.update_of_ne (hv ▸ (mem_occurrences_mu.mp hw).2) ..
      rw [(Guarded.mu h).graft_congr hself, Tree.graft_leaf_self]
    · -- the binder is for another one, and nothing that is grafted refers to it
      next hv =>
      have hx : .bound x ∉ s.occurrences := hcapture x (mem_binders_mu.mpr (Or.inl rfl))
      rw [tree, ih fun y hy => hcapture y (mem_binders_mu.mpr (Or.inr hy)), tree, tree]
      refine Tree.knot_graft (Function.update_of_ne hv ..) (fun w r hw => ?_) name _
      by_cases hwv : w = v
      · have hself : ∀ z ∈ s.occurrences, Function.update Tree.leaf (.bound x) r z = .leaf z :=
          fun z hz => Function.update_of_ne (fun e : z = .bound x => hx (e ▸ hz)) ..
        rw [hwv, Function.update_self, hs.graft_congr hself, Tree.graft_leaf_self]
      · rw [Function.update_of_ne hwv, Tree.graft_leaf, Function.update_of_ne hw]

/-- One unfolding of a binder does not change the tree. -/
theorem Apart.tree_unfold (ht : t.Apart P) : t.unfold.tree = t.tree := by
  cases ht.guarded with
  | var => rfl
  | app => rfl
  | @mu x name args h =>
    have hcapture : ∀ y ∈ (app name args).binders,
        .bound y ∉ (mu x (app name args)).occurrences := fun y hy hmem =>
      ht.binds y (mem_binders_mu.mpr (Or.inr hy)) (ht.refers y hmem)
    rw [unfold, h.tree_subst ht.guarded hcapture]
    exact (Tree.knot_eq_graft (Var.bound x) _).symm

theorem Apart.unfold (ht : t.Apart P) : t.unfold.Apart P := by
  cases ht.guarded with
  | var => exact ht
  | app => exact ht
  | @mu x name args h =>
    refine ⟨h.subst ht.guarded, fun y hy => ?_, fun y hy => ?_⟩
    · -- references of the body and of the term put into it
      rcases mem_occurrences_subst hy with ⟨hy, hne⟩ | hy
      · exact ht.refers y (mem_occurrences_mu.mpr ⟨hy, hne⟩)
      · exact ht.refers y hy
    · -- binders, likewise
      rcases h.mem_binders_subst hy with hy | hy
      · exact ht.binds y (mem_binders_mu.mpr (Or.inr hy))
      · exact ht.binds y hy

theorem Apart.arg {name : String} {args : List (Term ν)} (ht : (app name args).Apart P)
    (hs : s ∈ args) : s.Apart P := by
  refine ⟨?_, fun y hy => ht.refers y (mem_occurrences_app.mpr ⟨s, hs, hy⟩),
    fun y hy => ht.binds y (mem_binders_app.mpr ⟨s, hs, hy⟩)⟩
  cases ht.guarded with
  | app h => exact h s hs

/-- What is at the top of a guarded term, once it is unfolded. -/
theorem Guarded.layer_eq (ht : t.Guarded) :
    (∃ v, t.unfold = .var v ∧ t.layer = .leaf v) ∨
      ∃ name args, t.unfold = .app name args ∧ t.layer = .node name args := by
  cases ht with
  | var v => exact Or.inl ⟨v, rfl, rfl⟩
  | @app name args _ => exact Or.inr ⟨name, args, rfl, rfl⟩
  | @mu x name args _ =>
    have happ := subst_app name args (.bound x) (.mu x (.app name args))
    refine Or.inr ⟨name, _, happ, ?_⟩
    show (match (Term.app name args).subst (.bound x) (.mu x (.app name args)) with
      | .var v => Layer.leaf v
      | .app name args => Layer.node name args
      | .mu param _ => Layer.leaf (.bound param)) = _
    rw [happ]

/-- Unfolding forever gives the tree of the term. -/
theorem Apart.unfolding_eq_tree (ht : t.Apart P) : t.unfolding = t.tree := by
  refine Tree.eq_of_bisim (fun x y => ∃ t : Term ν, t.Apart P ∧ x = t.unfolding ∧ y = t.tree) ?_
    ⟨t, ht, rfl, rfl⟩
  rintro _ _ ⟨t, ht, rfl, rfl⟩
  rw [← ht.tree_unfold]
  rcases ht.guarded.layer_eq with ⟨v, hunfold, hlayer⟩ | ⟨name, args, hunfold, hlayer⟩
  · refine Or.inl ?_
    rw [hunfold, unfolding, Tree.unfold_eq_leaf hlayer, tree]
  · refine Or.inr ⟨name, _, _, Tree.unfold_eq_node hlayer, by rw [hunfold, tree], ?_⟩
    have happ : (app name args).Apart P := hunfold ▸ ht.unfold
    rw [treeAll_eq_map, List.forall₂_map_left_iff, List.forall₂_map_right_iff]
    exact List.forall₂_same.mpr fun s hs => ⟨s, happ.arg hs, rfl, rfl⟩

theorem Plain.mem_binders_replace (ht : t.Plain) {θ : Var ν → Term ν} {y : ν}
    (hy : y ∈ (t.replace θ).binders) : ∃ v ∈ t.occurrences, y ∈ (θ v).binders := by
  induction ht with
  | var x => exact ⟨.free x, by simp [occurrences], hy⟩
  | app _ ih =>
    rw [replace_app, mem_binders_app] at hy
    obtain ⟨r, hr, hy⟩ := hy
    obtain ⟨t, ht, rfl⟩ := List.mem_map.mp hr
    obtain ⟨v, hv, hy⟩ := ih t ht hy
    exact ⟨v, mem_occurrences_app.mpr ⟨t, ht, hv⟩, hy⟩

theorem Plain.unfolding_eq_tree (ht : t.Plain) : t.unfolding = t.tree := by
  have hapart : t.Apart fun _ => False := by
    refine ⟨ht.guarded, fun y hy => ?_, fun _ _ => id⟩
    obtain ⟨x, hx⟩ := ht.of_mem_occurrences hy
    cases hx
  exact hapart.unfolding_eq_tree

end StaticAnalysis.Term
