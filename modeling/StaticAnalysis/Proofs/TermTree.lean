import StaticAnalysis.Proofs.Tree
import StaticAnalysis.Term

/-!
The trees of terms. A binder denotes the tree of its body in which every reference to the binder is
the whole tree again. A valuation of the names turns the tree of a term into the value of the term,
and it decides which equations hold.

Terms without binders and references are plain. The simultaneous replacement of the variables of a
term is what one gets by substituting them one after the other, as long as the new terms do not bring
along what is still to be substituted.
-/

namespace StaticAnalysis.Term

variable {ν β : Type}

/-- A term without binders and references to binders. -/
inductive Plain : Term ν → Prop where
  | var (x : ν) : Plain (.var (.free x))
  | app {name : String} {args : List (Term ν)} (h : ∀ t ∈ args, Plain t) : Plain (.app name args)

/-- In a guarded term an application follows every binder. -/
inductive Guarded : Term ν → Prop where
  | var (v : Var ν) : Guarded (.var v)
  | app {name : String} {args : List (Term ν)} (h : ∀ t ∈ args, Guarded t) :
      Guarded (.app name args)
  | mu {x : ν} {name : String} {args : List (Term ν)} (h : Guarded (.app name args)) :
      Guarded (.mu x (.app name args))

theorem Plain.guarded {t : Term ν} (ht : t.Plain) : t.Guarded := by
  induction ht with
  | var x => exact .var _
  | app _ ih => exact .app ih

/-- Induction on terms, with the hypothesis for all arguments of an application. -/
theorem induction {motive : Term ν → Prop} (var : ∀ v, motive (.var v))
    (app : ∀ name args, (∀ t ∈ args, motive t) → motive (.app name args))
    (mu : ∀ param body, motive body → motive (.mu param body)) : ∀ t, motive t
  | .var v => var v
  | .app name args => app name args fun t _ => induction var app mu t
  | .mu param body => mu param body (induction var app mu body)

/-! ### Trees and values -/

variable [DecidableEq ν]

mutual

/-- The tree of a term, with the variables that are not bound as leaves. -/
def tree : Term ν → Tree (Var ν)
  | .var v => .leaf v
  | .app name args => .node name (treeAll args)
  | .mu param body => body.tree.knot (.bound param)

/-- The trees of a list of terms. -/
def treeAll : List (Term ν) → List (Tree (Var ν))
  | [] => []
  | t :: ts => t.tree :: treeAll ts

end

theorem treeAll_eq_map : ∀ ts : List (Term ν), treeAll ts = ts.map tree
  | [] => rfl
  | t :: ts => congrArg (t.tree :: ·) (treeAll_eq_map ts)

/-- The value of a term for given values of the names. -/
def value (ρ : ν → Tree β) (t : Term ν) : Tree β := t.tree.graft fun v => ρ v.name

theorem value_var (ρ : ν → Tree β) (v : Var ν) : (var v).value ρ = ρ v.name :=
  Tree.graft_leaf ..

theorem value_app (ρ : ν → Tree β) (name : String) (args : List (Term ν)) :
    (app name args).value ρ = .node name (args.map (value ρ)) := by
  rw [value, tree, treeAll_eq_map, Tree.graft_node, List.map_map]
  rfl

theorem mem_occurrencesAll {v : Var ν} : ∀ {ts : List (Term ν)},
    v ∈ occurrencesAll ts ↔ ∃ t ∈ ts, v ∈ t.occurrences
  | [] => by simp [occurrencesAll]
  | t :: ts => by simp [occurrencesAll, mem_occurrencesAll]

theorem mem_occurrences_app {v : Var ν} {name : String} {args : List (Term ν)} :
    v ∈ (app name args).occurrences ↔ ∃ t ∈ args, v ∈ t.occurrences := by
  rw [occurrences, mem_occurrencesAll]

theorem mem_occurrences_mu {v : Var ν} {x : ν} {body : Term ν} :
    v ∈ (mu x body).occurrences ↔ v ∈ body.occurrences ∧ v ≠ .bound x := by
  simp [occurrences]

/-- The tree of a guarded term has no other leaves than its free occurrences of variables. -/
theorem Guarded.graft_congr {t : Term ν} (ht : t.Guarded) {place place' : Var ν → Tree β}
    (h : ∀ v ∈ t.occurrences, place v = place' v) : t.tree.graft place = t.tree.graft place' := by
  induction ht generalizing place place' with
  | var v =>
    rw [tree, Tree.graft_leaf, Tree.graft_leaf]
    exact h v (by simp [occurrences])
  | @app name args _ ih =>
    rw [tree, treeAll_eq_map, Tree.graft_node, Tree.graft_node, List.map_map, List.map_map]
    refine congrArg _ (List.map_congr_left fun t ht => ih t ht fun v hv => h v ?_)
    exact mem_occurrences_app.mpr ⟨t, ht, hv⟩
  | @mu x name args _ ih =>
    refine (Tree.graft_knot_eq ?_).symm
    refine (Tree.graft_knot place (.bound x) _).trans (ih fun v hv => ?_)
    by_cases hx : v = .bound x
    · rw [hx, Function.update_self, Function.update_self]
      rfl
    · rw [Function.update_of_ne hx, Function.update_of_ne hx]
      exact h v (mem_occurrences_mu.mpr ⟨hv, hx⟩)

/-- A binder has the value of its name, if its body has. -/
theorem value_mu {ρ : ν → Tree β} {x : ν} {name : String} {args : List (Term ν)}
    (h : (app name args).value ρ = ρ x) : (mu x (app name args)).value ρ = ρ x := by
  refine Tree.graft_knot_eq ?_
  have hplace : Function.update (fun v : Var ν => ρ v.name) (.bound x) (ρ x) = fun v => ρ v.name :=
    Function.update_eq_self (.bound x) fun v : Var ν => ρ v.name
  rw [hplace]
  exact h.symm

/-! ### Replacing variables -/

mutual

/-- The term with other terms in place of its free variables, all at once. -/
def replace (θ : Var ν → Term ν) : Term ν → Term ν
  | .var v => θ v
  | .app name args => .app name (replaceAll θ args)
  | .mu param body =>
    .mu param (body.replace fun v => if v = .bound param then .var v else θ v)

/-- The terms of a list with other terms in place of their free variables. -/
def replaceAll (θ : Var ν → Term ν) : List (Term ν) → List (Term ν)
  | [] => []
  | t :: ts => t.replace θ :: replaceAll θ ts

end

theorem replaceAll_eq_map (θ : Var ν → Term ν) : ∀ ts, replaceAll θ ts = ts.map (replace θ)
  | [] => rfl
  | t :: ts => congrArg (t.replace θ :: ·) (replaceAll_eq_map θ ts)

theorem replace_app (θ : Var ν → Term ν) (name : String) (args : List (Term ν)) :
    (app name args).replace θ = .app name (args.map (replace θ)) := by
  rw [replace, replaceAll_eq_map]

/-- A replacement as it is under a binder, which keeps the references to it. -/
def shadow (param : ν) (θ : Var ν → Term ν) (v : Var ν) : Term ν :=
  if v = .bound param then .var v else θ v

theorem replace_mu (θ : Var ν → Term ν) (param : ν) (body : Term ν) :
    (mu param body).replace θ = .mu param (body.replace (shadow param θ)) := by
  rw [replace]
  rfl

theorem shadow_self (param : ν) (θ : Var ν → Term ν) :
    shadow param θ (.bound param) = .var (.bound param) := if_pos rfl

theorem shadow_of_ne {param : ν} {θ : Var ν → Term ν} {v : Var ν} (h : v ≠ .bound param) :
    shadow param θ v = θ v := if_neg h

theorem shadow_ite (param : ν) (θ : Var ν → Term ν) (vs : List (Var ν)) :
    shadow param (fun v => if v ∈ vs then θ v else .var v) =
      fun v => if v ∈ vs then shadow param θ v else .var v := by
  funext v
  by_cases hv : v = .bound param
  · rw [hv, shadow_self, shadow_self, ite_self]
  · rw [shadow_of_ne hv, shadow_of_ne hv]

theorem Plain.of_mem_occurrences {t : Term ν} (ht : t.Plain) {v : Var ν} (hv : v ∈ t.occurrences) :
    ∃ x, v = .free x := by
  induction ht with
  | var x => exact ⟨x, by simpa [occurrences] using hv⟩
  | app _ ih =>
    obtain ⟨t, ht, hv⟩ := mem_occurrences_app.mp hv
    exact ih t ht hv

theorem replace_congr {t : Term ν} {θ θ' : Var ν → Term ν}
    (h : ∀ v ∈ t.occurrences, θ v = θ' v) : t.replace θ = t.replace θ' := by
  induction t using Term.induction generalizing θ θ' with
  | var v => exact h v (by simp [occurrences])
  | app name args ih =>
    rw [replace_app, replace_app]
    refine congrArg _ (List.map_congr_left fun t ht => ih t ht fun v hv => h v ?_)
    exact mem_occurrences_app.mpr ⟨t, ht, hv⟩
  | mu param body ih =>
    rw [replace_mu, replace_mu]
    refine congrArg _ (ih fun v hv => ?_)
    by_cases hp : v = .bound param
    · rw [hp, shadow_self, shadow_self]
    · rw [shadow_of_ne hp, shadow_of_ne hp]
      exact h v (mem_occurrences_mu.mpr ⟨hv, hp⟩)

theorem replace_var (t : Term ν) : t.replace .var = t := by
  induction t using Term.induction with
  | var v => rfl
  | app name args ih =>
    rw [replace_app]
    exact congrArg _ ((List.map_congr_left ih).trans (List.map_id args))
  | mu param body ih =>
    rw [replace_mu, show shadow param .var = .var from funext fun v => ite_self _, ih]

/-- The value of a plain term after a replacement is its value for the values of the new terms. -/
theorem Plain.graft_replace {t : Term ν} (ht : t.Plain) (θ : Var ν → Term ν)
    (place : Var ν → Tree β) :
    (t.replace θ).tree.graft place = t.tree.graft fun v => (θ v).tree.graft place := by
  induction ht with
  | var x => rw [replace, tree, Tree.graft_leaf]
  | app _ ih =>
    rw [replace_app, tree, tree, treeAll_eq_map, treeAll_eq_map, Tree.graft_node, Tree.graft_node]
    simp only [List.map_map]
    exact congrArg _ (List.map_congr_left ih)

theorem Plain.mem_occurrences_replace {t : Term ν} (ht : t.Plain) {θ : Var ν → Term ν}
    {w : Var ν} (hw : w ∈ (t.replace θ).occurrences) :
    ∃ v ∈ t.occurrences, w ∈ (θ v).occurrences := by
  induction ht with
  | var x => exact ⟨.free x, by simp [occurrences], hw⟩
  | app _ ih =>
    rw [replace_app] at hw
    obtain ⟨_, hs, hw⟩ := mem_occurrences_app.mp hw
    obtain ⟨t, ht, rfl⟩ := List.mem_map.mp hs
    obtain ⟨v, hv, hw⟩ := ih t ht hw
    exact ⟨v, mem_occurrences_app.mpr ⟨t, ht, hv⟩, hw⟩

theorem Plain.guarded_replace {t : Term ν} (ht : t.Plain) {θ : Var ν → Term ν}
    (h : ∀ v ∈ t.occurrences, (θ v).Guarded) : (t.replace θ).Guarded := by
  induction ht with
  | var x => exact h _ (by simp [occurrences])
  | app _ ih =>
    rw [replace_app]
    refine .app fun s hs => ?_
    obtain ⟨t, ht, rfl⟩ := List.mem_map.mp hs
    exact ih t ht fun v hv => h v (mem_occurrences_app.mpr ⟨t, ht, hv⟩)

mutual

/-- Nothing is substituted for a variable that does not occur. -/
theorem subst_of_not_mem {v : Var ν} {s : Term ν} : ∀ {t : Term ν}, v ∉ t.occurrences →
    t.subst v s = t
  | .var w, h => by
      have hw : w ≠ v := fun e => h (by simp [occurrences, e])
      rw [subst, if_neg hw]
  | .app name args, h => by
      rw [subst, substAll_of_not_mem h]
  | .mu param body, h => by
      rw [subst]
      split
      · rfl
      · next hv =>
        rw [subst_of_not_mem fun hmem => h (mem_occurrences_mu.mpr ⟨hmem, fun e => hv e.symm⟩)]

theorem substAll_of_not_mem {v : Var ν} {s : Term ν} : ∀ {ts : List (Term ν)},
    v ∉ occurrencesAll ts → substAll ts v s = ts
  | [], _ => rfl
  | t :: ts, h => by
      rw [occurrencesAll, List.mem_append, not_or] at h
      rw [substAll, subst_of_not_mem h.1, substAll_of_not_mem h.2]

end

theorem substAll_eq_map (v : Var ν) (s : Term ν) : ∀ ts, substAll ts v s = ts.map (subst · v s)
  | [] => rfl
  | t :: ts => congrArg (t.subst v s :: ·) (substAll_eq_map v s ts)

theorem subst_app (name : String) (args : List (Term ν)) (v : Var ν) (s : Term ν) :
    (app name args).subst v s = .app name (args.map (subst · v s)) := by
  rw [subst, substAll_eq_map]

theorem subst_var_self (t : Term ν) (v : Var ν) : t.subst v (.var v) = t := by
  induction t using Term.induction with
  | var w =>
    rw [subst]
    split
    · next h => rw [h]
    · rfl
  | app name args ih =>
    rw [subst_app]
    exact congrArg _ ((List.map_congr_left ih).trans (List.map_id args))
  | mu param body ih => rw [subst, ih, ite_self]

/-- A substitution replaces one more variable, if the terms that are there already do not contain
it. -/
theorem subst_replace {t : Term ν} {θ : Var ν → Term ν} {done : List (Var ν)} {v : Var ν}
    (hθ : ∀ w ∈ t.occurrences, v ∉ (θ w).occurrences) :
    (t.replace fun w => if w ∈ done then θ w else .var w).subst v (θ v) =
      t.replace fun w => if w ∈ v :: done then θ w else .var w := by
  induction t using Term.induction generalizing θ with
  | var w =>
    rw [replace, replace]
    by_cases hdone : w ∈ done
    · -- replaced before: the variable does not occur in what stands there now
      rw [if_pos hdone, if_pos (List.mem_cons_of_mem _ hdone)]
      exact subst_of_not_mem (hθ _ (by simp [occurrences]))
    · -- not replaced yet: its turn is now or later
      rw [if_neg hdone, subst]
      by_cases hw : w = v
      · rw [if_pos hw, hw, if_pos (List.mem_cons_self ..)]
      · rw [if_neg hw, if_neg (by simp [hw, hdone])]
  | app name args ih =>
    rw [replace_app, replace_app, subst_app, List.map_map]
    refine congrArg _ (List.map_congr_left fun t ht => ih t ht fun w hw => hθ w ?_)
    exact mem_occurrences_app.mpr ⟨t, ht, hw⟩
  | mu param body ih =>
    rw [replace_mu, replace_mu, subst, shadow_ite, shadow_ite]
    split
    · -- the binder is for the variable: under it nothing is replaced, now or before
      next hv =>
      refine congrArg _ (replace_congr fun w _ => ?_)
      by_cases hw : w = v
      · rw [hw, ← hv, shadow_self, ite_self, ite_self]
      · simp [hw]
    · -- the binder is for another one: the induction hypothesis holds under it
      next hv =>
      have hθv : shadow param θ v = θ v := shadow_of_ne (Ne.symm hv)
      rw [← hθv]
      refine congrArg _ (ih fun w hw => ?_)
      by_cases hp : w = .bound param
      · rw [hp, shadow_self]
        simpa [occurrences] using Ne.symm hv
      · rw [shadow_of_ne hp]
        exact hθ w (mem_occurrences_mu.mpr ⟨hw, hp⟩)

/-- Substitutions for all variables of a term replace them all at once. A variable that is to stay
as it is may come up in any of the new terms, all others in none. -/
theorem foldl_subst {t : Term ν} {θ : Var ν → Term ν} (vs : List (Var ν))
    (hvs : ∀ v ∈ vs, θ v = .var v ∨ ∀ w ∈ t.occurrences, v ∉ (θ w).occurrences)
    {done : List (Var ν)} (hall : ∀ w ∈ t.occurrences, w ∈ vs ∨ w ∈ done) :
    vs.foldl (fun acc v => acc.subst v (θ v))
      (t.replace fun w => if w ∈ done then θ w else .var w) = t.replace θ := by
  induction vs generalizing done with
  | nil => exact replace_congr fun w hw => if_pos ((hall w hw).resolve_left List.not_mem_nil)
  | cons v vs ih =>
    have hstep : (t.replace fun w => if w ∈ done then θ w else .var w).subst v (θ v) =
        t.replace fun w => if w ∈ v :: done then θ w else .var w := by
      rcases hvs v (List.mem_cons_self ..) with hv | hv
      · -- the variable is replaced by itself
        rw [hv, subst_var_self]
        refine replace_congr fun w _ => ?_
        by_cases hw : w = v
        · rw [hw, if_pos (List.mem_cons_self ..), hv, ite_self]
        · simp [hw]
      · exact subst_replace hv
    rw [List.foldl_cons, hstep]
    refine ih (fun w hw => hvs w (List.mem_cons_of_mem _ hw)) fun w hw => ?_
    rcases hall w hw with hmem | hmem
    · rcases List.mem_cons.mp hmem with rfl | hmem
      · exact Or.inr (List.mem_cons_self ..)
      · exact Or.inl hmem
    · exact Or.inr (List.mem_cons_of_mem _ hmem)

theorem mem_freeVars {t : Term ν} {v : Var ν} : v ∈ t.freeVars ↔ v ∈ t.occurrences :=
  List.mem_eraseDups

/-- The order in which the variables of a term are substituted does not matter. -/
theorem foldl_subst_order {t : Term ν} {θ : Var ν → Term ν} {order : List (Var ν)}
    (horder : ∀ v, v ∈ order ↔ v ∈ t.occurrences)
    (hθ : ∀ v ∈ t.occurrences, θ v = .var v ∨ ∀ w ∈ t.occurrences, v ∉ (θ w).occurrences) :
    order.foldl (fun acc v => acc.subst v (θ v)) t = t.replace θ := by
  have hfold : order.foldl (fun acc v => acc.subst v (θ v))
      (t.replace fun w => if w ∈ ([] : List (Var ν)) then θ w else .var w) = t.replace θ :=
    foldl_subst _ (fun v hv => hθ v ((horder v).mp hv)) fun w hw => Or.inl ((horder w).mpr hw)
  simp only [List.not_mem_nil, if_false] at hfold
  rw [replace_var] at hfold
  exact hfold

theorem foldl_subst_freeVars {t : Term ν} {θ : Var ν → Term ν}
    (hθ : ∀ v ∈ t.occurrences, θ v = .var v ∨ ∀ w ∈ t.occurrences, v ∉ (θ w).occurrences) :
    t.freeVars.foldl (fun acc v => acc.subst v (θ v)) t = t.replace θ :=
  foldl_subst_order (fun _ => mem_freeVars) hθ

end StaticAnalysis.Term
