import StaticAnalysis.Proofs.SolutionShape
import StaticAnalysis.Proofs.UnifierForest

/-!
Equations in which every reference stands under a binder for it. Unlike plain terms theirs may have
binders, but no equation is about a reference, so nothing is ever found out about one. Hence
references stay as they are, expansions contain no unknowns, and putting expansions into a term one
after the other, in any order, is putting them there all at once.
-/

namespace StaticAnalysis

namespace Term

variable {ν : Type} [DecidableEq ν] {t : Term ν} {θ : Var ν → Term ν}

/-- Every reference stands under a binder for it. -/
def Scoped (t : Term ν) : Prop := ∀ v ∈ t.occurrences, v.isBound = false

instance (t : Term ν) : Decidable t.Scoped :=
  inferInstanceAs (Decidable (∀ v ∈ t.occurrences, v.isBound = false))

theorem Scoped.bound_not_mem (h : t.Scoped) (a : ν) : .bound a ∉ t.occurrences :=
  fun ha => nomatch h _ ha

theorem Scoped.args {name : String} {args : List (Term ν)} (h : (app name args).Scoped) :
    ∀ t ∈ args, t.Scoped :=
  fun t ht v hv => h v (mem_occurrences_app.mpr ⟨t, ht, hv⟩)

theorem Scoped.eq_free {v : Var ν} (h : (var v).Scoped) : ∃ x, v = .free x := by
  cases v with
  | free x => exact ⟨x, rfl⟩
  | bound a => exact absurd (by simp [occurrences]) (h.bound_not_mem a)

/-- A replacement of the unknowns by terms without unknowns that leaves references as they are. -/
structure Closing (θ : Var ν → Term ν) : Prop where
  bound : ∀ a, θ (.bound a) = .var (.bound a)
  free : ∀ x y, .free y ∉ (θ (.free x)).occurrences

theorem Closing.shadow_eq (hθ : Closing θ) (param : ν) : shadow param θ = θ := by
  funext v
  by_cases hv : v = .bound param
  · rw [hv, shadow_self, hθ.bound]
  · exact shadow_of_ne hv

/-- Replacements that are made one after the other are made all at once: none finds anything to do
in what the ones before it have put in place. -/
theorem Closing.foldl_subst (hθ : Closing θ) {order : List (Var ν)}
    (horder : ∀ v, v ∈ order ↔ v ∈ t.occurrences) :
    order.foldl (fun acc v => acc.subst v (θ v)) t = t.replace θ := by
  refine foldl_subst_order horder fun v _ => ?_
  cases v with
  | free x =>
    refine Or.inr fun w _ => ?_
    cases w with
    | free y => exact hθ.free y x
    | bound a => simp [hθ.bound, occurrences]
  | bound a => exact Or.inl (hθ.bound a)

theorem Closing.free_not_mem (hθ : Closing θ) (t : Term ν) (y : ν) :
    .free y ∉ (t.replace θ).occurrences := by
  induction t using Term.induction with
  | var v =>
    cases v with
    | free x => exact hθ.free x y
    | bound a => simp [replace, hθ.bound, occurrences]
  | app name args ih =>
    rw [replace_app, mem_occurrences_app]
    rintro ⟨_, hs, hy⟩
    obtain ⟨s, hmem, rfl⟩ := List.mem_map.mp hs
    exact ih s hmem hy
  | mu param body ih =>
    rw [replace_mu, hθ.shadow_eq, mem_occurrences_mu]
    exact fun hy => ih hy.1

theorem Plain.scoped (h : t.Plain) : t.Scoped := by
  intro v hv
  obtain ⟨x, rfl⟩ := h.of_mem_occurrences hv
  rfl

end Term

namespace Unifier

variable {ν : Type} [DecidableEq ν] {u : Unifier ν} {visited : List (Var ν)} {x : ν}

theorem closeWith_eq_of_closing {θ : Var ν → Term ν} (hθ : Term.Closing θ) :
    ∀ t : Term ν, closeWith θ t = t.replace θ
  | .var v => rfl
  | .app name args => hθ.foldl_subst fun _ => Term.mem_freeVars
  | .mu param body => by
      rw [closeWith, closeWith_eq_of_closing hθ body, Term.replace_mu, hθ.shadow_eq]

/-- The references in representatives are bound there, and nothing is known about a reference. -/
structure Scoped (u : Unifier ν) : Prop where
  sound : u.Sound
  bound : ∀ a, u.find (.var (.bound a)) = .var (.bound a)
  find : ∀ x, (u.find (.var (.free x))).Scoped

/-- The unknown is expanded to its representative with the unknowns in there expanded, and behind a
binder if that refers back to it. -/
theorem expand_cases (hx : ¬ u.Unsolved x) (hv : .free x ∉ visited)
    (hclosing : Term.Closing (u.expand (.free x :: visited))) :
    let body := (u.find (.var (.free x))).replace (u.expand (.free x :: visited))
    u.expand visited (.free x) = if .bound x ∈ body.occurrences then .mu x body else body := by
  have hexpand : u.expand visited (.free x) =
      tie (.free x) (closeWith (u.expand (.free x :: visited)) (u.find (.var (.free x)))) := by
    rw [expand]
    exact dif_neg (not_or.mpr ⟨hv, hx⟩)
  rw [hexpand, closeWith_eq_of_closing hclosing]
  exact tie_eq (hclosing.free_not_mem _ x)

theorem closing_expand (hu : u.Scoped) (visited : List (Var ν)) :
    Term.Closing (u.expand visited) := by
  induction visited using u.visited_induction with
  | step visited ih =>
    refine ⟨fun a => ?_, fun x y => ?_⟩
    · -- nothing is known about a reference
      rw [expand, dif_pos (Or.inr (hu.bound a))]
      rfl
    · by_cases h : .free x ∈ visited ∨ u.Unsolved x
      · simp [expand_of_reference h, Term.occurrences]
      · obtain ⟨hv, hx⟩ := not_or.mp h
        have hclosing := ih _ hv hx
        have hbody := hclosing.free_not_mem (u.find (.var (.free x))) y
        rw [expand_cases hx hv hclosing]
        split
        · exact fun hy => hbody (Term.mem_occurrences_mu.mp hy).1
        · exact hbody

/-- In all equations every reference stands under a binder for it. -/
def ScopedEquations (eqs : List (Term ν × Term ν)) : Prop := ∀ p ∈ eqs, p.1.Scoped ∧ p.2.Scoped

instance (eqs : List (Term ν × Term ν)) : Decidable (ScopedEquations eqs) :=
  inferInstanceAs (Decidable (∀ p ∈ eqs, p.1.Scoped ∧ p.2.Scoped))

variable {eqs : List (Term ν × Term ν)}

theorem scoped_after (h : ScopedEquations eqs) : (after eqs).Scoped := by
  have hall : (after eqs).AllSeen Term.Scoped := allSeen_after Term.Scoped.args h
  refine ⟨hall.sound, fun a => by_contra fun hne => ?_, fun x => hall.find ?_⟩
  · obtain ⟨x, hx⟩ := (hall.terms _ (Forest.mem_terms_of_find_ne hne)).eq_free
    cases hx
  · simp [Term.Scoped, Term.occurrences, Var.isBound]

theorem PlainEquations.scoped (h : PlainEquations eqs) : ScopedEquations eqs :=
  fun p hp => ⟨(h p hp).1.scoped, (h p hp).2.scoped⟩

end Unifier

end StaticAnalysis
