import StaticAnalysis.Proofs.TermTree

/-!
Substitution and free variables. A binder for the substituted variable keeps its body as it is, and
any other binder lets the substitution pass, although it may capture what is put there. A binder for
`x` captures `'x` and never `x`, so what a substitution brings in can lose references on the way, but
no unknowns.

Main statement: the laws that hold all the same, for terms with any binders and for variables of both
kinds. They bound the free variables after a substitution from both sides, and they let two
substitutions for unknowns change places.
-/

namespace StaticAnalysis.Term

variable {ν : Type} [DecidableEq ν] {s t u b : Term ν} {v w : Var ν} {p x : ν}

theorem mem_occurrences_var : w ∈ (var v).occurrences ↔ w = v := by
  simp [occurrences]

theorem subst_mu_of_ne (h : .bound p ≠ v) : (mu p b).subst v s = .mu p (b.subst v s) := by
  rw [subst, if_neg h]

theorem mem_occurrences_subst_app {name : String} {args : List (Term ν)} :
    w ∈ ((app name args).subst v s).occurrences ↔ ∃ t ∈ args, w ∈ (t.subst v s).occurrences := by
  simp [subst_app, mem_occurrences_app]

/-- A substitution takes no other variable away. -/
theorem mem_occurrences_subst_of_ne (hw : w ∈ t.occurrences) (hne : w ≠ v) :
    w ∈ (t.subst v s).occurrences := by
  induction t using Term.induction with
  | var v' =>
    rw [mem_occurrences_var] at hw
    subst hw
    rw [subst, if_neg hne]
    exact mem_occurrences_var.mpr rfl
  | app name args ih =>
    obtain ⟨t, ht, hw⟩ := mem_occurrences_app.mp hw
    exact mem_occurrences_subst_app.mpr ⟨t, ht, ih t ht hw⟩
  | mu p b ih =>
    by_cases hp : .bound p = v
    · rwa [subst, if_pos hp]
    · obtain ⟨hb, hwp⟩ := mem_occurrences_mu.mp hw
      rw [subst_mu_of_ne hp]
      exact mem_occurrences_mu.mpr ⟨ih hb, hwp⟩

/-- What is free after a substitution was free before it or comes with the new term. -/
theorem mem_occurrences_subst (hw : w ∈ (t.subst v s).occurrences) :
    w ∈ t.occurrences ∧ w ≠ v ∨ w ∈ s.occurrences := by
  induction t using Term.induction with
  | var v' =>
    rw [subst] at hw
    split at hw
    · exact Or.inr hw
    · next hne =>
      have hwv := mem_occurrences_var.mp hw
      exact Or.inl ⟨hw, hwv ▸ hne⟩
  | app name args ih =>
    obtain ⟨t, ht, hw⟩ := mem_occurrences_subst_app.mp hw
    rcases ih t ht hw with ⟨hmem, hne⟩ | hmem
    · exact Or.inl ⟨mem_occurrences_app.mpr ⟨t, ht, hmem⟩, hne⟩
    · exact Or.inr hmem
  | mu p b ih =>
    by_cases hp : .bound p = v
    · -- the binder is for the variable, so nothing is replaced under it
      rw [subst, if_pos hp] at hw
      exact Or.inl ⟨hw, hp ▸ (mem_occurrences_mu.mp hw).2⟩
    · -- the binder is for another one
      rw [subst_mu_of_ne hp] at hw
      obtain ⟨hb, hwp⟩ := mem_occurrences_mu.mp hw
      rcases ih hb with ⟨hmem, hne⟩ | hmem
      · exact Or.inl ⟨mem_occurrences_mu.mpr ⟨hmem, hwp⟩, hne⟩
      · exact Or.inr hmem

/-- An unknown of the new term is free wherever that is put: no binder on the way is for it. -/
theorem free_mem_occurrences_subst (hv : v ∈ t.occurrences) (hx : .free x ∈ s.occurrences) :
    .free x ∈ (t.subst v s).occurrences := by
  induction t using Term.induction with
  | var v' =>
    rw [mem_occurrences_var] at hv
    rwa [subst, if_pos hv.symm]
  | app name args ih =>
    obtain ⟨t, ht, hv⟩ := mem_occurrences_app.mp hv
    exact mem_occurrences_subst_app.mpr ⟨t, ht, ih t ht hv⟩
  | mu p b ih =>
    obtain ⟨hb, hp⟩ := mem_occurrences_mu.mp hv
    rw [subst_mu_of_ne (Ne.symm hp)]
    exact mem_occurrences_mu.mpr ⟨ih hb, nofun⟩

/-- Unfolding a binder brings in nothing but the binder itself, in which its parameter is bound. -/
theorem mem_occurrences_subst_mu :
    w ∈ (b.subst (.bound p) (.mu p b)).occurrences ↔ w ∈ (mu p b).occurrences := by
  constructor
  · intro hw
    rcases mem_occurrences_subst hw with hw | hw
    · exact mem_occurrences_mu.mpr hw
    · exact hw
  · intro hw
    obtain ⟨hb, hp⟩ := mem_occurrences_mu.mp hw
    exact mem_occurrences_subst_of_ne hb hp

/-- Two substitutions for unknowns change places, if the term that comes second does not bring the
unknown of the first one back. No binder stops either of them, so both reach the same places, and
what is captured there is captured in both orders. -/
theorem subst_subst_free {x y : ν} (hxy : x ≠ y) (hx : .free x ∉ u.occurrences) :
    (t.subst (.free x) s).subst (.free y) u =
      (t.subst (.free y) u).subst (.free x) (s.subst (.free y) u) := by
  induction t using Term.induction with
  | var v =>
    by_cases hvx : v = .free x
    · -- the variable that is replaced first
      have hvy : Var.free x ≠ .free y := by simpa using hxy
      subst hvx
      simp [subst, hvy]
    · by_cases hvy : v = .free y
      · -- the variable that is replaced second: nothing is left to do in what it becomes
        subst hvy
        have hyx : y ≠ x := Ne.symm hxy
        simp [subst, hyx, subst_of_not_mem hx]
      · simp [subst, hvx, hvy]
  | app name args ih =>
    simp only [subst_app, List.map_map]
    exact congrArg _ (List.map_congr_left ih)
  | mu p b ih =>
    have hpass : ∀ {b s : Term ν} {z : ν}, (mu p b).subst (.free z) s = .mu p (b.subst (.free z) s) :=
      subst_mu_of_ne nofun
    rw [hpass, hpass, hpass, hpass, ih]

/-- The laws of substitution. Nothing is substituted for a variable that is not free. All other free
variables stay, and those of the new term are the only ones to be added; where something is
substituted, the unknowns among these are added indeed. A binder and its unfolding have the same free
variables. Substitutions for two unknowns change places, if the second term does not contain the first
unknown. -/
theorem subst_laws (t s u : Term ν) (v w : Var ν) :
    (v ∉ t.freeVars → t.subst v s = t) ∧
    (∀ x ∈ t.freeVars, x ≠ v → x ∈ (t.subst v s).freeVars) ∧
    (∀ x ∈ (t.subst v s).freeVars, x ∈ t.freeVars ∧ x ≠ v ∨ x ∈ s.freeVars) ∧
    (v ∈ t.freeVars → ∀ x ∈ s.freeVars, x.isBound = false → x ∈ (t.subst v s).freeVars) ∧
    (∀ p b, t = .mu p b → ∀ x, x ∈ (b.subst (.bound p) t).freeVars ↔ x ∈ t.freeVars) ∧
    (v.isBound = false → w.isBound = false → v ≠ w → v ∉ u.freeVars →
      (t.subst v s).subst w u = (t.subst w u).subst v (s.subst w u)) := by
  simp only [mem_freeVars]
  refine ⟨subst_of_not_mem, fun x => mem_occurrences_subst_of_ne, fun x => mem_occurrences_subst,
    ?_, ?_, ?_⟩
  · intro hv x hx hfree
    cases x with
    | free x => exact free_mem_occurrences_subst hv hx
    | bound x => cases hfree
  · rintro p b rfl x
    exact mem_occurrences_subst_mu
  · intro hv hw hne hu
    cases v with
    | bound => cases hv
    | free x =>
      cases w with
      | bound => cases hw
      | free y => exact subst_subst_free (fun h => hne (congrArg _ h)) hu

/-- An example: the body of `μ'a. f('a, x, y)`, in which `h('a, z)` is put for `x` and `k(y, 'a)` for
`z`. -/
def captureBody : Term Nat := .app "f" [.var (.bound 0), .var (.free 1), .var (.free 2)]

def captureNew : Term Nat := .app "h" [.var (.bound 0), .var (.free 3)]

def captureNext : Term Nat := .app "k" [.var (.free 2), .var (.bound 0)]

/-- The binder captures the reference to `a` in `h('a, z)`, but not the unknown `z`. -/
theorem subst_capture_laws :
    ((Term.mu 0 captureBody).subst (.free 1) captureNew).freeVars = [.free 3, .free 2] ∧
      (.bound 0 ∉ (Term.mu 0 captureBody).freeVars ∧
        (Term.mu 0 captureBody).subst (.bound 0) captureNew = .mu 0 captureBody) ∧
      (.free 2 ∈ (Term.mu 0 captureBody).freeVars ∧
        .free 2 ∈ ((Term.mu 0 captureBody).subst (.free 1) captureNew).freeVars) ∧
      (.free 1 ∈ (Term.mu 0 captureBody).freeVars ∧ .free 3 ∈ captureNew.freeVars ∧
        .free 3 ∈ ((Term.mu 0 captureBody).subst (.free 1) captureNew).freeVars) ∧
      (∀ x, x ∈ (captureBody.subst (.bound 0) (.mu 0 captureBody)).freeVars ↔
        x ∈ (Term.mu 0 captureBody).freeVars) ∧
      (.free 1 ∉ captureNext.freeVars ∧
        ((Term.mu 0 captureBody).subst (.free 1) captureNew).subst (.free 3) captureNext =
          ((Term.mu 0 captureBody).subst (.free 3) captureNext).subst (.free 1)
            (captureNew.subst (.free 3) captureNext)) := by
  have hbound : .bound 0 ∉ (Term.mu 0 captureBody).freeVars := by decide
  have hx : .free 1 ∈ (Term.mu 0 captureBody).freeVars := by decide
  have hy : .free 2 ∈ (Term.mu 0 captureBody).freeVars := by decide
  have hz : .free 3 ∈ captureNew.freeVars := by decide
  have hnext : .free 1 ∉ captureNext.freeVars := by decide
  have hkept := (subst_laws (.mu 0 captureBody) captureNew captureNext (.bound 0) (.free 3)).1
  obtain ⟨-, hstays, -, hadded, hunfold, hswap⟩ :=
    subst_laws (.mu 0 captureBody) captureNew captureNext (.free 1) (.free 3)
  refine ⟨by decide, ⟨hbound, hkept hbound⟩, ⟨hy, hstays _ hy (by decide)⟩,
    ⟨hx, hz, hadded hx _ hz rfl⟩, hunfold 0 captureBody rfl, hnext, ?_⟩
  exact hswap rfl rfl (by decide) hnext

end StaticAnalysis.Term
