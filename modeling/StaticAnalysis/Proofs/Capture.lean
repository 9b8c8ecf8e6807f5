import Mathlib.Logic.Relation
import StaticAnalysis.Proofs.SolutionOrder

/-!
Capture in solutions. An unsolved unknown `r` becomes the reference `'r`. A binder that an expansion
puts is never for an unsolved unknown, so it leaves that reference alone. A binder that came with an
equation can be for any name: if `r`, or an unknown of its class, stands under a binder for `r`, the
reference is taken for one to that binder.

Main statement: the reference is free in the solution of an unknown if and only if `r` can be reached
from that unknown, through representatives, without getting under a binder for `r`. This does not
depend on the order in which the solution is worked out.
-/

namespace StaticAnalysis

/-- A path that may come back to a point can be made to start with its last step from there. -/
theorem exists_last_step {α : Type} {R : α → α → Prop} {P Q : α → Prop} {x z r : α}
    (hQ : ∀ y, P y → y ≠ x → Q y) (h : Relation.ReflTransGen (fun y y' => P y ∧ R y y') z r) :
    Relation.ReflTransGen (fun y y' => Q y ∧ R y y') z r ∨
      ∃ y, R x y ∧ Relation.ReflTransGen (fun y y' => Q y ∧ R y y') y r := by
  induction h using Relation.ReflTransGen.head_induction_on with
  | refl => exact Or.inl .refl
  | @head z z' hstep _ ih =>
    rcases ih with hpath | hlast
    · by_cases hz : z = x
      · -- the path starts at the point, and what follows does not come back
        exact Or.inr ⟨z', hz ▸ hstep.2, hpath⟩
      · exact Or.inl (hpath.head ⟨hQ z hstep.1 hz, hstep.2⟩)
    · -- the rest of the path comes back, so its last step from there is the one
      exact Or.inr hlast

namespace Term

variable {ν : Type} {t : Term ν} {θ : Var ν → Term ν} {a x y : ν}

/-- The unknown stands somewhere in the term outside of all binders for the name. -/
inductive Exposes (a : ν) : Term ν → ν → Prop where
  | var (x : ν) : Exposes a (.var (.free x)) x
  | app {name : String} {args : List (Term ν)} {t : Term ν} {x : ν} (ht : t ∈ args)
      (h : Exposes a t x) : Exposes a (.app name args) x
  | mu {param : ν} {body : Term ν} {x : ν} (hparam : param ≠ a) (h : Exposes a body x) :
      Exposes a (.mu param body) x

theorem exposes_var : (var (.free x)).Exposes a y ↔ y = x := by
  constructor
  · rintro ⟨⟩
    rfl
  · rintro rfl
    exact .var y

theorem exposes_app {name : String} {args : List (Term ν)} :
    (app name args).Exposes a x ↔ ∃ t ∈ args, t.Exposes a x := by
  constructor
  · rintro (_ | ⟨ht, h⟩)
    exact ⟨_, ht, h⟩
  · rintro ⟨t, ht, h⟩
    exact .app ht h

theorem exposes_mu {param : ν} {body : Term ν} :
    (mu param body).Exposes a x ↔ param ≠ a ∧ body.Exposes a x := by
  constructor
  · rintro (_ | _ | ⟨hparam, h⟩)
    exact ⟨hparam, h⟩
  · rintro ⟨hparam, h⟩
    exact .mu hparam h

variable [DecidableEq ν]

/-- A reference in the new term was there before, or it stands for an unknown. It is still free if
that unknown stood outside of the binders for it. -/
theorem Closing.bound_mem_iff (hθ : Closing θ) (t : Term ν) :
    .bound a ∈ (t.replace θ).occurrences ↔
      .bound a ∈ t.occurrences ∨ ∃ x, t.Exposes a x ∧ .bound a ∈ (θ (.free x)).occurrences := by
  induction t using Term.induction with
  | var v =>
    cases v with
    | free x => simp [replace, occurrences, exposes_var]
    | bound b =>
      have hnone : ∀ x, ¬ (var (.bound b)).Exposes a x := by
        rintro x ⟨⟩
      simp [replace, hθ.bound, hnone]
  | app name args ih =>
    simp only [replace_app, mem_occurrences_app, exposes_app, List.mem_map,
      exists_exists_and_eq_and]
    grind
  | mu param body ih =>
    rw [replace_mu, hθ.shadow_eq, mem_occurrences_mu, mem_occurrences_mu, ih]
    simp only [exposes_mu]
    grind

end Term

namespace Unifier

variable {ν : Type} [DecidableEq ν] {u : Unifier ν} {visited : List (Var ν)} {a r x y : ν}

/-- In the representative of an unknown, another one stands outside of all binders for a name. -/
def Shows (u : Unifier ν) (a x y : ν) : Prop := (u.find (.var (.free x))).Exposes a y

/-- The binder of an expansion takes no reference to an unsolved unknown. -/
theorem bound_mem_expand_iff (hu : u.Scoped) (hr : u.Unsolved r) (hx : ¬ u.Unsolved x)
    (hv : .free x ∉ visited) :
    .bound r ∈ (u.expand visited (.free x)).occurrences ↔
      ∃ y, u.Shows r x y ∧ .bound r ∈ (u.expand (.free x :: visited) (.free y)).occurrences := by
  have hclosing := closing_expand hu (.free x :: visited)
  have hne : Var.bound r ≠ .bound x := by
    rintro ⟨⟩
    exact hx hr
  have hbody : .bound r ∈ (u.expand visited (.free x)).occurrences ↔ .bound r ∈
      ((u.find (.var (.free x))).replace (u.expand (.free x :: visited))).occurrences := by
    rw [expand_cases hx hv hclosing]
    split
    · rw [Term.mem_occurrences_mu]
      exact and_iff_left hne
    · rfl
  rw [hbody, hclosing.bound_mem_iff]
  exact or_iff_right ((hu.find x).bound_not_mem r)

theorem reaches_of_bound_mem_expand (hu : u.Scoped) (hr : u.Unsolved r) (visited : List (Var ν)) :
    ∀ x, .bound r ∈ (u.expand visited (.free x)).occurrences →
      Relation.ReflTransGen (u.Shows r) x r := by
  induction visited using u.visited_induction with
  | step visited ih =>
    intro x hmem
    by_cases h : .free x ∈ visited ∨ u.Unsolved x
    · have hxr : r = x := by simpa [expand_of_reference h, Term.occurrences] using hmem
      rw [hxr]
    · obtain ⟨hv, hx⟩ := not_or.mp h
      obtain ⟨y, hy, hmem⟩ := (bound_mem_expand_iff hu hr hx hv).mp hmem
      exact (ih _ hv hx y hmem).head hy

/-- From an unsolved unknown a path leads nowhere else. -/
theorem eq_of_reaches_of_unsolved {P : ν → Prop} (hx : u.Unsolved x)
    (h : Relation.ReflTransGen (fun y z => P y ∧ u.Shows a y z) x r) : r = x := by
  induction h with
  | refl => rfl
  | tail _ hstep ih =>
    have hshows := hstep.2
    rw [ih, Shows, show u.find (.var (.free x)) = .var (.free x) from hx] at hshows
    exact Term.exposes_var.mp hshows

/-- An expansion is cut off where it comes back to an unknown, but a path need not come back. -/
theorem bound_mem_expand_of_reaches (hu : u.Scoped) (hr : u.Unsolved r) (visited : List (Var ν)) :
    ∀ x, Relation.ReflTransGen (fun y z => .free y ∉ visited ∧ u.Shows r y z) x r →
      .bound r ∈ (u.expand visited (.free x)).occurrences := by
  induction visited using u.visited_induction with
  | step visited ih =>
    intro x hpath
    by_cases hxr : x = r
    · simp [hxr, expand_of_unsolved hr, Term.occurrences]
    have hx : ¬ u.Unsolved x := fun h => hxr (eq_of_reaches_of_unsolved h hpath).symm
    have hv : .free x ∉ visited := by
      obtain rfl | ⟨y, hstep, -⟩ := hpath.cases_head
      · exact absurd rfl hxr
      · exact hstep.1
    have hvisited : ∀ y, .free y ∉ visited → y ≠ x → .free y ∉ Var.free x :: visited := by
      intro y hy hne
      simp [hne, hy]
    -- from its last step at `x` on, the path keeps away from `x` as well
    obtain ⟨y, hy, hrest⟩ := (exists_last_step hvisited hpath).resolve_left fun hpath => by
      obtain rfl | ⟨y, hstep, -⟩ := hpath.cases_head
      · exact hxr rfl
      · exact hstep.1 (List.mem_cons_self ..)
    exact (bound_mem_expand_iff hu hr hx hv).mpr ⟨y, hy, ih _ hv hx y hrest⟩

/-- An expansion refers to an unsolved unknown if and only if that can be reached outside of the
binders for it. -/
theorem bound_mem_expand_nil_iff (hu : u.Scoped) (hr : u.Unsolved r) (x : ν) :
    .bound r ∈ (u.expand [] (.free x)).occurrences ↔ Relation.ReflTransGen (u.Shows r) x r := by
  refine ⟨reaches_of_bound_mem_expand hu hr [] x, fun h => ?_⟩
  refine bound_mem_expand_of_reaches hu hr [] x (Relation.ReflTransGen.mono ?_ _ _ h)
  exact fun _ _ hstep => ⟨List.not_mem_nil, hstep⟩

/-! ### Equations with binders -/

variable {eqs : List (Term ν × Term ν)}

/-- Only unknowns have an answer, and it is their expansion. -/
theorem eq_free_of_solves (h : ScopedEquations eqs) {answers : List (Var ν × Term ν)}
    (hanswers : (after eqs).Solves answers) {e : Var ν × Term ν} (he : e ∈ answers) :
    ∃ x, e = (.free x, (after eqs).expand [] (.free x)) := by
  have hperm := hanswers.perm_solution (scoped_after h)
  obtain ⟨v, hv, rfl⟩ := List.mem_map.mp (hperm.mem_iff.mp he)
  obtain ⟨x, rfl⟩ := ((allSeen_after Term.Scoped.args h).var hv).eq_free
  exact ⟨x, rfl⟩

/-- The solution of equations in which every reference is bound, worked out in any order. Let a
variable `r` represent the class of an unknown `y`. If `y` stands in the representative of another
unknown, outside of all binders for `r`, the reference to `r` is free in the solution of that unknown.
In general it is free if and only if `r` can be reached through representatives, without getting under
a binder for `r`. -/
theorem reference_free_iff (eqs : List (Term ν × Term ν)) (hscoped : ScopedEquations eqs)
    (answers : List (Var ν × Term ν)) (hanswers : (after eqs).Solves answers)
    (e : Var ν × Term ν) (he : e ∈ answers) (y : ν) (r : Var ν)
    (hr : (after eqs).find (.var (.free y)) = .var r) :
    (((after eqs).find (.var e.1)).Exposes r.name y → r.toBound ∈ e.2.freeVars) ∧
      (r.toBound ∈ e.2.freeVars ↔
        Relation.ReflTransGen ((after eqs).Shows r.name) e.1.name r.name) := by
  have hu := scoped_after hscoped
  obtain ⟨x, rfl⟩ := eq_free_of_solves hscoped hanswers he
  have hrscoped := hu.find y
  rw [hr] at hrscoped
  obtain ⟨r, rfl⟩ := hrscoped.eq_free
  have hunsolved : (after eqs).Unsolved r := by
    have hfind := hu.sound.find_find (.var (.free y))
    rwa [hr] at hfind
  have hiff : (Var.free r).toBound ∈ ((after eqs).expand [] (.free x)).freeVars ↔
      Relation.ReflTransGen ((after eqs).Shows r) x r :=
    Term.mem_freeVars.trans (bound_mem_expand_nil_iff hu hunsolved x)
  refine ⟨fun hexposed => hiff.mpr ?_, hiff⟩
  have hlast : (after eqs).Shows r y r := by
    rw [Shows, hr]
    exact .var r
  exact (Relation.ReflTransGen.single hlast).head hexposed

/-- An example: `a = b`, `x = pair(μ'a. f('a, b), g(z))` and `z = h(b, x)`, with `a` for both `a` and
`b`. In the entry of `x` the reference to `a` is captured in one place and free in another. -/
def twoPlaces : List (Term Nat × Term Nat) :=
  [(.var (.free 0), .var (.free 1)),
    (.var (.free 2), .app "pair"
      [.mu 0 (.app "f" [.var (.bound 0), .var (.free 1)]), .app "g" [.var (.free 3)]]),
    (.var (.free 3), .app "h" [.var (.free 1), .var (.free 2)])]

def twoPlacesEntry : Term Nat :=
  .mu 2 (.app "pair" [.mu 0 (.app "f" [.var (.bound 0), .var (.bound 0)]),
    .app "g" [.app "h" [.var (.bound 0), .var (.bound 2)]]])

theorem reference_twoPlaces_free :
    ScopedEquations twoPlaces ∧ (.free 2, twoPlacesEntry) ∈ (after twoPlaces).solution ∧
      (after twoPlaces).find (.var (.free 1)) = .var (.free 0) ∧
      ¬ ((after twoPlaces).find (.var (.free 2))).Exposes 0 1 ∧
      .bound 0 ∈ twoPlacesEntry.freeVars := by
  have hscoped : ScopedEquations twoPlaces := by decide
  have hentry : (.free 2, twoPlacesEntry) ∈ (after twoPlaces).solution := by decide +kernel
  have hx : (after twoPlaces).find (.var (.free 2)) = .app "pair"
      [.mu 0 (.app "f" [.var (.bound 0), .var (.free 1)]), .app "g" [.var (.free 3)]] := by decide
  have hz : (after twoPlaces).find (.var (.free 3)) =
      .app "h" [.var (.free 1), .var (.free 2)] := by decide
  have hy : (after twoPlaces).find (.var (.free 1)) = .var (.free 0) := by decide
  refine ⟨hscoped, hentry, hy, ?_, ?_⟩
  · simp [hx, Term.exposes_app, Term.exposes_mu, Term.exposes_var]
  · -- `a` is reached by way of `z`
    have hxz : (after twoPlaces).Shows 0 2 3 := by
      simp [Shows, hx, Term.exposes_app, Term.exposes_var]
    have hzb : (after twoPlaces).Shows 0 3 1 := by
      simp [Shows, hz, Term.exposes_app, Term.exposes_var]
    have hba : (after twoPlaces).Shows 0 1 0 := by
      simp [Shows, hy, Term.exposes_var]
    have hiff := (reference_free_iff twoPlaces hscoped _ (.of_perm (.refl _))
      (.free 2, twoPlacesEntry) hentry 1 (.free 0) hy).2
    exact hiff.mpr (((Relation.ReflTransGen.single hba).head hzb).head hxz)

/-- An example: `a = b` and `x = μ'a. f('a, b)`, with `a` for both `a` and `b`. -/
def aliasUnderBinder : List (Term Nat × Term Nat) :=
  [(.var (.free 0), .var (.free 1)),
    (.var (.free 2), .mu 0 (.app "f" [.var (.bound 0), .var (.free 1)]))]

/-- Nothing is known about `a` and `b`, and `b` stands in the representative of `x`, but nothing is
free in the entry `μ'a. f('a, 'a)` of `x`. -/
theorem reference_alias_captured :
    ScopedEquations aliasUnderBinder ∧
      unifyEach unify aliasUnderBinder .empty = (after aliasUnderBinder, .unified) ∧
      (.free 2, .mu 0 (.app "f" [.var (.bound 0), .var (.bound 0)])) ∈
        (after aliasUnderBinder).solution ∧
      .free 1 ∈ ((after aliasUnderBinder).find (.var (.free 2))).freeVars ∧
      (after aliasUnderBinder).find (.var (.free 1)) = .var (.free 0) ∧
      (∀ t, (after aliasUnderBinder).Same t (.var (.free 1)) → t.isVar = true) ∧
      (Term.mu 0 (.app "f" [.var (.bound 0), .var (.bound 0)]) : Term Nat).freeVars = [] := by
  have hy : (after aliasUnderBinder).find (.var (.free 1)) = .var (.free 0) := by decide
  refine ⟨by decide, by decide, by decide +kernel, by decide, hy, fun t ht => ?_, by decide⟩
  by_contra hvar
  have hrep := (sound_after aliasUnderBinder).isVar_find ht (by simpa using hvar)
  rw [hy] at hrep
  cases hrep

end Unifier

end StaticAnalysis
