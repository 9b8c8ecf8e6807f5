import StaticAnalysis.Proofs.MostGeneral

/-!
The shape of solutions. `'x` is written both for an unsolved unknown and for a reference to a binder,
and nothing in a substitution avoids capture. That no reference dangles and none is captured comes
from the path of an expansion: an unknown on the path is not expanded again, so no binder for it
stands further inside, and its own binder is put only where something refers to it.

Main statement: in the solution of equations between plain terms, whether they were accepted or not,
nothing but unsolved unknowns is free, and every binder is guarded, used and not shadowed.
-/

namespace StaticAnalysis

namespace Term

variable {ν : Type} {s t : Term ν} {x : ν}

/-- The term stands somewhere in another one: it is that term, or it stands in an argument or under a
binder. -/
inductive Subterm (s : Term ν) : Term ν → Prop where
  | self : Subterm s s
  | arg {name : String} {args : List (Term ν)} {t : Term ν} (ht : t ∈ args) (h : Subterm s t) :
      Subterm s (.app name args)
  | body {param : ν} {body : Term ν} (h : Subterm s body) : Subterm s (.mu param body)

/-- What stands in a guarded term is guarded. -/
theorem Guarded.of_subterm (ht : t.Guarded) (h : s.Subterm t) : s.Guarded := by
  induction h with
  | self => exact ht
  | arg hmem _ ih =>
    cases ht with
    | app hargs => exact ih (hargs _ hmem)
  | body _ ih =>
    cases ht with
    | mu hbody => exact ih hbody

/-- No binder binds an unknown, wherever the unknown stands. -/
theorem free_mem_occurrences [DecidableEq ν] (h : (var (.free x)).Subterm t) :
    .free x ∈ t.occurrences := by
  induction h with
  | self => simp [occurrences]
  | arg hmem _ ih => exact mem_occurrences_app.mpr ⟨_, hmem, ih⟩
  | body _ ih => exact mem_occurrences_mu.mpr ⟨ih, nofun⟩

/-- A plain term has no binders of its own. -/
theorem Plain.mu_subterm_replace [DecidableEq ν] (ht : t.Plain) {θ : Var ν → Term ν} {b : Term ν}
    (h : (mu x b).Subterm (t.replace θ)) : ∃ y, .free y ∈ t.occurrences ∧
      (mu x b).Subterm (θ (.free y)) := by
  induction ht with
  | var y => exact ⟨y, by simp [occurrences], h⟩
  | app _ ih =>
    rw [replace_app] at h
    cases h with
    | arg hmem h =>
      obtain ⟨r, hr, rfl⟩ := List.mem_map.mp hmem
      obtain ⟨y, hy, hsub⟩ := ih r hr h
      exact ⟨y, mem_occurrences_app.mpr ⟨r, hr, hy⟩, hsub⟩

end Term

namespace Unifier

variable {ν : Type} [DecidableEq ν] {u : Unifier ν} {visited : List (Var ν)} {P : Term ν → Prop}

/-! ### The terms that have been seen -/

/-- The unifier is sound, and all terms that it has seen have a property. -/
structure AllSeen (u : Unifier ν) (P : Term ν → Prop) : Prop where
  sound : u.Sound
  terms : ∀ t ∈ u.forest.terms, P t

theorem AllSeen.find (hu : u.AllSeen P) {t : Term ν} (ht : P t) : P (u.find t) := by
  by_cases hfind : u.find t = t
  · rwa [hfind]
  · exact hu.terms _ (hu.sound.forest.find_mem (Forest.mem_terms_of_find_ne hfind))

theorem AllSeen.of_sees {v : Unifier ν} {lhs rhs : Term ν} (hu : u.AllSeen P) (hv : v.Sound)
    (hseen : u.Sees v lhs rhs) (hlhs : P lhs) (hrhs : P rhs) : v.AllSeen P := by
  refine ⟨hv, fun t ht => ?_⟩
  rcases (hseen t).mp ht with ht | rfl | rfl
  · exact hu.terms t ht
  · exact hlhs
  · exact hrhs

/-- A property that applications pass on to their arguments spreads from the sides of an equation to
all terms that are seen on its behalf. -/
theorem unifyWithin_allSeen (hP : ∀ {name args}, P (.app name args) → ∀ t ∈ args, P t) :
    ∀ (depth : Nat) {u : Unifier ν} {lhs rhs : Term ν}, u.AllSeen P → P lhs → P rhs →
      (u.unifyWithin depth lhs rhs).1.AllSeen P
  | 0, _, _, _, hu, _, _ => hu
  | depth + 1, u, lhs, rhs, hu, hl, hr => by
      have hturn := turn_unifyWithin hu.sound depth lhs rhs
      generalize u.unifyWithin (depth + 1) lhs rhs = result at hturn
      cases hturn with
      | same hv hfind hsame hseen => exact hu.of_sees hv hseen hl hr
      | conflict hv hfind hconflict hseen => exact hu.of_sees hv hseen hl hr
      | absorb hjoin hne hvar hseen => exact hu.of_sees hjoin.sound hseen hl hr
      | decompose hjoin hne hlhs hrhs hlen hseen =>
        refine (unifyEach_invariant (P := fun v => v.AllSeen P) (Q := fun _ => True) trivial
          (fun w p hp hw => ⟨?_, trivial⟩) (hu.of_sees hjoin.sound hseen hl hr)).1
        obtain ⟨hs, ht⟩ := List.of_mem_zip hp
        exact unifyWithin_allSeen hP depth hw (hP (hlhs ▸ hu.find hl) _ hs)
          (hP (hrhs ▸ hu.find hr) _ ht)

omit [DecidableEq ν] in
theorem mem_vars {v : Var ν} : v ∈ u.vars ↔ .var v ∈ u.forest.terms := by
  constructor
  · intro hv
    obtain ⟨t, ht, htv⟩ := List.mem_filterMap.mp hv
    cases t with
    | var w => exact Option.some.inj htv ▸ ht
    | app => cases htv
    | mu => cases htv
  · intro hv
    exact List.mem_filterMap.mpr ⟨_, hv, rfl⟩

theorem AllSeen.var {v : Var ν} (hu : u.AllSeen P) (hv : v ∈ u.vars) : P (.var v) :=
  hu.terms _ (mem_vars.mp hv)

/-- A property of both sides of all equations, passed on from applications to their arguments, is
one of all terms that are seen. -/
theorem allSeen_after {eqs : List (Term ν × Term ν)}
    (hP : ∀ {name args}, P (.app name args) → ∀ t ∈ args, P t)
    (h : ∀ p ∈ eqs, P p.1 ∧ P p.2) : (after eqs).AllSeen P :=
  after_invariant (P := fun u => u.AllSeen P) ⟨sound_empty, nofun⟩ fun _ p hp hu =>
    unifyWithin_allSeen hP _ hu (h p hp).1 (h p hp).2

/-- From plain equations only plain terms are seen, so the variables among them are unknowns. -/
theorem eq_free_of_mem_vars {eqs : List (Term ν × Term ν)} (hplain : PlainEquations eqs) {v : Var ν}
    (hv : v ∈ (after eqs).vars) : ∃ x, v = .free x := by
  have hargs : ∀ {name args}, (Term.app name args : Term ν).Plain → ∀ t ∈ args, t.Plain := by
    intro name args happ
    cases happ with
    | app h => exact h
  cases (allSeen_after hargs hplain).var hv with
  | var x => exact ⟨x, rfl⟩

/-! ### Binders -/

/-- Every binder in the term is for an unknown that has not been visited, it binds something, and no
binder under it is for the same unknown. -/
def Tidy (visited : List (Var ν)) (t : Term ν) : Prop :=
  ∀ p b, (Term.mu p b).Subterm t →
    .free p ∉ visited ∧ .bound p ∈ b.occurrences ∧ ∀ c, ¬ (Term.mu p c).Subterm b

theorem tidy_replace {t : Term ν} (ht : t.Plain)
    (h : ∀ x, Tidy visited (u.expand visited (.free x))) :
    Tidy visited (t.replace (u.expand visited)) := by
  intro p b hsub
  obtain ⟨y, -, hsub⟩ := ht.mu_subterm_replace hsub
  exact h y p b hsub

/-- The binders of an expansion are tidy. -/
theorem tidy_expand (hu : u.Regular) (visited : List (Var ν)) :
    ∀ x, Tidy visited (u.expand visited (.free x)) := by
  induction visited using u.visited_induction with
  | step visited ih =>
    intro x
    have hexp := expansion_expand hu fun _ _ => refers_expand hu (.free x :: visited)
    have hbody : .free x ∉ visited → ¬ u.Unsolved x → Tidy (.free x :: visited)
        ((u.find (.var (.free x))).replace (u.expand (.free x :: visited))) :=
      fun hv hx => tidy_replace (hu.plain x) (ih (.free x) hv hx)
    generalize u.expand visited (.free x) = t at hexp
    intro p b hsub
    cases hexp with
    | reference => cases hsub
    | plain hv hx ht hback =>
      obtain ⟨hp, hused, hinside⟩ := hbody hv hx p b (ht ▸ hsub)
      exact ⟨fun hmem => hp (List.mem_cons_of_mem _ hmem), hused, hinside⟩
    | knot hv hx ht hback =>
      have hinner := ht ▸ hbody hv hx
      cases hsub with
      | self =>
        -- inside its own binder the unknown counts as visited, so it has no other one there
        refine ⟨hv, hback, fun c hc => ?_⟩
        exact (hinner _ c hc).1 (List.mem_cons_self ..)
      | body hsub =>
        obtain ⟨hp, hused, hinside⟩ := hinner p b hsub
        exact ⟨fun hmem => hp (List.mem_cons_of_mem _ hmem), hused, hinside⟩

/-- The shape of the solution of equations between plain terms, whether they were accepted or not. An
entry contains no unknowns. What is free in it refers to unknowns that stand for their classes. Every
binder in it is around an application that refers to it, and no binder further inside is for the same
variable. -/
theorem solution_shape (eqs : List (Term ν × Term ν)) (hplain : PlainEquations eqs)
    (e : Var ν × Term ν) (he : e ∈ (after eqs).solution) :
    (∀ x, ¬ (Term.var (.free x)).Subterm e.2) ∧
    (∀ v ∈ e.2.freeVars, ∃ r, v = .bound r ∧
      (after eqs).find (.var (.free r)) = .var (.free r)) ∧
    ∀ p b, (Term.mu p b).Subterm e.2 →
      (∃ name args, b = .app name args) ∧ .bound p ∈ b.freeVars ∧
        ∀ c, ¬ (Term.mu p c).Subterm b := by
  have hu := regular_after hplain
  obtain ⟨v, hv, rfl⟩ := List.mem_map.mp he
  obtain ⟨x, rfl⟩ := eq_free_of_mem_vars hplain hv
  have hrefers : (after eqs).Refers [] ((after eqs).expand [] (.free x)) := refers_expand hu [] x
  refine ⟨fun y hy => ?_, fun w hw => ?_, fun p b hsub => ?_⟩
  · exact hrefers.free_not_mem y (Term.free_mem_occurrences hy)
  · obtain ⟨r, rfl, hr⟩ := hrefers.bound w (Term.mem_freeVars.mp hw)
    exact ⟨r, rfl, hr.resolve_left List.not_mem_nil⟩
  · obtain ⟨-, hused, hinside⟩ := tidy_expand hu [] x p b hsub
    refine ⟨?_, Term.mem_freeVars.mpr hused, hinside⟩
    cases hrefers.guarded.of_subterm hsub with
    | mu => exact ⟨_, _, rfl⟩

/-- An example: an equation that is refused, but not before `w = f(w, x)` has been taken from it, with
`x` in a loop of its own. -/
def refusedLoop : List (Term Nat × Term Nat) :=
  mutualLoop ++
    [(.app "pair" [.var (.free 3), .app "k" []],
      .app "pair" [.app "f" [.var (.free 3), .var (.free 0)], .app "h" []])]

theorem plainEquations_refusedLoop : PlainEquations refusedLoop := by
  intro p hp
  rcases List.mem_append.mp hp with hp | hp
  · exact plainEquations_mutualLoop p hp
  · rw [List.mem_singleton.mp hp]
    refine ⟨.app fun t ht => ?_, .app fun t ht => ?_⟩
    · rcases List.mem_pair.mp ht with rfl | rfl
      · exact .var 3
      · exact .app nofun
    · rcases List.mem_pair.mp ht with rfl | rfl
      · refine .app fun t ht => ?_
        rcases List.mem_pair.mp ht with rfl | rfl
        · exact .var 3
        · exact .var 0
      · exact .app nofun

/-- The entry of `w` has a binder inside a binder. -/
def refusedLoopEntry : Term Nat :=
  .mu 3 (.app "f" [.var (.bound 3),
    .mu 0 (.app "f" [.var (.bound 0), .app "g" [.var (.bound 0), .var (.bound 2)]])])

theorem solution_refusedLoop_shape :
    PlainEquations refusedLoop ∧
      ((after mutualLoop).unify (.app "pair" [.var (.free 3), .app "k" []])
        (.app "pair" [.app "f" [.var (.free 3), .var (.free 0)], .app "h" []])).2 =
          .clash ⟨.app "k" [], .app "h" []⟩ ∧
      (.free 3, refusedLoopEntry) ∈ (after refusedLoop).solution ∧
      (∀ x, ¬ (Term.var (.free x)).Subterm refusedLoopEntry) ∧
      (∀ v ∈ refusedLoopEntry.freeVars, ∃ r, v = .bound r ∧
        (after refusedLoop).find (.var (.free r)) = .var (.free r)) ∧
      ∀ p b, (Term.mu p b).Subterm refusedLoopEntry →
        (∃ name args, b = .app name args) ∧ .bound p ∈ b.freeVars ∧
          ∀ c, ¬ (Term.mu p c).Subterm b := by
  have hentry : (.free 3, refusedLoopEntry) ∈ (after refusedLoop).solution := by decide +kernel
  exact ⟨plainEquations_refusedLoop, by decide, hentry,
    solution_shape refusedLoop plainEquations_refusedLoop (.free 3, refusedLoopEntry) hentry⟩

end Unifier

end StaticAnalysis
