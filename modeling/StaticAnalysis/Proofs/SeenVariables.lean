import StaticAnalysis.Proofs.SolutionShape
import StaticAnalysis.Proofs.UnificationTermination
import StaticAnalysis.Proofs.UnifierForest

/-!
The variables that have an entry in the solution. A term counts as seen when its representative is
looked up, and that happens to the sides of equations and to the arguments of applications that are
merged with each other. What stands further inside of a term is not looked at, so a variable there
need not get an entry.

Which applications are merged, and in which order, depends on the whole run. Still, after equations
that were all accepted the terms that have been seen can be read off the equations: the sides, and
the arguments of every application that is forced to be equal to another one. A class with two
applications came from merges, and in the merge that made an application share its class with another
one for the first time, it was the representative, so that its arguments were looked up.
-/

namespace StaticAnalysis

variable {ν : Type}

/-- Some equations bring a term up: it is a side of one of them, or an argument of an application that
they force to be equal to another one. -/
def Term.Met (eqs : List (Term ν × Term ν)) (t : Term ν) : Prop :=
  (∃ p ∈ eqs, t = p.1 ∨ t = p.2) ∨
    ∃ name ss ts, t ∈ ss ∧ ss ≠ ts ∧ Term.Forced eqs (.app name ss) (.app name ts)

variable [DecidableEq ν]

/-- Every free variable of the term is free in one of the equations. -/
def Term.DrawsFrom (eqs : List (Term ν × Term ν)) (t : Term ν) : Prop :=
  ∀ v ∈ t.occurrences, ∃ p ∈ eqs, v ∈ p.1.freeVars ∨ v ∈ p.2.freeVars

namespace Unifier

variable {u v w : Unifier ν} {lhs rhs t : Term ν} {eqs : List (Term ν × Term ν)}

/-! ### What is seen has come up -/

/-- Only terms that the equations bring up are looked up on their behalf. -/
theorem unifyWithin_met : ∀ (depth : Nat) {u : Unifier ν} {lhs rhs : Term ν},
    u.Respects (Term.Forced eqs) → u.AllSeen (Term.Met eqs) → Term.Forced eqs lhs rhs →
    Term.Met eqs lhs → Term.Met eqs rhs → (u.unifyWithin depth lhs rhs).1.AllSeen (Term.Met eqs)
  | 0, _, _, _, _, hseen, _, _, _ => hseen
  | depth + 1, u, lhs, rhs, hu, hmet, hforced, hl, hr => by
      have hclosure := Term.Forced.decomposing eqs
      have hturn := turn_unifyWithin hu.1 depth lhs rhs
      generalize u.unifyWithin (depth + 1) lhs rhs = result at hturn
      cases hturn with
      | same hv hfind hsame hseen => exact hmet.of_sees hv hseen hl hr
      | conflict hv hfind hconflict hseen => exact hmet.of_sees hv hseen hl hr
      | absorb hjoin hne hvar hseen => exact hmet.of_sees hjoin.sound hseen hl hr
      | @decompose v name ss ts hjoin hne hlhs hrhs hlen hseen =>
        have happ := hu.find hclosure.equiv hforced
        rw [hlhs, hrhs] at happ
        have hdiff : ss ≠ ts := by
          rintro rfl
          exact hne (hlhs.trans hrhs.symm)
        refine (unifyEach_invariant
          (P := fun w => w.Respects (Term.Forced eqs) ∧ w.AllSeen (Term.Met eqs))
          (Q := fun _ => True) trivial (fun w p hp hw => ⟨?_, trivial⟩)
          ⟨hu.join hclosure.equiv hforced hjoin, hmet.of_sees hjoin.sound hseen hl hr⟩).1.2
        have hpair : Term.Forced eqs p.1 p.2 := .argument hlen happ hp
        obtain ⟨hs, ht⟩ := List.of_mem_zip hp
        refine ⟨(unifyWithin_respects hclosure depth hw.1 hpair).1, ?_⟩
        exact unifyWithin_met depth hw.1 hw.2 hpair (Or.inr ⟨name, ss, ts, hs, hdiff, happ⟩)
          (Or.inr ⟨name, ts, ss, ht, hdiff.symm, .symm happ⟩)

theorem allSeen_met (eqs : List (Term ν × Term ν)) :
    (unifyEach unify eqs .empty).1.AllSeen (Term.Met eqs) := by
  have hclosure := Term.Forced.decomposing eqs
  refine (unifyEach_invariant
    (P := fun w => w.Respects (Term.Forced eqs) ∧ w.AllSeen (Term.Met eqs)) (Q := fun _ => True)
    trivial (fun w p hp hw => ⟨?_, trivial⟩)
    ⟨respects_empty hclosure.equiv, sound_empty, nofun⟩).1.2
  have hpair : Term.Forced eqs p.1 p.2 := .equation hp
  refine ⟨(unifyWithin_respects hclosure _ hw.1 hpair).1, ?_⟩
  exact unifyWithin_met _ hw.1 hw.2 hpair (Or.inl ⟨p, hp, Or.inl rfl⟩)
    (Or.inl ⟨p, hp, Or.inr rfl⟩)

/-! ### What has come up is seen -/

/-- Wherever an application shares its class with another term that is no variable, its arguments
have been seen, or they are among some terms that are still to come. -/
def Explored (u : Unifier ν) (later : Term ν → Prop) : Prop :=
  ∀ ⦃name ss t⦄, u.Same (.app name ss) t → t.isVar = false → t ≠ .app name ss →
    ∀ s ∈ ss, s ∈ u.forest.terms ∨ later s

/-- The second unifier has seen what the first one has and the sides of some equations, and it leaves
no other arguments to come. -/
structure Surveys (u v : Unifier ν) (eqs : List (Term ν × Term ν)) : Prop where
  sound : v.Sound
  kept : ∀ t ∈ u.forest.terms, t ∈ v.forest.terms
  sides : ∀ p ∈ eqs, p.1 ∈ v.forest.terms ∧ p.2 ∈ v.forest.terms
  explored : ∀ {later}, u.Explored later → v.Explored later

theorem surveys_addsUp : AddsUp (@Surveys ν _) where
  sound h := h.sound
  nil hu := ⟨hu, fun _ h => h, nofun, fun h => h⟩
  append := by
    intro u v w eqs eqs' h h'
    refine ⟨h'.sound, fun t ht => h'.kept t (h.kept t ht), fun p hp => ?_,
      fun hu => h'.explored (h.explored hu)⟩
    rcases List.mem_append.mp hp with hp | hp
    · obtain ⟨hl, hr⟩ := h.sides p hp
      exact ⟨h'.kept _ hl, h'.kept _ hr⟩
    · exact h'.sides p hp

/-- Once two applications have been equated place by place, all their arguments have been seen. -/
theorem Surveys.args {ss ts : List (Term ν)} (h : u.Surveys v (ss.zip ts))
    (hlen : ss.length = ts.length) (ht : t ∈ ss ∨ t ∈ ts) : t ∈ v.forest.terms := by
  rcases ht with ht | ht
  · rw [← List.map_fst_zip (Nat.le_of_eq hlen)] at ht
    obtain ⟨p, hp, rfl⟩ := List.mem_map.mp ht
    exact (h.sides p hp).1
  · rw [← List.map_snd_zip (Nat.le_of_eq hlen.symm)] at ht
    obtain ⟨p, hp, rfl⟩ := List.mem_map.mp ht
    exact (h.sides p hp).2

omit [DecidableEq ν] in
theorem Sees.kept (h : u.Sees v lhs rhs) (ht : t ∈ u.forest.terms) : t ∈ v.forest.terms :=
  (h t).mpr (Or.inl ht)

omit [DecidableEq ν] in
theorem Sees.sides (h : u.Sees v lhs rhs) :
    ∀ p ∈ [(lhs, rhs)], p.1 ∈ v.forest.terms ∧ p.2 ∈ v.forest.terms := by
  intro p hp
  rw [List.mem_singleton.mp hp]
  exact ⟨(h lhs).mpr (Or.inr (Or.inl rfl)), (h rhs).mpr (Or.inr (Or.inr rfl))⟩

/-- A merge leaves the arguments of the two representatives to come, and nothing if one of them is a
variable. Any other application in their classes was there together with its representative before. -/
theorem Joins.explored (hu : u.Sound) (hjoin : u.Joins v (u.find lhs) (u.find rhs))
    (hseen : u.Sees v lhs rhs) {later later' : Term ν → Prop} (hlater : ∀ s, later s → later' s)
    (hargs : (u.find lhs).isVar = false → (u.find rhs).isVar = false → ∀ name ss,
      u.find lhs = .app name ss ∨ u.find rhs = .app name ss → ∀ s ∈ ss, later' s)
    (h : u.Explored later) : v.Explored later' := by
  intro name ss t hst ht hne s hs
  -- a class with two different applications was explored before
  have hold : ∀ {r}, u.Same (.app name ss) r → r.isVar = false → r ≠ .app name ss →
      s ∈ v.forest.terms ∨ later' s := by
    intro r hr hvar hdiff
    exact (h hr hvar hdiff s hs).imp hseen.kept (hlater s)
  -- otherwise the application is the representative, whose arguments come next
  have hmoved : ∀ {r}, u.find (.app name ss) = u.find r →
      (u.find r = .app name ss → ∀ s ∈ ss, later' s) → s ∈ v.forest.terms ∨ later' s := by
    intro r hr hrep
    by_cases heq : u.find r = .app name ss
    · exact Or.inr (hrep heq s hs)
    · exact hold (hr.trans (hu.find_find r).symm) (hu.isVar_find hr rfl) heq
  rcases hjoin.same_iff.mp hst with hsame | ⟨hl, hr⟩ | ⟨hr, hl⟩
  · -- the two were in one class before the merge
    exact hold hsame ht hne
  · -- the merge brought them together, from the left class
    exact hmoved hl fun heq =>
      hargs (hu.isVar_find hl rfl) (hu.isVar_find hr ht) name ss (Or.inl heq)
  · -- and from the right one
    exact hmoved hr fun heq =>
      hargs (hu.isVar_find hl ht) (hu.isVar_find hr rfl) name ss (Or.inr heq)

/-- An accepted equation leaves nothing to come that it has caused itself. -/
theorem unifyWithin_surveys : ∀ (depth : Nat) {u v : Unifier ν} {lhs rhs : Term ν}, u.Sound →
    u.unifyWithin depth lhs rhs = (v, .unified) → u.Surveys v [(lhs, rhs)]
  | 0, _, _, _, _, _, h => by cases h
  | depth + 1, u, v, lhs, rhs, hu, h => by
      have hturn := turn_unifyWithin hu depth lhs rhs
      rw [h] at hturn
      generalize hresult : (v, Verdict.unified) = result at hturn
      cases hturn with
      | same hv hfind hsame hseen =>
        cases hresult
        refine ⟨hv, fun t => hseen.kept, hseen.sides, fun hexplored name ss t hst ht hne s hs => ?_⟩
        rw [Same, hfind, hfind] at hst
        exact (hexplored hst ht hne s hs).imp_left hseen.kept
      | conflict => cases hresult
      | absorb hjoin hne hvar hseen =>
        cases hresult
        refine ⟨hjoin.sound, fun t => hseen.kept, hseen.sides,
          hjoin.explored hu hseen (fun _ => id) fun hl hr => ?_⟩
        rw [hl, hr] at hvar
        rcases hvar with hvar | hvar <;> cases hvar
      | @decompose w name ss ts hjoin hne hlhs hrhs hlen hseen =>
        have hrest : w.Surveys v (ss.zip ts) :=
          surveys_addsUp.unifyEach (unifyWithin_surveys depth) hjoin.sound hresult.symm
        refine ⟨hrest.sound, fun t ht => hrest.kept t (hseen.kept ht), fun p hp => ?_, ?_⟩
        · obtain ⟨hl, hr⟩ := hseen.sides p hp
          exact ⟨hrest.kept _ hl, hrest.kept _ hr⟩
        · -- while the arguments are worked on, they all count as still to come
          intro later hexplored
          have hopen : w.Explored fun s => later s ∨ s ∈ ss ∨ s ∈ ts := by
            refine hjoin.explored hu hseen (fun _ => Or.inl) (fun _ _ name' args happ s hs => ?_)
              hexplored
            rw [hlhs, hrhs] at happ
            rcases happ with happ | happ
            · exact Or.inr (Or.inl ((Term.app.inj happ).2 ▸ hs))
            · exact Or.inr (Or.inr ((Term.app.inj happ).2 ▸ hs))
          intro name' args t hst ht hdiff s hs
          rcases hrest.explored hopen hst ht hdiff s hs with hmem | hmem | hmem
          · exact Or.inl hmem
          · exact Or.inr hmem
          · exact Or.inl (hrest.args hlen hmem)

/-- After equations that were all accepted, the terms that have been seen are those that the
equations bring up. -/
theorem mem_terms_iff_met (h : unifyEach unify eqs .empty = (u, .unified)) :
    t ∈ u.forest.terms ↔ Term.Met eqs t := by
  constructor
  · -- only what is met is seen
    intro ht
    have hmet := allSeen_met eqs
    rw [h] at hmet
    exact hmet.terms t ht
  · -- the sides of equations are seen at once, arguments when their classes are merged
    have hsurvey : empty.Surveys u eqs :=
      surveys_addsUp.unifyEach (unifyWithin_surveys _) sound_empty h
    have hexplored : u.Explored fun _ => False := by
      refine hsurvey.explored fun name ss t hst _ hne => ?_
      exact absurd (show Term.app name ss = t from hst).symm hne
    rintro (⟨p, hp, rfl | rfl⟩ | ⟨name, ss, ts, hmem, hne, hforced⟩)
    · exact (hsurvey.sides p hp).1
    · exact (hsurvey.sides p hp).2
    · refine (hexplored ((same_iff_forced h).mpr hforced) rfl ?_ t hmem).resolve_right id
      exact fun heq => hne (Term.app.inj heq).2.symm

/-- What is seen has no other free variables than the equations. -/
theorem allSeen_drawsFrom (eqs : List (Term ν × Term ν)) :
    (unifyEach unify eqs .empty).1.AllSeen (Term.DrawsFrom eqs) := by
  refine (unifyEach_invariant (P := fun w => w.AllSeen (Term.DrawsFrom eqs)) (Q := fun _ => True)
    trivial (fun w p hp hw => ⟨?_, trivial⟩) ⟨sound_empty, nofun⟩).1
  refine unifyWithin_allSeen ?_ _ hw ?_ ?_
  · intro name args happ t ht v hv
    exact happ v (Term.mem_occurrences_app.mpr ⟨t, ht, hv⟩)
  · exact fun v hv => ⟨p, hp, Or.inl (Term.mem_freeVars.mpr hv)⟩
  · exact fun v hv => ⟨p, hp, Or.inr (Term.mem_freeVars.mpr hv)⟩

/-- The variables after equations that were all accepted. A variable has an entry in the solution if
and only if it is a side of an equation, or an argument of an application that the equations force to
be equal to another one. Every variable with an entry is free in an equation. A variable without an
entry is alone in its class: nothing is known about it. -/
theorem entry_iff_met (h : unifyEach unify eqs .empty = (u, .unified)) (v : Var ν) :
    (v ∈ u.vars ↔ Term.Met eqs (.var v)) ∧
      ((∃ t, (v, t) ∈ u.solution) ↔ v ∈ u.vars) ∧
      (v ∈ u.vars → ∃ p ∈ eqs, v ∈ p.1.freeVars ∨ v ∈ p.2.freeVars) ∧
      (v ∉ u.vars → ∀ t, u.find t = .var v ↔ t = .var v) := by
  have hfree := allSeen_drawsFrom eqs
  rw [h] at hfree
  refine ⟨mem_vars.trans (mem_terms_iff_met h), ?_, fun hv => ?_, fun hv t => ?_⟩
  · -- every variable that was seen has an entry
    rw [← u.map_fst_solution, List.mem_map]
    constructor
    · rintro ⟨t, ht⟩
      exact ⟨(v, t), ht, rfl⟩
    · rintro ⟨⟨w, t⟩, ht, rfl⟩
      exact ⟨t, ht⟩
  · -- what is seen comes from the equations
    exact hfree.var hv v (by simp [Term.occurrences])
  · -- a variable that was not seen is alone in its class
    exact hfree.sound.forest.find_eq_iff_of_not_mem (mt mem_vars.mpr hv)

/-- An example: `x = f(y, g(z))` and `x = f(k, w)`. -/
def twoShapes : List (Term Nat × Term Nat) :=
  [(.var (.free 0), .app "f" [.var (.free 1), .app "g" [.var (.free 2)]]),
    (.var (.free 0), .app "f" [.app "k" [], .var (.free 3)])]

/-- The arguments `y` and `w` of the two applications have an entry, `z` further inside has none. -/
theorem entry_twoShapes_iff_met :
    ∃ u, unifyEach unify twoShapes .empty = (u, .unified) ∧
      Term.Met twoShapes (.var (.free 1)) ∧ (∃ t, (.free 3, t) ∈ u.solution) ∧
      ¬ Term.Met twoShapes (.var (.free 2)) ∧ (¬ ∃ t, (.free 2, t) ∈ u.solution) ∧
      ∀ t, u.find t = .var (.free 2) ↔ t = .var (.free 2) := by
  have hrun : unifyEach unify twoShapes .empty =
      ((unifyEach unify twoShapes .empty).1, .unified) := by decide
  have hy : .free 1 ∈ (unifyEach unify twoShapes .empty).1.vars := by decide
  have hw : .free 3 ∈ (unifyEach unify twoShapes .empty).1.vars := by decide
  have hz : .free 2 ∉ (unifyEach unify twoShapes .empty).1.vars := by decide
  obtain ⟨hmet, hentry, -, halone⟩ := entry_iff_met hrun (.free 2)
  refine ⟨_, hrun, (entry_iff_met hrun (.free 1)).1.mp hy, (entry_iff_met hrun (.free 3)).2.1.mpr hw,
    mt hmet.mpr hz, mt hentry.mp hz, halone hz⟩

/-- Not every variable that is free in an equation has an entry: `y` has none after `x = f(y)`. -/
theorem entry_nested_missing :
    ∃ u, unifyEach unify [(.var (.free 0), .app "f" [.var (.free 1)])] .empty = (u, .unified) ∧
      .free 1 ∈ (Term.app "f" [.var (.free 1)] : Term Nat).freeVars ∧
      .free 1 ∉ u.vars ∧ u.solution.map Prod.fst = [.free 0] := by
  refine ⟨(unifyEach unify [(.var (.free 0), .app "f" [.var (.free 1)])] .empty).1, by decide,
    by decide, by decide, ?_⟩
  rw [map_fst_solution]
  decide

end Unifier

end StaticAnalysis
