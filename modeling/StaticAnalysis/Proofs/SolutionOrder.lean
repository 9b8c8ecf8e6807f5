import StaticAnalysis.Proofs.Scoping
import StaticAnalysis.Proofs.UnificationTermination

/-!
Solutions do not depend on an order. The free variables of an application are replaced one after the
other, and every replacement also goes through the terms that were put in place by the ones before
it. It finds nothing to do there, as long as every reference in the equations is bound: an expansion
contains references but no unknowns, and a reference is replaced by itself. So each order, chosen
anew for every application that is met on the way, gives the same term as replacing all unknowns at
once.

Main statement: after equations between plain terms, whether they were accepted or not, a plain term
closes to one term only, and the solution has the same entries in whatever order they are worked out.
-/

namespace StaticAnalysis.Unifier

variable {ν : Type} [DecidableEq ν] {u : Unifier ν} {visited : List (Var ν)} {s t : Term ν}

/-- Closing a term ends with one result, in whichever order free variables are taken. -/
theorem Closes.eq_close (hu : u.Scoped) (h : u.Closes visited t s) : s = u.close visited t := by
  induction h with
  | reference h => rw [close, closeWith, expand, dif_pos h]
  | @expansion visited v s hv hfind _ ih =>
    rw [ih]
    show _ = u.expand visited v
    rw [expand, dif_neg (not_or.mpr ⟨hv, hfind⟩)]
    rfl
  | @app visited name args order θ horder _ ih =>
    have hclosing := closing_expand hu visited
    calc order.foldl (fun acc v => acc.subst v (θ v)) (.app name args)
      _ = order.foldl (fun acc v => acc.subst v (u.expand visited v)) (.app name args) :=
        List.foldl_ext _ _ _ fun acc v hv => congrArg (acc.subst v) (ih v hv)
      _ = (Term.app name args).replace (u.expand visited) :=
        hclosing.foldl_subst fun _ => horder.mem_iff.trans Term.mem_freeVars
      _ = u.close visited (.app name args) := (closeWith_eq_of_closing hclosing _).symm
  | mu _ ih =>
    rw [ih]
    rfl

/-- A solution that was worked out in some order: the variables are taken one after the other, and so
are the free variables of every application that is met on the way. -/
structure Solves (u : Unifier ν) (answers : List (Var ν × Term ν)) : Prop where
  vars : (answers.map Prod.fst).Perm u.vars
  closes : ∀ e ∈ answers, u.Closes [] (.var e.1) e.2

theorem Solves.of_perm {answers : List (Var ν × Term ν)} (h : answers.Perm u.solution) :
    u.Solves answers where
  vars := u.map_fst_solution ▸ h.map Prod.fst
  closes _ he := closes_of_mem_solution (h.mem_iff.mp he)

/-- The answers are the entries of the solution, in some order. -/
theorem Solves.perm_solution (hu : u.Scoped) {answers : List (Var ν × Term ν)}
    (h : u.Solves answers) : answers.Perm u.solution := by
  have hanswers : answers = (answers.map Prod.fst).map fun v => (v, u.close [] (.var v)) := by
    rw [List.map_map]
    refine (List.map_id answers).symm.trans (List.map_congr_left fun e he => ?_)
    exact Prod.ext rfl ((h.closes e he).eq_close hu)
  rw [hanswers]
  exact h.vars.map _

/-- No order makes a difference to what is worked out from equations between plain terms, whether
they were accepted or not. A plain term closes to one term, whichever variables are being expanded
around it, and the solution has one set of entries. -/
theorem solution_any_order (eqs : List (Term ν × Term ν)) (hplain : PlainEquations eqs) :
    (∀ visited t, t.Plain → ∀ s,
      (after eqs).Closes visited t s ↔ s = (after eqs).close visited t) ∧
    ∀ answers, (after eqs).Solves answers ↔ answers.Perm (after eqs).solution := by
  have hu := scoped_after hplain.scoped
  refine ⟨fun visited t _ s => ⟨fun h => h.eq_close hu, ?_⟩,
    fun answers => ⟨fun h => h.perm_solution hu, .of_perm⟩⟩
  rintro rfl
  exact (after eqs).closes_close visited t

/-- The representative of `w` in `refusedLoop`. -/
def refusedLoopBody : Term Nat := .app "f" [.var (.free 3), .var (.free 0)]

theorem solution_refusedLoop_any_order :
    PlainEquations refusedLoop ∧ refusedLoopBody.Plain ∧
      refusedLoopBody.freeVars = [.free 3, .free 0] ∧
      [Var.free 0, .free 3].foldl (fun acc v => acc.subst v ((after refusedLoop).expand [.free 3] v))
        refusedLoopBody = (after refusedLoop).close [.free 3] refusedLoopBody ∧
      (after refusedLoop).Solves (after refusedLoop).solution.reverse := by
  have hbody : refusedLoopBody.Plain := by
    refine .app fun t ht => ?_
    rcases List.mem_pair.mp ht with rfl | rfl
    · exact .var 3
    · exact .var 0
  obtain ⟨hclose, hsolves⟩ := solution_any_order refusedLoop plainEquations_refusedLoop
  refine ⟨plainEquations_refusedLoop, hbody, by decide, ?_, (hsolves _).mpr (List.reverse_perm _)⟩
  refine (hclose _ _ hbody _).mp (.app (by decide) fun v _ => ?_)
  exact (after refusedLoop).closes_close [.free 3] (.var v)

end StaticAnalysis.Unifier
