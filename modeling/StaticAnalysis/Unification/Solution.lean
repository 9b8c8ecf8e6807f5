import StaticAnalysis.Unification.Unifier

/-!
Solutions of a unifier: for every variable a finite term that denotes its regular tree. A variable
is expanded to its representative, and so are the variables in there, until one comes up again on
its own path. That one refers back to a binder, which is put only where something refers to it.

The variables on the path have all been seen and are all different, so every path ends.
-/

namespace StaticAnalysis.Unifier

variable {ν : Type} [DecidableEq ν]

/-- Expands the variables of a term. In an application its free variables are replaced one after
the other; under a binder the body is treated as a term of its own. -/
def closeWith (expand : Var ν → Term ν) : Term ν → Term ν
  | .var v => expand v
  | .app name args =>
    (Term.app name args).freeVars.foldl (fun acc v => acc.subst v (expand v)) (.app name args)
  | .mu param body => .mu param (closeWith expand body)

/-- Puts a binder for a variable around a term that refers back to it. -/
def tie (v : Var ν) (t : Term ν) : Term ν :=
  if v.toBound ∈ t.freeVars then .mu v.name (t.subst v (.var v.toBound)) else t

/-- The variables that a path of expansions can still visit. -/
def unvisited (u : Unifier ν) (visited : List (Var ν)) : List (Var ν) :=
  u.vars.filter fun v => v ∉ visited

/-- Expanding another variable leaves fewer to visit. -/
theorem length_unvisited_lt {u : Unifier ν} {visited : List (Var ν)} {v : Var ν}
    (hv : v ∉ visited) (hf : u.find (.var v) ≠ .var v) :
    (u.unvisited (v :: visited)).length < (u.unvisited visited).length := by
  have hmem : v ∈ u.vars := by
    simp only [vars, Forest.vars, List.mem_filterMap]
    exact ⟨_, Forest.mem_terms_of_find_ne hf, rfl⟩
  have hsub : u.unvisited (v :: visited) = (u.unvisited visited).filter fun w => w ≠ v := by
    simp only [unvisited, List.filter_filter]
    congr 1
    funext w
    by_cases h : w = v <;> simp [h]
  rw [hsub]
  refine List.length_filter_lt_length_iff_exists.mpr ⟨v, ?_, by simp⟩
  simpa [unvisited] using ⟨hmem, hv⟩

/-- The term of a variable, given the variables that are being expanded around it. A variable that
is among them, or that nothing is known about, becomes a reference. -/
def expand (u : Unifier ν) (visited : List (Var ν)) (v : Var ν) : Term ν :=
  if _h : v ∈ visited ∨ u.find (.var v) = .var v then
    .var v.toBound
  else
    tie v (closeWith (fun w => u.expand (v :: visited) w) (u.find (.var v)))
termination_by (u.unvisited visited).length
decreasing_by exact length_unvisited_lt (not_or.mp _h).1 (not_or.mp _h).2

/-- The term with its variables expanded, given those that are being expanded around it. -/
def close (u : Unifier ν) (visited : List (Var ν)) (t : Term ν) : Term ν :=
  closeWith (u.expand visited) t

/-- The term of every variable seen so far. -/
def solution (u : Unifier ν) : List (Var ν × Term ν) :=
  u.vars.map fun v => (v, u.close [] (.var v))

/-- The term of every variable seen so far, with a note that it was asked for. -/
def reportSolution (u : Unifier ν) : Unifier ν × List (Var ν × Term ν) :=
  (u.note (.solved u.solution.length), u.solution)

end StaticAnalysis.Unifier
