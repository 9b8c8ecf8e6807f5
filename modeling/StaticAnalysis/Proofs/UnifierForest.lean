import Mathlib.Logic.Relation
import StaticAnalysis.Proofs.UnificationClosure

/-!
The forest of a unifier. A merge puts a variable under a term that is none, whatever their ranks
are, and looking up a representative moves terms up between merges; the rank of the term that stays
is raised where it has to be. An equation that is refused stops anywhere in between.

Main statement: after any equations, accepted or not, ranks rise from a term to its parent, so no
term is above itself, and the terms of a class that are no variables fit together.
-/

namespace StaticAnalysis

variable {ν : Type} [DecidableEq ν]

namespace Forest

variable {f : Forest ν} {s t : Term ν}

/-- The second term is the parent of the first one, which is no representative. -/
def Child (f : Forest ν) (t p : Term ν) : Prop := f.parent t = p ∧ p ≠ t

theorem Sound.rank_lt_of_transGen (hf : f.Sound) (h : Relation.TransGen f.Child s t) :
    f.rank s < f.rank t := by
  have hstep : ∀ {s t}, f.Child s t → f.rank s < f.rank t := by
    rintro s t ⟨rfl, hne⟩
    exact hf.rank_lt hne
  induction h with
  | single h => exact hstep h
  | tail _ h ih => exact Nat.lt_trans ih (hstep h)

theorem Sound.acyclic (hf : f.Sound) (t : Term ν) : ¬ Relation.TransGen f.Child t t :=
  fun h => Nat.lt_irrefl _ (hf.rank_lt_of_transGen h)

theorem Sound.parent_seen (hf : f.Sound) (ht : t ∈ f.terms) : f.parent t ∈ f.terms := by
  by_cases h : f.parent t = t
  · rwa [h]
  · exact hf.parent_mem h

end Forest

namespace Unifier

variable {u : Unifier ν} {s t r : Term ν}

/-- Every term of the class that is no variable is an application of one constructor to a given
number of arguments. -/
def Applied (u : Unifier ν) (r : Term ν) (name : String) (arity : Nat) : Prop :=
  ∀ t, u.find t = u.find r → t.isVar = false → ∃ args, t = .app name args ∧ args.length = arity

/-- One term of the class is no variable, and it is a given binder. -/
def SoleBinder (u : Unifier ν) (r : Term ν) (param : ν) (body : Term ν) : Prop :=
  u.find (.mu param body) = u.find r ∧
    ∀ t, u.find t = u.find r → t.isVar = false → t = .mu param body

/-- What holds of the forest of a unifier. -/
structure WellFormed (u : Unifier ν) : Prop where
  /-- Parents have been seen themselves. -/
  parent_seen : ∀ t ∈ u.forest.terms, u.forest.parent t ∈ u.forest.terms
  /-- Ranks rise from a term to its parent. -/
  rank_lt : ∀ t, u.forest.parent t ≠ t → u.forest.rank t < u.forest.rank (u.forest.parent t)
  /-- No term is above itself. -/
  acyclic : ∀ t, ¬ Relation.TransGen u.forest.Child t t
  /-- A class is represented by a variable only if there is nothing else in it. -/
  isVar_find : ∀ t r, u.find t = u.find r → t.isVar = false → (u.find r).isVar = false
  /-- What is no variable in a class is of one kind. -/
  kind : ∀ r, (∃ name arity, u.Applied r name arity) ∨ ∃ param body, u.SoleBinder r param body

theorem Sound.eq_or_alike (hu : u.Sound) (h : u.find t = u.find r) (ht : t.isVar = false) :
    t = u.find r ∨ t.Alike (u.find r) := by
  rw [← h]
  refine (hu.shape t).resolve_left ?_
  simp [ht]

theorem Sound.isVar_find (hu : u.Sound) (h : u.find t = u.find r) (ht : t.isVar = false) :
    (u.find r).isVar = false := by
  rcases hu.eq_or_alike h ht with heq | halike
  · rwa [← heq]
  · exact halike.isVar

/-- The representative decides of which kind a class is. -/
theorem Sound.kind (hu : u.Sound) (r : Term ν) :
    (∃ name arity, u.Applied r name arity) ∨ ∃ param body, u.SoleBinder r param body := by
  have hmember : ∀ t, u.find t = u.find r → t.isVar = false →
      t = u.find r ∨ t.Alike (u.find r) := fun t => hu.eq_or_alike
  have hfixed := hu.find_find r
  generalize hrep : u.find r = rep at hmember hfixed
  cases rep with
  | var x =>
    -- nothing but variables can be in a class that a variable represents
    refine Or.inl ⟨"", 0, fun t ht hvar => ?_⟩
    have hrepVar := hu.isVar_find ht hvar
    rw [hrep] at hrepVar
    cases hrepVar
  | app name ss =>
    refine Or.inl ⟨name, ss.length, fun t ht hvar => ?_⟩
    rcases hmember t (ht.trans hrep) hvar with rfl | ⟨name', ts, ss', rfl, hss, hlen⟩
    · exact ⟨ss, rfl, rfl⟩
    · obtain ⟨rfl, rfl⟩ := Term.app.inj hss
      exact ⟨ts, rfl, hlen⟩
  | mu param body =>
    refine Or.inr ⟨param, body, hfixed.trans hrep.symm, fun t ht hvar => ?_⟩
    rcases hmember t (ht.trans hrep) hvar with rfl | ⟨name, ts, ss, -, hss, -⟩
    · rfl
    · cases hss

/-- The forest is well-formed after any equations, whether they were accepted or not. -/
theorem wellFormed_after (eqs : List (Term ν × Term ν)) : (after eqs).WellFormed where
  parent_seen _ := (sound_after eqs).forest.parent_seen
  rank_lt _ := (sound_after eqs).forest.rank_lt
  acyclic := (sound_after eqs).forest.acyclic
  isVar_find _ _ := (sound_after eqs).isVar_find
  kind := (sound_after eqs).kind

end Unifier

end StaticAnalysis
