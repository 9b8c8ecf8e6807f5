import Mathlib.Order.WellFounded
import StaticAnalysis.Proofs.UnificationClosure
import StaticAnalysis.Unification.Solution

/-!
Everything a unifier does ends, although its equations may be cyclic. The definitions that run carry
bounds: on the length of a chain of parents, on the depth of nested equations, on the variables that
a path of expansions can visit. The relations below say what is done without any bound, so each
derivation is a finite record of the steps or nested calls that lead to a result.

* Chains of parents end because ranks rise along them.
* Nested equations end because every descent to arguments merges two classes of known terms.
* Expansions end because a path visits a variable once, and between two visits terms get smaller.
-/

namespace StaticAnalysis

variable {ν : Type} [DecidableEq ν]

namespace Term

omit [DecidableEq ν] in
theorem size_pos (t : Term ν) : 0 < t.size := by
  cases t <;> simp [size]

/-- An application with a free variable is larger than that variable. -/
theorem one_lt_size_of_mem_freeVars {name : String} {args : List (Term ν)} {v : Var ν}
    (hv : v ∈ (app name args).freeVars) : 1 < (app name args).size := by
  cases args with
  | nil => simp [freeVars, occurrences, occurrencesAll] at hv
  | cons t ts =>
    have hpos := t.size_pos
    simp only [size, sizeAll]
    omega

end Term

/-! ### Chains of parents -/

namespace Forest

variable {f : Forest ν} {r t : Term ν}

/-- Following parents from one term stops at another one. -/
inductive Leads (f : Forest ν) : Term ν → Term ν → Prop where
  | stop {t : Term ν} (h : f.parent t = t) : Leads f t t
  | up {t r : Term ν} (h : f.parent t ≠ t) (hr : Leads f (f.parent t) r) : Leads f t r

theorem Sound.leads_find (hf : f.Sound) (t : Term ν) : f.Leads t (f.find t) := by
  induction t using hf.parent_induction with
  | root t h =>
    rw [find_of_parent_eq h]
    exact .stop h
  | child t h ih =>
    rw [hf.find_parent] at ih
    exact .up h ih

theorem Leads.find_eq (hf : f.Sound) (h : f.Leads t r) : f.find t = r := by
  induction h with
  | stop h => exact find_of_parent_eq h
  | up _ _ ih => rw [← hf.find_parent, ih]

end Forest

namespace Unifier

/-! ### Nested equations -/

/-- The representatives of both sides of an equation, which count as seen from now on. -/
def roots (u : Unifier ν) (lhs rhs : Term ν) : Unifier ν × Term ν × Term ν :=
  let (v, l) := u.root lhs
  let (w, r) := v.root rhs
  (w, l, r)

/-- Following parents stops on both sides of an equation, first on the left, then on the right with
what the left side has changed. -/
structure LooksUp (u : Unifier ν) (lhs rhs : Term ν) (v : Unifier ν) (l r : Term ν) : Prop where
  left : u.forest.Leads lhs l
  right : (u.root lhs).1.forest.Leads rhs r
  roots_eq : u.roots lhs rhs = (v, l, r)

mutual

/-- Adding an equation ends with a result. There is no bound on the depth of nested equations. -/
inductive Unifies : Unifier ν → Term ν → Term ν → Unifier ν × Verdict ν → Prop where
  /-- The sides have one representative. -/
  | same {u v : Unifier ν} {lhs rhs r : Term ν} (h : u.LooksUp lhs rhs v r r) :
      Unifies u lhs rhs (v, .unified)
  /-- The classes are merged first, and the equations between the arguments come next. -/
  | decompose {u v : Unifier ν} {lhs rhs : Term ν} {name : String} {ss ts : List (Term ν)}
      {result : Unifier ν × Verdict ν}
      (h : u.LooksUp lhs rhs v (.app name ss) (.app name ts)) (hne : ss ≠ ts)
      (hlen : ss.length = ts.length)
      (hargs : UnifiesEach (ss.zip ts) (v.union (.app name ss) (.app name ts)) result) :
      Unifies u lhs rhs result
  /-- The representatives are applications of different constructors or arities. -/
  | constructorClash {u v : Unifier ν} {lhs rhs : Term ν} {f g : String} {ss ts : List (Term ν)}
      (h : u.LooksUp lhs rhs v (.app f ss) (.app g ts)) (hdiff : f = g → ss.length ≠ ts.length) :
      Unifies u lhs rhs (v.note (.constructorClash ⟨.app f ss, .app g ts⟩),
        .clash ⟨.app f ss, .app g ts⟩)
  /-- One of the representatives is a variable. -/
  | absorb {u v : Unifier ν} {lhs rhs l r : Term ν} (h : u.LooksUp lhs rhs v l r)
      (hne : l ≠ r) (hvar : l.isVar = true ∨ r.isVar = true) :
      Unifies u lhs rhs (v.union l r, .unified)
  /-- The representatives are different binders, or a binder and an application. -/
  | shapeClash {u v : Unifier ν} {lhs rhs l r : Term ν} (h : u.LooksUp lhs rhs v l r)
      (hne : l ≠ r) (hl : l.isVar = false) (hr : r.isVar = false)
      (happ : ∀ f ss g ts, l = .app f ss → r ≠ .app g ts) :
      Unifies u lhs rhs (v.note (.shapeClash ⟨l, r⟩), .clash ⟨l, r⟩)

/-- Adding equations one after the other, up to the first that clashes, ends with a result. -/
inductive UnifiesEach : List (Term ν × Term ν) → Unifier ν → Unifier ν × Verdict ν → Prop where
  | nil {u : Unifier ν} : UnifiesEach [] u (u, .unified)
  | next {u v : Unifier ν} {s t : Term ν} {rest : List (Term ν × Term ν)}
      {result : Unifier ν × Verdict ν} (h : Unifies u s t (v, .unified))
      (hrest : UnifiesEach rest v result) : UnifiesEach ((s, t) :: rest) u result
  | stop {u v : Unifier ν} {s t : Term ν} {rest : List (Term ν × Term ν)} {c : Clash ν}
      (h : Unifies u s t (v, .clash c)) : UnifiesEach ((s, t) :: rest) u (v, .clash c)

end

variable {u v : Unifier ν} {lhs rhs l r : Term ν}

theorem Sound.exists_looksUp (hu : u.Sound) (lhs rhs : Term ν) :
    ∃ v l r, u.LooksUp lhs rhs v l r := by
  obtain ⟨hv, -, -, hl⟩ := hu.root lhs
  obtain ⟨-, -, -, hr⟩ := hv.root rhs
  refine ⟨((u.root lhs).1.root rhs).1, u.find lhs, (u.root lhs).1.find rhs, ?_, ?_, ?_⟩
  · exact hu.forest.leads_find lhs
  · exact hv.forest.leads_find rhs
  · rw [← hl, ← hr]
    rfl

/-- Representatives that are alike can be merged once they have been looked up. -/
theorem LooksUp.sound_union (h : u.LooksUp lhs rhs v l r) (hu : u.Sound) (hne : l ≠ r)
    (halike : l.Alike r) : (v.union l r).Sound := by
  obtain ⟨hu₁, -, hfind₁, -⟩ := hu.root lhs
  obtain ⟨hv, hfind, hmeml, hmemr, -⟩ := hu.root_root lhs rhs
  obtain rfl : u.find lhs = l := h.left.find_eq hu.forest
  obtain rfl : u.find rhs = r := (hfind₁ rhs).symm.trans (h.right.find_eq hu₁.forest)
  obtain rfl : _ = v := congrArg Prod.fst h.roots_eq
  exact (hu.joins_union hv hfind hmeml hmemr hne fun _ _ => halike).sound

/-- What is done once the representatives have been looked up. -/
theorem unifyWithin_of_roots (h : u.roots lhs rhs = (v, l, r)) (depth : Nat) :
    u.unifyWithin (depth + 1) lhs rhs =
      if l = r then (v, .unified)
      else
        match l, r with
        | .app f ss, .app g ts =>
          if f = g ∧ ss.length = ts.length then
            unifyEach (unifyWithin depth) (ss.zip ts) (v.union l r)
          else
            (v.note (.constructorClash ⟨l, r⟩), .clash ⟨l, r⟩)
        | .var _, _ | _, .var _ => (v.union l r, .unified)
        | _, _ => (v.note (.shapeClash ⟨l, r⟩), .clash ⟨l, r⟩) := by
  cases h
  rw [unifyWithin]
  rfl

theorem unifiesEach_unifyEach {unify : Unifier ν → Term ν → Term ν → Unifier ν × Verdict ν}
    (hsound : ∀ {u lhs rhs}, Sound u → Sound (unify u lhs rhs).1)
    (h : ∀ {u lhs rhs}, Sound u → (unify u lhs rhs).2 ≠ .exhausted →
      Unifies u lhs rhs (unify u lhs rhs)) :
    ∀ (eqs : List (Term ν × Term ν)) {u : Unifier ν}, u.Sound →
      (unifyEach unify eqs u).2 ≠ .exhausted → UnifiesEach eqs u (unifyEach unify eqs u)
  | [], _, _, _ => .nil
  | (s, t) :: rest, u, hu, hdone => by
      have hfirst : (unify u s t).2 ≠ .exhausted → Unifies u s t (unify u s t) := h hu
      have hnext : (unify u s t).1.Sound := hsound hu
      rw [unifyEach] at hdone ⊢
      generalize unify u s t = result at hfirst hnext hdone ⊢
      obtain ⟨v, _ | c | _⟩ := result
      · exact .next (hfirst (by simp)) (unifiesEach_unifyEach hsound h rest hnext hdone)
      · exact .stop (hfirst (by simp))
      · exact absurd rfl hdone

/-- An equation that was worked through within a bound is worked through without one. -/
theorem unifies_unifyWithin : ∀ (depth : Nat) {u : Unifier ν} {lhs rhs : Term ν}, u.Sound →
    (u.unifyWithin depth lhs rhs).2 ≠ .exhausted → Unifies u lhs rhs (u.unifyWithin depth lhs rhs)
  | 0, _, _, _, _, hdone => absurd rfl hdone
  | depth + 1, u, lhs, rhs, hu, hdone => by
      have hsound : ∀ {v : Unifier ν} {s t}, v.Sound → (v.unifyWithin depth s t).1.Sound :=
        fun hv => (unifyWithin_extends depth hv).sound
      obtain ⟨v, l, r, hroots⟩ := hu.exists_looksUp lhs rhs
      rw [unifyWithin_of_roots hroots.roots_eq] at hdone ⊢
      by_cases hne : l = r
      · subst hne
        rw [if_pos rfl]
        exact .same hroots
      · rw [if_neg hne] at hdone ⊢
        split at hdone
        · next f ss g ts =>
          split at hdone
          · next hsame =>
            obtain ⟨rfl, hlen⟩ := hsame
            rw [if_pos ⟨rfl, hlen⟩]
            -- the arguments are worked on after the merge, so that is where soundness is needed
            have hjoined := hroots.sound_union hu hne (Term.alike_app.mpr ⟨rfl, hlen⟩)
            exact .decompose hroots (fun h => hne (congrArg _ h)) hlen
              (unifiesEach_unifyEach hsound (unifies_unifyWithin depth) _ hjoined hdone)
          · next hdiff =>
            rw [if_neg hdiff]
            exact .constructorClash hroots fun hname hlen => hdiff ⟨hname, hlen⟩
        · exact .absorb hroots hne (Or.inl rfl)
        · exact .absorb hroots hne (Or.inr rfl)
        · next hl hr happ =>
          exact .shapeClash hroots hne (Term.isVar_eq_false hl) (Term.isVar_eq_false hr) happ

/-- Nothing is worked through within depth zero, so results are looked for from depth one on. -/
theorem exists_depth {result : Unifier ν × Verdict ν} (n : Nat)
    (h : ∀ depth, n ≤ depth → u.unifyWithin (depth + 1) lhs rhs = result) :
    ∃ enough, ∀ depth, enough ≤ depth → u.unifyWithin depth lhs rhs = result := by
  refine ⟨n + 1, fun depth hle => ?_⟩
  obtain ⟨depth, rfl⟩ := Nat.exists_eq_add_of_le' (show 1 ≤ depth by omega)
  exact h depth (by omega)

mutual

/-- An equation that is worked through is worked through within every depth from some depth on. -/
theorem Unifies.unifyWithin_eq {u : Unifier ν} {lhs rhs : Term ν} {result : Unifier ν × Verdict ν} :
    Unifies u lhs rhs result →
      ∃ enough, ∀ depth, enough ≤ depth → u.unifyWithin depth lhs rhs = result
  | .same h => exists_depth 0 fun depth _ => by rw [unifyWithin_of_roots h.roots_eq, if_pos rfl]
  | .decompose h hne hlen hargs => by
      obtain ⟨n, hn⟩ := hargs.unifyEach_eq
      refine exists_depth n fun depth hle => ?_
      rw [unifyWithin_of_roots h.roots_eq, if_neg fun heq => hne (Term.app.inj heq).2,
        ← hn depth hle]
      exact if_pos ⟨rfl, hlen⟩
  | .constructorClash h hdiff => by
      refine exists_depth 0 fun depth _ => ?_
      rw [unifyWithin_of_roots h.roots_eq, if_neg]
      · exact if_neg fun hsame => hdiff hsame.1 hsame.2
      · intro heq
        obtain ⟨rfl, rfl⟩ := Term.app.inj heq
        exact hdiff rfl rfl
  | .absorb h hne hvar => by
      refine exists_depth 0 fun depth _ => ?_
      rw [unifyWithin_of_roots h.roots_eq, if_neg hne]
      split
      · -- two applications
        simp [Term.isVar] at hvar
      · -- a variable on one side
        rfl
      · rfl
      · next hl hr _ => simp [Term.isVar_eq_false hl, Term.isVar_eq_false hr] at hvar
  | .shapeClash h hne hl hr happ => by
      refine exists_depth 0 fun depth _ => ?_
      rw [unifyWithin_of_roots h.roots_eq, if_neg hne]
      split
      · -- two applications
        exact absurd rfl (happ _ _ _ _ rfl)
      · cases hl
      · cases hr
      · rfl

theorem UnifiesEach.unifyEach_eq {u : Unifier ν} {eqs : List (Term ν × Term ν)}
    {result : Unifier ν × Verdict ν} : UnifiesEach eqs u result →
      ∃ enough, ∀ depth, enough ≤ depth → unifyEach (unifyWithin depth) eqs u = result
  | .nil => ⟨0, fun _ _ => rfl⟩
  | .next h hrest => by
      obtain ⟨n, hn⟩ := h.unifyWithin_eq
      obtain ⟨m, hm⟩ := hrest.unifyEach_eq
      refine ⟨max n m, fun depth hle => ?_⟩
      rw [unifyEach, hn depth (by omega)]
      exact hm depth (by omega)
  | .stop h => by
      obtain ⟨n, hn⟩ := h.unifyWithin_eq
      refine ⟨n, fun depth hle => ?_⟩
      rw [unifyEach, hn depth hle]

end

/-- Working on an equation ends, and it ends with the result of `unify` only. -/
theorem Sound.unifies_iff (hu : u.Sound) {result : Unifier ν × Verdict ν} :
    Unifies u lhs rhs result ↔ u.unify lhs rhs = result := by
  have hunify : Unifies u lhs rhs (u.unify lhs rhs) :=
    unifies_unifyWithin _ hu (unify_ne_exhausted hu lhs rhs)
  constructor
  · intro h
    obtain ⟨n, hn⟩ := hunify.unifyWithin_eq
    obtain ⟨m, hm⟩ := h.unifyWithin_eq
    exact (hn (max n m) (by omega)).symm.trans (hm (max n m) (by omega))
  · rintro rfl
    exact hunify

/-! ### Expansions -/

/-- Closing the second term, with the variables that are being expanded around it, calls for closing
the first one. The free variables of an application may be taken in any order. -/
inductive Calls (u : Unifier ν) : List (Var ν) × Term ν → List (Var ν) × Term ν → Prop where
  | expansion {visited : List (Var ν)} {v : Var ν} (hv : v ∉ visited)
      (hfind : u.find (.var v) ≠ .var v) :
      Calls u (v :: visited, u.find (.var v)) (visited, .var v)
  | freeVar {visited : List (Var ν)} {name : String} {args : List (Term ν)} {v : Var ν}
      (hv : v ∈ (Term.app name args).freeVars) :
      Calls u (visited, .var v) (visited, .app name args)
  | body {visited : List (Var ν)} {param : ν} {body : Term ν} :
      Calls u (visited, body) (visited, .mu param body)

/-- Closing a term ends with a result. The free variables of an application are replaced one after
the other, in any order. -/
inductive Closes (u : Unifier ν) : List (Var ν) → Term ν → Term ν → Prop where
  | reference {visited : List (Var ν)} {v : Var ν} (h : v ∈ visited ∨ u.find (.var v) = .var v) :
      Closes u visited (.var v) (.var v.toBound)
  | expansion {visited : List (Var ν)} {v : Var ν} {s : Term ν} (hv : v ∉ visited)
      (hfind : u.find (.var v) ≠ .var v) (h : Closes u (v :: visited) (u.find (.var v)) s) :
      Closes u visited (.var v) (tie v s)
  | app {visited : List (Var ν)} {name : String} {args : List (Term ν)} {order : List (Var ν)}
      {θ : Var ν → Term ν} (horder : order.Perm (Term.app name args).freeVars)
      (h : ∀ v ∈ order, Closes u visited (.var v) (θ v)) :
      Closes u visited (.app name args)
        (order.foldl (fun acc v => acc.subst v (θ v)) (.app name args))
  | mu {visited : List (Var ν)} {param : ν} {body s : Term ν} (h : Closes u visited body s) :
      Closes u visited (.mu param body) (.mu param s)

/-- No chain of nested calls is infinite: a call leaves fewer variables to visit, or as many and a
smaller term. -/
theorem wellFounded_calls (u : Unifier ν) : WellFounded u.Calls := by
  let measure : List (Var ν) × Term ν → Nat × Nat := fun p => ((u.unvisited p.1).length, p.2.size)
  have hlex : WellFounded (Prod.Lex (· < · : Nat → Nat → Prop) (· < · : Nat → Nat → Prop)) :=
    WellFounded.prod_lex Nat.lt_wfRel.wf Nat.lt_wfRel.wf
  refine Subrelation.wf (fun {p q} hcall => ?_) (InvImage.wf measure hlex)
  cases hcall with
  | expansion hv hfind => exact .left _ _ (length_unvisited_lt hv hfind)
  | freeVar hv => exact .right _ (Term.one_lt_size_of_mem_freeVars hv)
  | body => exact .right _ (Nat.lt_succ_self _)

/-- Every call ends with the term that `close` gives. -/
theorem closes_close (u : Unifier ν) (visited : List (Var ν)) (t : Term ν) :
    u.Closes visited t (u.close visited t) := by
  -- the induction is along the nested calls
  induction hp : (visited, t) using u.wellFounded_calls.induction generalizing visited t with
  | h p ih =>
    subst hp
    cases t with
    | var v =>
      rw [close, closeWith, expand]
      split
      · next h => exact .reference h
      · next h =>
        obtain ⟨hv, hfind⟩ := not_or.mp h
        exact .expansion hv hfind (ih _ (.expansion hv hfind) _ _ rfl)
    | app name args => exact .app (.refl _) fun v hv => ih _ (.freeVar hv) _ _ rfl
    | mu param body => exact .mu (ih _ .body _ _ rfl)

/-- The solution has one entry for every variable. -/
theorem map_fst_solution (u : Unifier ν) : u.solution.map Prod.fst = u.vars := by
  rw [solution, List.map_map]
  exact List.map_id _

theorem closes_of_mem_solution {e : Var ν × Term ν} (he : e ∈ u.solution) :
    u.Closes [] (.var e.1) e.2 := by
  obtain ⟨v, -, rfl⟩ := List.mem_map.mp he
  exact u.closes_close [] (.var v)

/-! ### All of it -/

/-- Everything that is asked of a unifier ends. -/
structure Terminates (u : Unifier ν) : Prop where
  /-- Following parents stops, and it stops at the representative only. -/
  find : ∀ t r, u.forest.Leads t r ↔ u.find t = r
  /-- So it does where terms are put directly under the representative on the way. -/
  root : ∀ t, u.forest.Leads t (u.root t).2 ∧ (u.root t).1.find (u.root t).2 = (u.root t).2
  /-- Working on an equation ends, and it ends with one result only. -/
  unify : ∀ lhs rhs, (u.unify lhs rhs).2 ≠ .exhausted ∧
    ∀ result, Unifies u lhs rhs result ↔ u.unify lhs rhs = result
  /-- Closing a term ends, in whichever order free variables are taken. -/
  calls : WellFounded u.Calls
  /-- It ends with a result. -/
  close : ∀ visited t, u.Closes visited t (u.close visited t)
  /-- The solution has an entry for every variable. -/
  solution : u.solution.map Prod.fst = u.vars ∧ ∀ e ∈ u.solution, u.Closes [] (.var e.1) e.2

/-- After any equations between any terms, accepted or not, everything that is asked of the unifier
ends. -/
theorem terminates_after (eqs : List (Term ν × Term ν)) : (after eqs).Terminates where
  find t r := by
    have hu := (sound_after eqs).forest
    exact ⟨fun h => h.find_eq hu, fun h => h ▸ hu.leads_find t⟩
  root t := by
    have hu := sound_after eqs
    obtain ⟨-, -, hfind, hroot⟩ := hu.root t
    rw [hfind, hroot]
    exact ⟨hu.forest.leads_find t, hu.find_find t⟩
  unify lhs rhs := ⟨unify_ne_exhausted (sound_after eqs) lhs rhs,
    fun _ => (sound_after eqs).unifies_iff⟩
  calls := (after eqs).wellFounded_calls
  close := (after eqs).closes_close
  solution := ⟨map_fst_solution _, fun _ => closes_of_mem_solution⟩

end Unifier

end StaticAnalysis
