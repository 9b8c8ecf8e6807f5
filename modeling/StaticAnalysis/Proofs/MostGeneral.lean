import StaticAnalysis.Proofs.Expansion
import StaticAnalysis.Proofs.UnificationClosure

/-!
The solution of a unifier is a most general one over finite and infinite trees. Equality of values
is an equivalence that plain applications pass on to their arguments, so every valuation that
satisfies the equations respects the classes of the unifier. The classes themselves give rise to one
such valuation, in which unsolved unknowns stand for themselves, and the solution denotes it.
-/

namespace StaticAnalysis.Unifier

variable {ν β : Type} [DecidableEq ν]

/-- A valuation of the names satisfies all equations. -/
def Satisfies (ρ : ν → Tree β) (eqs : List (Term ν × Term ν)) : Prop :=
  ∀ p ∈ eqs, p.1.unfolding.graft (fun v => ρ v.name) = p.2.unfolding.graft fun v => ρ v.name

/-- All equations are between plain terms. -/
def PlainEquations (eqs : List (Term ν × Term ν)) : Prop := ∀ p ∈ eqs, p.1.Plain ∧ p.2.Plain

/-- The term of a variable in the solution; a reference if there is none. -/
def answer (u : Unifier ν) (v : Var ν) : Term ν := (u.solution.lookup v).getD (.var v.toBound)

variable {u : Unifier ν} {eqs : List (Term ν × Term ν)} {ρ : ν → Tree β}

/-! ### Values respect the classes -/

theorem decomposing_value (ρ : ν → Tree β) :
    Term.Decomposing fun s t : Term ν => s.value ρ = t.value ρ where
  equiv := ⟨fun _ => rfl, Eq.symm, Eq.trans⟩
  args := by
    intro name ss ts _ h
    rw [Term.value_app, Term.value_app] at h
    have hvalues : List.Forall₂ Eq (ss.map (Term.value ρ)) (ts.map (Term.value ρ)) := by
      rw [List.forall₂_eq_eq_eq]
      exact (Tree.node_inj h).2
    rwa [List.forall₂_map_left_iff, List.forall₂_map_right_iff] at hvalues

omit [DecidableEq ν] in
theorem decomposing_plain : Term.Decomposing fun s t : Term ν => s = t ∨ s.Plain ∧ t.Plain where
  equiv := by
    refine ⟨fun _ => Or.inl rfl, ?_, ?_⟩
    · -- symmetric
      rintro s t (rfl | ⟨hs, ht⟩)
      · exact Or.inl rfl
      · exact Or.inr ⟨ht, hs⟩
    · -- transitive
      rintro r s t (rfl | ⟨hr, hs⟩) (rfl | ⟨hs', ht⟩)
      · exact Or.inl rfl
      · exact Or.inr ⟨hs', ht⟩
      · exact Or.inr ⟨hr, hs⟩
      · exact Or.inr ⟨hr, ht⟩
  args := by
    rintro name ss ts hlen (h | ⟨hs, ht⟩)
    · -- equal applications have equal arguments
      obtain ⟨-, rfl⟩ := Term.app.inj h
      exact List.forall₂_same.mpr fun _ _ => Or.inl rfl
    · -- the arguments of plain applications are plain
      cases hs with
      | app hs =>
        cases ht with
        | app ht =>
          refine List.forall₂_iff_zip.mpr ⟨hlen, fun {s t} hmem => Or.inr ?_⟩
          exact ⟨hs s (List.of_mem_zip hmem).1, ht t (List.of_mem_zip hmem).2⟩

/-- Plain terms of equal value do not conflict. -/
theorem not_conflict_of_value_eq {s t : Term ν} (hplain : s = t ∨ s.Plain ∧ t.Plain)
    (h : s.value ρ = t.value ρ) : ¬ s.Conflict t := by
  rintro ⟨hne, hs, ht, halike⟩
  obtain ⟨hps, hpt⟩ := hplain.resolve_left hne
  cases hps with
  | var => cases hs
  | app =>
    cases hpt with
    | var => cases ht
    | app =>
      rw [Term.value_app, Term.value_app] at h
      obtain ⟨hname, hargs⟩ := Tree.node_inj h
      refine halike (Term.alike_app.mpr ⟨hname, ?_⟩)
      simpa using congrArg List.length hargs

theorem Satisfies.value_eq (hρ : Satisfies ρ eqs) (hplain : PlainEquations eqs) :
    ∀ p ∈ eqs, p.1.value ρ = p.2.value ρ := by
  intro p hp
  have h := hρ p hp
  rw [(hplain p hp).1.unfolding_eq_tree, (hplain p hp).2.unfolding_eq_tree] at h
  exact h

/-- A refused equation cannot be satisfied together with those before it. -/
theorem not_satisfies_of_refused {l r : Term ν} (hplain : PlainEquations (eqs ++ [(l, r)]))
    (hrefused : ((after eqs).unify l r).2 ≠ .unified) : ¬ Satisfies ρ (eqs ++ [(l, r)]) := by
  intro hρ
  have hlast : (l, r) ∈ eqs ++ [(l, r)] := by simp
  have hclash : ∀ {R : Term ν → Term ν → Prop}, Term.Decomposing R →
      (∀ p ∈ eqs ++ [(l, r)], R p.1 p.2) → ∀ c, ((after eqs).unify l r).2 = .clash c →
      R c.left c.right ∧ c.left.Conflict c.right := by
    intro R hR h
    have hbefore := respects_after hR fun p hp => h p (List.mem_append_left _ hp)
    exact (unifyWithin_respects hR _ hbefore (h (l, r) hlast)).2
  cases hverdict : ((after eqs).unify l r).2 with
  | unified => exact hrefused hverdict
  | exhausted =>
    have hbefore := respects_after decomposing_plain
      fun p hp => Or.inr (hplain p (List.mem_append_left _ hp))
    exact unify_ne_exhausted hbefore.1 l r hverdict
  | clash c =>
    have hvalue := hclash (decomposing_value ρ) (hρ.value_eq hplain) c hverdict
    have hboth := hclash decomposing_plain (fun p hp => Or.inr (hplain p hp)) c hverdict
    exact not_conflict_of_value_eq hboth.1 hvalue.1 hvalue.2

/-! ### The valuation of the classes -/

/-- The tree of a class, with references for unsolved unknowns. -/
def classTree (u : Unifier ν) : Term ν → Tree (Var ν) :=
  Tree.unfold fun t =>
    match u.find t with
    | .var v => .leaf v.toBound
    | .app name args => .node name args
    | .mu param _ => .leaf (.bound param)

theorem classTree_eq_of_same {s t : Term ν} (h : u.Same s t) : u.classTree s = u.classTree t := by
  refine Tree.unfold_congr ?_
  rw [show u.find s = u.find t from h]

theorem classTree_app (hu : u.Sound) (hclosed : Term.Decomposing u.Same) (name : String)
    (args : List (Term ν)) : u.classTree (.app name args) = .node name (args.map u.classTree) := by
  obtain ⟨ss, hfind, hlen⟩ := hu.find_app name args
  have hargs : List.Forall₂ u.Same args ss := hclosed.args hlen (hfind ▸ hu.same_find _)
  have hbelow : args.map u.classTree = ss.map u.classTree := by
    rw [← List.forall₂_eq_eq_eq, List.forall₂_map_left_iff, List.forall₂_map_right_iff]
    exact hargs.imp fun _ _ => classTree_eq_of_same
  rw [hbelow]
  refine Tree.unfold_eq_node ?_
  rw [hfind]

/-- The trees of the classes are the values of the plain terms in them. -/
theorem value_classTree (hu : u.Sound) (hclosed : Term.Decomposing u.Same) {t : Term ν}
    (ht : t.Plain) : t.value (fun x => u.classTree (.var (.free x))) = u.classTree t := by
  induction ht with
  | var x => exact Term.value_var ..
  | app _ ih =>
    rw [Term.value_app, classTree_app hu hclosed]
    exact congrArg _ (List.map_congr_left ih)

theorem classTree_of_unsolved {x : ν} (h : u.Unsolved x) :
    u.classTree (.var (.free x)) = .leaf (.bound x) := by
  refine Tree.unfold_eq_leaf ?_
  rw [show u.find (.var (.free x)) = .var (.free x) from h]
  rfl

/-- An expansion at the top is the tree of the class. -/
theorem tree_expand (hu : u.Regular) (hclosed : Term.Decomposing u.Same) (x : ν) :
    (u.expand [] (.free x)).tree = u.classTree (.var (.free x)) := by
  have hvalue := value_expand hu (ρ := fun x => u.classTree (.var (.free x)))
    (fun x => by
      rw [value_classTree hu.sound hclosed (hu.plain x)]
      exact classTree_eq_of_same (hu.sound.same_find _)) [] x
  have hrefers := refers_expand hu [] x
  rw [← hvalue, Term.value, hrefers.guarded.graft_congr fun v hv => ?_, Tree.graft_leaf_self]
  obtain ⟨y, rfl, hy⟩ := hrefers.bound v hv
  exact classTree_of_unsolved (hy.resolve_left List.not_mem_nil)

/-! ### The solution -/

theorem lookup_map_self {α κ : Type} [DecidableEq κ] (f : κ → α) (k : κ) : ∀ ks : List κ,
    (ks.map fun i => (i, f i)).lookup k = if k ∈ ks then some (f k) else none
  | [] => rfl
  | i :: ks => by
      rw [List.map_cons, List.lookup_cons, lookup_map_self f k ks]
      by_cases h : k = i
      · simp [h]
      · rw [beq_false_of_ne h]
        simp [h]

/-- Unknowns without an entry in the solution are unsolved. -/
theorem answer_eq_expand (u : Unifier ν) (v : Var ν) : u.answer v = u.expand [] v := by
  have hlookup : u.solution.lookup v = if v ∈ u.vars then some (u.expand [] v) else none :=
    lookup_map_self (u.expand []) v u.vars
  rw [answer, hlookup]
  split
  · rfl
  · next hv =>
    have hfind : u.find (.var v) = .var v := by
      refine by_contra fun h => hv ?_
      exact List.mem_filterMap.mpr ⟨_, Forest.mem_terms_of_find_ne h, rfl⟩
    rw [expand, dif_pos (Or.inr hfind)]
    rfl

/-- Equations that are all accepted are worked through one after the other. -/
theorem unifyEach_eq_after : ∀ eqs : List (Term ν × Term ν),
    (∀ before l r rest, eqs = before ++ (l, r) :: rest →
      ((after before).unify l r).2 = .unified) →
    unifyEach unify eqs .empty = (after eqs, .unified) := by
  intro eqs
  induction eqs using List.reverseRecOn with
  | nil => exact fun _ => rfl
  | append_singleton eqs p ih =>
    intro h
    have hbefore := ih fun before l r rest heq =>
      h before l r (rest ++ [p]) (by rw [heq, List.append_assoc]; rfl)
    rw [unifyEach_concat hbefore p.1 p.2, after_concat]
    exact Prod.ext rfl (h eqs p.1 p.2 [] rfl)

theorem regular_after (hplain : PlainEquations eqs) : (after eqs).Regular := by
  have hrespects := respects_after decomposing_plain fun p hp => Or.inr (hplain p hp)
  refine ⟨hrespects.1, fun x => ?_⟩
  rcases hrespects.2 _ _ (hrespects.1.same_find (.var (.free x))) with h | h
  · exact h ▸ .var x
  · exact h.2

/-- A plain term with the solution put in place of its variables unfolds to the tree of its
class. -/
theorem unfolding_replace_answer (hu : u.Regular) (hclosed : Term.Decomposing u.Same) {t : Term ν}
    (ht : t.Plain) : (t.replace u.answer).unfolding = u.classTree t := by
  have hrefers := refers_replace ht (refers_expand hu [])
  rw [show u.answer = u.expand [] from funext (answer_eq_expand u)]
  rw [hrefers.apart.unfolding_eq_tree, ← Tree.graft_leaf_self (Term.tree _), ht.graft_replace,
    ← value_classTree hu.sound hclosed ht]
  refine ht.guarded.graft_congr fun v hv => ?_
  obtain ⟨x, rfl⟩ := ht.of_mem_occurrences hv
  rw [Tree.graft_leaf_self]
  exact tree_expand hu hclosed x

/-- Every valuation that satisfies the equations gives a variable the value of its entry in the
solution. -/
theorem eq_unfolding_of_satisfies (hplain : PlainEquations eqs) (hρ : Satisfies ρ eqs)
    {e : Var ν × Term ν} (he : e ∈ (after eqs).solution) :
    ρ e.1.name = e.2.unfolding.graft fun w => ρ w.name := by
  have hu := regular_after hplain
  obtain ⟨v, -, rfl⟩ := List.mem_map.mp he
  show ρ v.name = ((after eqs).expand [] v).unfolding.graft _
  cases v with
  | free x =>
    have hrespects := respects_after (decomposing_value ρ) (hρ.value_eq hplain)
    rw [(refers_expand hu [] x).apart.unfolding_eq_tree]
    refine (value_expand hu (fun y => ?_) [] x).symm
    rw [← hrespects.2 _ _ (hrespects.1.same_find (.var (.free y))), Term.value_var]
    rfl
  | bound y =>
    -- a reference is in no equation, so nothing is known about it
    have hrespects := respects_after decomposing_plain fun p hp => Or.inr (hplain p hp)
    have hfind : (after eqs).find (.var (.bound y)) = .var (.bound y) := by
      rcases hrespects.2 _ _ (hrespects.1.same_find (.var (.bound y))) with h | h
      · exact h.symm
      · cases h.1
    have hleaf : (Term.var (Var.bound y).toBound).unfolding = .leaf (.bound y) :=
      Tree.unfold_eq_leaf rfl
    rw [expand, dif_pos (Or.inr hfind), hleaf, Tree.graft_leaf]

/-- Of equations between plain terms, one that is refused cannot be satisfied by trees together with
those before it. If all are accepted, the solution makes both sides of every equation unfold to the
same tree, and every valuation that satisfies the equations is an instance of the solution. -/
theorem solution_most_general (eqs : List (Term ν × Term ν)) (hplain : PlainEquations eqs) :
    (∀ before l r rest, eqs = before ++ (l, r) :: rest →
      ((after before).unify l r).2 ≠ .unified →
      ∀ {β : Type} (ρ : ν → Tree β), ¬ Satisfies ρ (before ++ [(l, r)])) ∧
    ((∀ before l r rest, eqs = before ++ (l, r) :: rest →
        ((after before).unify l r).2 = .unified) →
      (∀ p ∈ eqs, (p.1.replace (after eqs).answer).unfolding =
        (p.2.replace (after eqs).answer).unfolding) ∧
      ∀ {β : Type} (ρ : ν → Tree β), Satisfies ρ eqs → ∀ e ∈ (after eqs).solution,
        ρ e.1.name = e.2.unfolding.graft fun w => ρ w.name) := by
  refine ⟨fun before l r rest heq hrefused β ρ => ?_, fun haccepted => ⟨fun p hp => ?_, ?_⟩⟩
  · refine not_satisfies_of_refused (fun p hp => hplain p ?_) hrefused
    rw [heq, List.append_cons]
    exact List.mem_append_left _ hp
  · have hrun := unifyEach_eq_after eqs haccepted
    have hu := regular_after hplain
    have hclosed := decomposing_same hrun
    rw [unfolding_replace_answer hu hclosed (hplain p hp).1,
      unfolding_replace_answer hu hclosed (hplain p hp).2]
    exact classTree_eq_of_same ((same_iff_forced hrun).mpr (.equation hp))
  · intro β ρ hρ e he
    exact eq_unfolding_of_satisfies hplain hρ he

/-- An example: `x = f(x, y)` and `y = g(x, z)`, where nothing is said about `z`. -/
def mutualLoop : List (Term Nat × Term Nat) :=
  [(.var (.free 0), .app "f" [.var (.free 0), .var (.free 1)]),
    (.var (.free 1), .app "g" [.var (.free 0), .var (.free 2)])]

theorem plainEquations_mutualLoop : PlainEquations mutualLoop := by
  have hargs : ∀ m n : Nat, ∀ t ∈ [Term.var (.free m), .var (.free n)], t.Plain := by
    intro m n t ht
    rcases List.mem_pair.mp ht with rfl | rfl
    · exact .var m
    · exact .var n
  intro p hp
  rcases List.mem_pair.mp hp with rfl | rfl
  · exact ⟨.var 0, .app (hargs 0 1)⟩
  · exact ⟨.var 1, .app (hargs 0 2)⟩

theorem mutualLoop_accepted : ∀ before l r rest, mutualLoop = before ++ (l, r) :: rest →
    ((after before).unify l r).2 = .unified
  | [], l, r, rest, h => by
      obtain ⟨hfirst, -⟩ := List.cons.inj h
      obtain ⟨rfl, rfl⟩ := Prod.mk.inj hfirst
      decide
  | [p], l, r, rest, h => by
      obtain ⟨rfl, htail⟩ := List.cons.inj h
      obtain ⟨hsecond, -⟩ := List.cons.inj htail
      obtain ⟨rfl, rfl⟩ := Prod.mk.inj hsecond
      decide
  | p :: q :: before, l, r, rest, h => by
      have hlength := congrArg List.length h
      simp [mutualLoop] at hlength

theorem solution_mutualLoop_most_general :
    PlainEquations mutualLoop ∧
      (∀ p ∈ mutualLoop, (p.1.replace (after mutualLoop).answer).unfolding =
        (p.2.replace (after mutualLoop).answer).unfolding) ∧
      (∀ {β : Type} (ρ : Nat → Tree β), Satisfies ρ mutualLoop →
        ρ 0 = Tree.graft (fun w => ρ w.name) (Term.unfolding (.mu 0
          (.app "f" [.var (.bound 0), .app "g" [.var (.bound 0), .var (.bound 2)]])))) ∧
      ∀ {β : Type} (ρ : Nat → Tree β),
        ¬ Satisfies ρ (mutualLoop ++ [(.var (.free 1), .app "f" [])]) := by
  have hplain := plainEquations_mutualLoop
  have hplain' : PlainEquations (mutualLoop ++ [(.var (.free 1), .app "f" [])]) := by
    intro p hp
    rcases List.mem_append.mp hp with hp | hp
    · exact hplain p hp
    · rw [List.mem_singleton.mp hp]
      exact ⟨.var 1, .app nofun⟩
  obtain ⟨hsame, hinstance⟩ := (solution_most_general mutualLoop hplain).2 mutualLoop_accepted
  refine ⟨hplain, hsame, fun ρ hρ => ?_, fun ρ => ?_⟩
  · -- the entry of the first unknown
    exact hinstance ρ hρ (.free 0, _) (by decide +kernel)
  · -- the further equation is refused
    exact (solution_most_general _ hplain').1 mutualLoop _ _ [] rfl (by decide) ρ

end StaticAnalysis.Unifier
