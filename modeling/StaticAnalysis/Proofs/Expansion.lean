import StaticAnalysis.Proofs.Unfolding
import StaticAnalysis.Proofs.Unifier
import StaticAnalysis.Unification.Solution

/-!
The expansion of unknowns to terms. An unknown becomes a reference, or its representative with the
unknowns in there expanded, behind a binder if something in there refers back to it. All that is
said about expansions follows from these cases, by induction on the unknowns that have not been
visited on the way.

Main statement: whenever every unknown has the value of its representative, it has the value of its
expansion as well.
-/

namespace StaticAnalysis.Unifier

variable {ν β : Type} [DecidableEq ν] {u : Unifier ν} {visited : List (Var ν)} {x : ν}

/-- The unknowns have plain representatives. -/
structure Regular (u : Unifier ν) : Prop where
  sound : u.Sound
  plain : ∀ x, (u.find (.var (.free x))).Plain

/-- Nothing is known about an unknown. -/
def Unsolved (u : Unifier ν) (x : ν) : Prop := u.find (.var (.free x)) = .var (.free x)

/-- A guarded term in which nothing is free but references to visited and to unsolved unknowns, and
no unsolved unknown is bound. -/
structure Refers (u : Unifier ν) (visited : List (Var ν)) (t : Term ν) : Prop where
  guarded : t.Guarded
  bound : ∀ v ∈ t.occurrences, ∃ y, v = .bound y ∧ (.free y ∈ visited ∨ u.Unsolved y)
  binds : ∀ y ∈ t.binders, ¬ u.Unsolved y

theorem Refers.free_not_mem {t : Term ν} (ht : u.Refers visited t) (x : ν) :
    .free x ∉ t.occurrences := by
  intro hx
  obtain ⟨y, hy, -⟩ := ht.bound _ hx
  cases hy

theorem Refers.apart {t : Term ν} (ht : u.Refers [] t) : t.Apart u.Unsolved := by
  refine ⟨ht.guarded, fun y hy => ?_, ht.binds⟩
  obtain ⟨z, hz, hz'⟩ := ht.bound _ hy
  rw [Var.bound.inj hz]
  exact hz'.resolve_left List.not_mem_nil

/-- Induction on the unknowns that have not been visited. -/
theorem visited_induction (u : Unifier ν) {motive : List (Var ν) → Prop}
    (step : ∀ visited, (∀ v ∉ visited, u.find (.var v) ≠ .var v → motive (v :: visited)) →
      motive visited) (visited : List (Var ν)) : motive visited := by
  induction hn : (u.unvisited visited).length using Nat.strongRecOn generalizing visited with
  | ind n ih =>
    exact step visited fun v hv hfind => ih _ (hn ▸ length_unvisited_lt hv hfind) _ rfl

theorem closeWith_eq_replace {θ : Var ν → Term ν} {t : Term ν} (ht : t.Plain)
    (hθ : ∀ w ∈ t.occurrences, ∀ x, .free x ∉ (θ w).occurrences) : closeWith θ t = t.replace θ := by
  cases ht with
  | var x => rfl
  | app h =>
    refine Term.foldl_subst_freeVars fun v hv => Or.inr fun w hw => ?_
    obtain ⟨x, rfl⟩ := (Term.Plain.app h).of_mem_occurrences hv
    exact hθ w hw x

theorem tie_eq {t : Term ν} (ht : .free x ∉ t.occurrences) :
    tie (.free x) t = if .bound x ∈ t.occurrences then .mu x t else t := by
  unfold tie
  rw [Term.subst_of_not_mem ht]
  simp only [Term.mem_freeVars]
  rfl

/-- What the expansion of an unknown can be. -/
inductive Expansion (u : Unifier ν) (visited : List (Var ν)) (x : ν) : Term ν → Prop where
  /-- The unknown is being expanded already, or it is unsolved. -/
  | reference (h : .free x ∈ visited ∨ u.Unsolved x) : Expansion u visited x (.var (.bound x))
  /-- Nothing in the expanded representative refers back to the unknown. -/
  | plain {t : Term ν} (hv : .free x ∉ visited) (hx : ¬ u.Unsolved x)
      (ht : t = (u.find (.var (.free x))).replace (u.expand (.free x :: visited)))
      (hback : .bound x ∉ t.occurrences) : Expansion u visited x t
  /-- Something in the expanded representative refers back to the unknown. -/
  | knot {name : String} {args : List (Term ν)} (hv : .free x ∉ visited) (hx : ¬ u.Unsolved x)
      (ht : .app name args = (u.find (.var (.free x))).replace (u.expand (.free x :: visited)))
      (hback : .bound x ∈ (Term.app name args).occurrences) :
      Expansion u visited x (.mu x (.app name args))

/-- A plain term with its unknowns expanded refers to what the expansions refer to. -/
theorem refers_replace {t : Term ν} (ht : t.Plain)
    (hrefers : ∀ y, u.Refers visited (u.expand visited (.free y))) :
    u.Refers visited (t.replace (u.expand visited)) := by
  have hexp : ∀ v ∈ t.occurrences, u.Refers visited (u.expand visited v) := by
    intro v hv
    obtain ⟨y, rfl⟩ := ht.of_mem_occurrences hv
    exact hrefers y
  refine ⟨ht.guarded_replace fun v hv => (hexp v hv).guarded, fun w hw => ?_, fun y hy => ?_⟩
  · obtain ⟨v, hv, hw⟩ := ht.mem_occurrences_replace hw
    exact (hexp v hv).bound w hw
  · obtain ⟨v, hv, hy⟩ := ht.mem_binders_replace hy
    exact (hexp v hv).binds y hy

theorem expand_of_reference (h : .free x ∈ visited ∨ u.Unsolved x) :
    u.expand visited (.free x) = .var (.bound x) := by
  rw [expand]
  exact dif_pos h

theorem expand_of_unsolved (h : u.Unsolved x) : u.expand visited (.free x) = .var (.bound x) :=
  expand_of_reference (Or.inr h)

theorem expansion_expand (hu : u.Regular)
    (hrefers : .free x ∉ visited → ¬ u.Unsolved x →
      ∀ y, u.Refers (.free x :: visited) (u.expand (.free x :: visited) (.free y))) :
    u.Expansion visited x (u.expand visited (.free x)) := by
  rw [expand]
  split
  · next h => exact .reference h
  · next h =>
    obtain ⟨hv, hx⟩ := not_or.mp h
    have hplain := hu.plain x
    have hbody := refers_replace hplain (hrefers hv hx)
    have hclose : closeWith (fun w => u.expand (.free x :: visited) w) (u.find (.var (.free x))) =
        (u.find (.var (.free x))).replace (u.expand (.free x :: visited)) := by
      refine closeWith_eq_replace hplain fun w hw y => ?_
      obtain ⟨z, rfl⟩ := hplain.of_mem_occurrences hw
      exact (hrefers hv hx z).free_not_mem y
    rw [hclose, tie_eq (hbody.free_not_mem x)]
    split
    · next hback =>
      generalize hr : u.find (.var (.free x)) = r at hplain hback ⊢
      cases hplain with
      | var y =>
        -- an unknown that stands for its class is unsolved, and it is not the one expanded here
        have hy : u.Unsolved y := by
          have hfind := hu.sound.find_find (.var (.free x))
          rwa [hr] at hfind
        rw [Term.replace, expand_of_unsolved hy] at hback
        have hxy : x = y := by simpa [Term.occurrences] using hback
        exact absurd (hxy ▸ hr) hx
      | app => exact .knot hv hx (by rw [hr, Term.replace]) hback
    · next hback => exact .plain hv hx rfl hback

/-- An expansion refers to unknowns that are being expanded around it, and to unsolved ones. -/
theorem refers_expand (hu : u.Regular) (visited : List (Var ν)) :
    ∀ x, u.Refers visited (u.expand visited (.free x)) := by
  induction visited using u.visited_induction with
  | step visited ih =>
    intro x
    have hexp := expansion_expand hu (ih (.free x))
    have hbody : .free x ∉ visited → ¬ u.Unsolved x → u.Refers (.free x :: visited)
        ((u.find (.var (.free x))).replace (u.expand (.free x :: visited))) :=
      fun hv hx => refers_replace (hu.plain x) (ih (.free x) hv hx)
    -- what is referred to inside, apart from the expanded unknown, is referred to outside
    have hinner : ∀ {y}, .free y ∈ Var.free x :: visited ∨ u.Unsolved y → y ≠ x →
        .free y ∈ visited ∨ u.Unsolved y := by
      rintro y (hy | hy) hne
      · exact Or.inl ((List.mem_cons.mp hy).resolve_left fun h => hne (Var.free.inj h))
      · exact Or.inr hy
    generalize u.expand visited (.free x) = t at hexp
    cases hexp with
    | reference h =>
      refine ⟨.var _, fun v hv => ⟨x, ?_, h⟩, nofun⟩
      simpa [Term.occurrences] using hv
    | plain hv hx ht hback =>
      have hrefers := ht ▸ hbody hv hx
      refine ⟨hrefers.guarded, fun v hmem => ?_, hrefers.binds⟩
      obtain ⟨y, rfl, hy⟩ := hrefers.bound v hmem
      exact ⟨y, rfl, hinner hy fun h => hback (h ▸ hmem)⟩
    | knot hv hx ht =>
      have hrefers := ht ▸ hbody hv hx
      refine ⟨.mu hrefers.guarded, fun v hmem => ?_, fun y hy => ?_⟩
      · -- the binder takes the references to the unknown itself
        obtain ⟨hmem, hne⟩ := Term.mem_occurrences_mu.mp hmem
        obtain ⟨y, rfl, hy⟩ := hrefers.bound v hmem
        exact ⟨y, rfl, hinner hy fun h => hne (congrArg _ h)⟩
      · -- the new binder is for an unknown with a solution
        rcases Term.mem_binders_mu.mp hy with rfl | hy
        · exact hx
        · exact hrefers.binds y hy

/-- If every unknown has the value of its representative, it has the value of its expansion. -/
theorem value_expand (hu : u.Regular) {ρ : ν → Tree β}
    (hρ : ∀ x, ρ x = (u.find (.var (.free x))).value ρ) (visited : List (Var ν)) :
    ∀ x, (u.expand visited (.free x)).value ρ = ρ x := by
  induction visited using u.visited_induction with
  | step visited ih =>
    intro x
    have hexp := expansion_expand hu fun _ _ => refers_expand hu (.free x :: visited)
    have hbody : .free x ∉ visited → ¬ u.Unsolved x →
        ((u.find (.var (.free x))).replace (u.expand (.free x :: visited))).value ρ = ρ x := by
      intro hv hx
      rw [Term.value, (hu.plain x).graft_replace, hρ x]
      refine (hu.plain x).guarded.graft_congr fun v hmem => ?_
      obtain ⟨y, rfl⟩ := (hu.plain x).of_mem_occurrences hmem
      exact ih (.free x) hv hx y
    generalize u.expand visited (.free x) = t at hexp
    cases hexp with
    | reference h => exact Term.value_var ..
    | plain hv hx ht hback => exact ht ▸ hbody hv hx
    | knot hv hx ht => exact Term.value_mu (ht ▸ hbody hv hx)

end StaticAnalysis.Unifier
