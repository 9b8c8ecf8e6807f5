import StaticAnalysis.Proofs.Unifier

/-!
Equations are worked through within the bound on their depth. All terms that come up are parts of
terms seen before or of the sides of the equation. Every descent to arguments has merged two classes
of such parts before, so there are as many descents in a row as there are classes, at most.
-/

namespace StaticAnalysis

variable {ν : Type}

namespace Term

mutual

/-- A term and all that it has below applications. -/
def parts : Term ν → List (Term ν)
  | .var v => [.var v]
  | .app name args => .app name args :: partsAll args
  | .mu param body => [.mu param body]

/-- The parts of a list of terms. -/
def partsAll : List (Term ν) → List (Term ν)
  | [] => []
  | t :: ts => t.parts ++ partsAll ts

end

theorem mem_parts_self (t : Term ν) : t ∈ t.parts := by
  cases t <;> simp [parts]

theorem parts_subset_partsAll {t : Term ν} : ∀ {ts : List (Term ν)}, t ∈ ts → t.parts ⊆ partsAll ts
  | s :: ts, h => by
      rw [partsAll]
      rcases List.mem_cons.mp h with rfl | h
      · exact List.subset_append_left ..
      · exact List.Subset.trans (parts_subset_partsAll h) (List.subset_append_right ..)

mutual

/-- The arguments of a part are parts. -/
theorem args_mem_parts {name : String} {args : List (Term ν)} {t : Term ν} (ht : t ∈ args) :
    ∀ {s : Term ν}, .app name args ∈ s.parts → t ∈ s.parts
  | .var v, h => by simp [parts] at h
  | .mu param body, h => by simp [parts] at h
  | .app name' args', h => by
      rw [parts] at h ⊢
      rcases List.mem_cons.mp h with h | h
      · obtain ⟨rfl, rfl⟩ := Term.app.inj h
        exact List.mem_cons_of_mem _ (parts_subset_partsAll ht (mem_parts_self t))
      · exact List.mem_cons_of_mem _ (args_mem_partsAll ht h)

theorem args_mem_partsAll {name : String} {args : List (Term ν)} {t : Term ν} (ht : t ∈ args) :
    ∀ {ss : List (Term ν)}, .app name args ∈ partsAll ss → t ∈ partsAll ss
  | [], h => by simp [partsAll] at h
  | s :: ss, h => by
      rw [partsAll, List.mem_append] at h ⊢
      exact h.imp (args_mem_parts ht) (args_mem_partsAll ht)

end

mutual

theorem length_parts_le : ∀ t : Term ν, t.parts.length ≤ t.size
  | .var v => Nat.le_refl _
  | .mu param body => by simp [parts, size]
  | .app name args => by
      have h := length_partsAll_le args
      simp only [parts, size, List.length_cons]
      omega

theorem length_partsAll_le : ∀ ts : List (Term ν), (partsAll ts).length ≤ sizeAll ts
  | [] => Nat.le_refl _
  | t :: ts => by
      have h := length_parts_le t
      have h' := length_partsAll_le ts
      simp only [partsAll, sizeAll, List.length_append]
      omega

end

end Term

namespace Unifier

variable [DecidableEq ν] {u v : Unifier ν} {lhs rhs : Term ν} {S : List (Term ν)} {n : Nat}

/-- A list of terms contains the representatives of its terms, at most a given number of them. -/
structure Spanned (u : Unifier ν) (S : List (Term ν)) (n : Nat) : Prop where
  sound : u.Sound
  find_mem : ∀ t ∈ S, u.find t ∈ S
  count_le : S.countP (fun t => u.find t = t) ≤ n

theorem Spanned.mono {m : Nat} (hu : u.Spanned S n) (h : n ≤ m) : u.Spanned S m :=
  ⟨hu.sound, hu.find_mem, Nat.le_trans hu.count_le h⟩

theorem Spanned.of_find_eq (hu : u.Spanned S n) (hv : v.Sound) (hfind : ∀ t, v.find t = u.find t) :
    v.Spanned S n := by
  refine ⟨hv, fun t ht => hfind t ▸ hu.find_mem t ht, ?_⟩
  simp only [hfind]
  exact hu.count_le

/-- A list with a term has a representative. -/
theorem Spanned.pos (hu : u.Spanned S n) (h : lhs ∈ S) : 0 < n := by
  refine Nat.lt_of_lt_of_le (List.countP_pos_iff.mpr ⟨u.find lhs, hu.find_mem lhs h, ?_⟩) hu.count_le
  exact decide_eq_true (hu.sound.find_find lhs)

/-- A merge makes one of two representatives an ordinary term. -/
theorem Spanned.join (hu : u.Spanned S (n + 1)) (hl : lhs ∈ S) (hr : rhs ∈ S)
    (hne : ¬ u.Same lhs rhs) (hjoin : u.Joins v (u.find lhs) (u.find rhs)) : v.Spanned S n := by
  obtain ⟨child, root, hends, hfind⟩ := hjoin.find
  have hrep : child ∈ S ∧ root ∈ S ∧ u.find child = child ∧ u.find root = root ∧ root ≠ child := by
    have hlmem := hu.find_mem lhs hl
    have hrmem := hu.find_mem rhs hr
    have hfixed := hu.sound.find_find
    rcases hends with ⟨rfl, rfl⟩ | ⟨rfl, rfl⟩
    · exact ⟨hlmem, hrmem, hfixed lhs, hfixed rhs, Ne.symm hne⟩
    · exact ⟨hrmem, hlmem, hfixed rhs, hfixed lhs, hne⟩
  obtain ⟨hchild, hroot, hfixed, hfixed', hdiff⟩ := hrep
  refine ⟨hjoin.sound, fun t ht => ?_, ?_⟩
  · -- representatives stay among the terms
    rw [hfind]
    split
    · exact hroot
    · exact hu.find_mem t ht
  · -- one of them is no representative any more, so there are fewer than before
    have hlt : S.countP (fun t => v.find t = t) < S.countP (fun t => u.find t = t) := by
      refine countP_lt_countP hchild (fun t _ ht => ?_) ?_ (decide_eq_true hfixed)
      · rw [decide_eq_true_eq, hfind] at ht
        refine decide_eq_true ?_
        split at ht
        · exact ht ▸ hfixed'
        · exact ht
      · rw [hfind, if_pos hfixed]
        exact decide_eq_false hdiff
    have hle := hu.count_le
    omega

/-- An equation between terms of the list is worked through if the list has no more
representatives than the depth allows. -/
theorem unifyWithin_spanned (hS : ∀ {name args}, Term.app name args ∈ S → ∀ t ∈ args, t ∈ S) :
    ∀ (depth : Nat) {u : Unifier ν} {lhs rhs : Term ν}, u.Spanned S depth → lhs ∈ S → rhs ∈ S →
      (u.unifyWithin depth lhs rhs).1.Spanned S depth ∧
        (u.unifyWithin depth lhs rhs).2 ≠ .exhausted
  | 0, u, lhs, rhs, hu, hl, hr => absurd (hu.pos hl) (Nat.lt_irrefl 0)
  | depth + 1, u, lhs, rhs, hu, hl, hr => by
      have hturn := turn_unifyWithin hu.sound depth lhs rhs
      generalize u.unifyWithin (depth + 1) lhs rhs = result at hturn
      cases hturn with
      | same hv hfind hsame => exact ⟨hu.of_find_eq hv hfind, nofun⟩
      | conflict hv hfind hconflict => exact ⟨hu.of_find_eq hv hfind, nofun⟩
      | absorb hjoin hne hvar =>
        exact ⟨(hu.join hl hr hne hjoin).mono (Nat.le_succ _), nofun⟩
      | decompose hjoin hne hlhs hrhs hlen =>
        have hargs : ∀ {t name args}, t ∈ S → u.find t = .app name args → ∀ s ∈ args, s ∈ S :=
          fun ht happ => hS (happ ▸ hu.find_mem _ ht)
        refine And.imp_left (fun h => Spanned.mono h (Nat.le_succ _)) <|
          unifyEach_invariant (P := fun v => v.Spanned S depth) (Q := fun r => r ≠ .exhausted)
            nofun (fun w p hp hw => ?_) (hu.join hl hr hne hjoin)
        obtain ⟨hs, ht⟩ := List.of_mem_zip hp
        exact unifyWithin_spanned hS depth hw (hargs hl hlhs _ hs) (hargs hr hrhs _ ht)

/-- The bound on the depth is never reached. -/
theorem unify_ne_exhausted (hu : u.Sound) (lhs rhs : Term ν) :
    (u.unify lhs rhs).2 ≠ .exhausted := by
  let S := Term.partsAll u.forest.terms ++ Term.partsAll [lhs, rhs]
  have hS : ∀ {name args}, Term.app name args ∈ S → ∀ t ∈ args, t ∈ S := fun h t ht =>
    List.mem_append.mpr ((List.mem_append.mp h).imp (Term.args_mem_partsAll ht)
      (Term.args_mem_partsAll ht))
  have hseen : ∀ t ∈ u.forest.terms, t ∈ S := fun t ht =>
    List.mem_append_left _ (Term.parts_subset_partsAll ht (Term.mem_parts_self t))
  have hside : ∀ t ∈ [lhs, rhs], t ∈ S := fun t ht =>
    List.mem_append_right _ (Term.parts_subset_partsAll ht (Term.mem_parts_self t))
  refine (unifyWithin_spanned hS (u.depthBound lhs rhs) ⟨hu, fun t ht => ?_, ?_⟩
    (hside lhs (by simp)) (hside rhs (by simp))).2
  · -- a representative is the term itself or was seen before
    by_cases hfind : u.find t = t
    · rwa [hfind]
    · exact hseen _ (hu.forest.find_mem (Forest.mem_terms_of_find_ne hfind))
  · -- there are no more parts than the depth allows for
    have hterms := Term.length_partsAll_le u.forest.terms
    have hsides : (Term.partsAll [lhs, rhs]).length ≤ lhs.size + (rhs.size + 0) :=
      Term.length_partsAll_le [lhs, rhs]
    have hlength : S.length ≤ u.depthBound lhs rhs := by
      unfold depthBound
      rw [List.length_append]
      omega
    exact Nat.le_trans List.countP_le_length hlength

end Unifier

end StaticAnalysis
