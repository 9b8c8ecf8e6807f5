import StaticAnalysis.Proofs.Chaotic

/-!
Iteration without widening, from the bottom up. Every value that a key has taken was its right-hand
side, at values that have only risen since. If the transfer functions are monotone, no value is above
its right-hand side, so a visit never lowers a value. Nothing is said here about where the transfer
functions are defined: a right-hand side may have a value now and none at earlier values.
-/

namespace StaticAnalysis.Equations

variable {κ α : Type} [Ord κ] [Std.TransOrd κ] {E : Equations κ α} {Member : α → Prop}

/-- Every value is the bottom, or the right-hand side of its key at values that are nowhere above the
present ones. -/
structure Founded (E : Equations κ α) (Member : α → Prop) (m : TotalMap κ α) : Prop where
  default : m.default = E.lattice.bottom
  members : m.All Member
  origin : ∀ k, m.get k = E.lattice.bottom ∨ ∃ n : TotalMap κ α, n.All Member ∧
    (∀ j, E.lattice.Below (n.get j) (m.get j)) ∧ E.evaluate k n = .ok (m.get k)

theorem founded_bottom (hL : E.lattice.Lawful Member) : E.Founded Member E.bottom where
  default := rfl
  members := TotalMap.all_const hL.bottom_mem
  origin k := Or.inl (by simp [bottom])

variable (hL : E.lattice.Lawful Member) (hE : E.Preserves Member) (hmono : E.Monotone Member)
  {m : TotalMap κ α} {k : κ} {y : α}

include hL hE hmono

/-- No value is above its right-hand side. -/
theorem Founded.below_evaluate (h : E.Founded Member m) (hy : E.evaluate k m = .ok y) :
    E.lattice.Below (m.get k) y := by
  rcases h.origin k with hbottom | ⟨n, hnm, hle, hn⟩
  · rw [hbottom]
    exact hL.bottom_below (evaluate_mem hL hE h.members hy)
  · exact evaluate_mono hL hmono hnm h.members hle hn hy

variable [Std.LawfulEqOrd κ] [DecidableEq α]

/-- Storing a right-hand side lowers no value. -/
theorem Founded.below_set (h : E.Founded Member m) (hy : E.evaluate k m = .ok y) (j : κ) :
    E.lattice.Below (m.get j) ((m.set k y).get j) := by
  rcases eq_or_ne k j with rfl | hkj
  · simpa using h.below_evaluate hL hE hmono hy
  · rw [TotalMap.get_set_of_ne _ hkj]
    exact hL.below_refl (h.members.2 j)

theorem Founded.set (h : E.Founded Member m) (hy : E.evaluate k m = .ok y) :
    E.Founded Member (m.set k y) := by
  have hmembers : (m.set k y).All Member := h.members.set k (evaluate_mem hL hE h.members hy)
  have hup : ∀ j, E.lattice.Below (m.get j) ((m.set k y).get j) := h.below_set hL hE hmono hy
  refine ⟨by simpa using h.default, hmembers, fun j => ?_⟩
  rcases eq_or_ne k j with rfl | hkj
  · -- the key that was set has its right-hand side at the old assignment
    exact Or.inr ⟨m, h.members, hup, by simpa using hy⟩
  · rw [TotalMap.get_set_of_ne _ hkj]
    rcases h.origin j with hbottom | ⟨n, hnm, hle, hn⟩
    · exact Or.inl hbottom
    · -- what another key came from is still below the new assignment
      refine Or.inr ⟨n, hnm, fun i => ?_, hn⟩
      exact hL.below_trans (hnm.2 i) (h.members.2 i) (hmembers.2 i) (hle i) (hup i)

/-- A visit without widening lowers no value, and values stay founded. -/
theorem Visit.founded [DecidableEq κ] {a b : Iteration κ α} (hv : E.Visit .never k a b)
    (h : E.Founded Member a.values) :
    E.Founded Member b.values ∧ ∀ j, E.lattice.Below (a.values.get j) (b.values.get j) := by
  cases hv with
  | unchanged hy hvalues hpending =>
    rw [hvalues]
    exact ⟨h, fun j => hL.below_refl (h.members.2 j)⟩
  | changed y z hy hne hz hvalues hpending =>
    rw [jump_never] at hz
    cases hz
    rw [hvalues]
    exact ⟨h.set hL hE hmono hy, h.below_set hL hE hmono hy⟩

end StaticAnalysis.Equations
