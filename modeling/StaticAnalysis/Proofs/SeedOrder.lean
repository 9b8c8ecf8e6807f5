import StaticAnalysis.Proofs.Founded

/-!
Seeds. A run from some of the keys visits these keys and all that read a key which has left the
bottom. It need not reach a solution, because other keys are never looked at. What it does reach is
determined by the members of the seed alone: the least assignment in which no key that is reached has
less than its right-hand side. So neither the order of the seed nor repetitions in it matter.
-/

namespace StaticAnalysis.Equations

variable {κ α : Type} [Ord κ] [Std.TransOrd κ] {E : Equations κ α} {Member : α → Prop}
  {seed seed' : List κ} {m n : TotalMap κ α} {k : κ}

/-- There is a reason to visit the key: it is in the seed, or it reads a key that has left the
bottom. -/
def Reached (E : Equations κ α) (seed : List κ) (m : TotalMap κ α) (k : κ) : Prop :=
  k ∈ seed ∨ ∃ j ∈ E.flow.incoming k, m.get j ≠ E.lattice.bottom

/-- No key that is reached has less than its right-hand side. -/
def ReachedPost (E : Equations κ α) (seed : List κ) (t : TotalMap κ α) : Prop :=
  ∀ k, E.Reached seed t k → E.Holds E.lattice.Below k t

/-- The least assignment in which no key that is reached has less than its right-hand side; the keys
that are reached then have it as their value. -/
structure LeastReached (E : Equations κ α) (Member : α → Prop) (seed : List κ)
    (m : TotalMap κ α) : Prop where
  default : m.default = E.lattice.bottom
  members : m.All Member
  solved : ∀ k, E.Reached seed m k → E.evaluate k m = .ok (m.get k)
  least : ∀ t : TotalMap κ α, t.All Member → E.ReachedPost seed t →
    ∀ k, E.lattice.Below (m.get k) (t.get k)

/-- Larger values reach more keys. -/
theorem Reached.mono (hL : E.lattice.Lawful Member) (hm : m.All Member)
    (hle : ∀ j, E.lattice.Below (m.get j) (n.get j)) (h : E.Reached seed m k) :
    E.Reached seed n k := by
  rcases h with hk | ⟨j, hj, hne⟩
  · exact Or.inl hk
  · exact Or.inr ⟨j, hj, hL.ne_bottom_of_below (hm.2 j) (hle j) hne⟩

theorem reached_congr (hseed : ∀ k, k ∈ seed ↔ k ∈ seed') :
    E.Reached seed m k ↔ E.Reached seed' m k := by
  simp [Reached, hseed]

theorem LeastReached.reachedPost (hL : E.lattice.Lawful Member)
    (h : E.LeastReached Member seed m) : E.ReachedPost seed m :=
  fun k hk => ⟨m.get k, h.solved k hk, hL.below_refl (h.members.2 k)⟩

/-- Seeds with the same members have the same least assignment. -/
theorem LeastReached.unique [Std.LawfulEqOrd κ] (hL : E.lattice.Lawful Member)
    (hseed : ∀ k, k ∈ seed ↔ k ∈ seed') (h : E.LeastReached Member seed m)
    (h' : E.LeastReached Member seed' n) : m = n := by
  have hpost : E.ReachedPost seed' m :=
    fun k hk => h.reachedPost hL k ((reached_congr hseed).mpr hk)
  have hpost' : E.ReachedPost seed n :=
    fun k hk => h'.reachedPost hL k ((reached_congr hseed).mp hk)
  refine TotalMap.ext_get (h.default.trans h'.default.symm) fun k => ?_
  exact hL.below_antisymm (h.members.2 k) (h'.members.2 k) (h.least n h'.members hpost' k)
    (h'.least m h.members hpost k)

variable [Std.LawfulEqOrd κ] [DecidableEq κ] [DecidableEq α] {a b : Iteration κ α}

/-- What holds throughout a run from a seed: only keys that are reached wait, those that do not wait
have their right-hand sides, and no value is too large. -/
structure Reaching (E : Equations κ α) (Member : α → Prop) (seed : List κ)
    (a : Iteration κ α) : Prop where
  founded : E.Founded Member a.values
  pending : ∀ k ∈ a.pending.pending, E.Reached seed a.values k
  stable : ∀ k, E.Reached seed a.values k → k ∉ a.pending.pending →
    E.evaluate k a.values = .ok (a.values.get k)
  below : ∀ t : TotalMap κ α, t.All Member → E.ReachedPost seed t →
    ∀ k, E.lattice.Below (a.values.get k) (t.get k)

/-- A key that does not wait after a visit has not been reached by it. -/
theorem Visit.reached_of_not_mem {w : Widening κ α} {j : κ} (hF : E.flow.Mutual)
    (hv : E.Visit w k a b) (hwait : j ∉ b.pending.pending) (h : E.Reached seed b.values j) :
    E.Reached seed a.values j := by
  cases hv with
  | unchanged hy hvalues hpending => rwa [hvalues] at h
  | changed y z hy hne hz hvalues hpending =>
    rw [hpending, Worklist.mem_pending_addAll, not_or] at hwait
    rcases h with hj | ⟨i, hi, hne'⟩
    · exact Or.inl hj
    · have hik : k ≠ i := by
        rintro rfl
        exact hwait.2 ((hF k j).mp hi)
      rw [hvalues, TotalMap.get_set_of_ne _ hik] at hne'
      exact Or.inr ⟨i, hi, hne'⟩

section Visits

variable (hL : E.lattice.Lawful Member) (hE : E.Preserves Member) (hmono : E.Monotone Member)

include hL hE hmono

/-- A visit lets those keys wait that it reaches: the value it stores is not the bottom. -/
theorem Visit.pending_reached (hF : E.flow.Mutual) (hv : E.Visit .never k a b)
    (hfounded : E.Founded Member a.values)
    (h : ∀ j ∈ a.pending.pending, E.Reached seed a.values j) :
    ∀ j ∈ b.pending.pending, E.Reached seed b.values j := by
  intro j hj
  have hup := (hv.founded hL hE hmono hfounded).2
  cases hv with
  | unchanged hy hvalues hpending =>
    rw [hpending] at hj
    exact (h j hj).mono hL hfounded.members hup
  | changed y z hy hne hz hvalues hpending =>
    rw [hpending, Worklist.mem_pending_addAll] at hj
    rcases hj with hj | hj
    · exact (h j hj).mono hL hfounded.members hup
    · rw [jump_never] at hz
      cases hz
      refine Or.inr ⟨k, (hF k j).mpr hj, ?_⟩
      rw [hvalues, TotalMap.get_set_self]
      rintro rfl
      have hmem := hfounded.members.2 k
      exact hne (hL.below_antisymm hL.bottom_mem hmem (hL.bottom_below hmem)
        (hfounded.below_evaluate hL hE hmono hy))

/-- A visit to a key that is reached leads nowhere above an assignment that has at least the
right-hand sides of the keys it reaches. -/
theorem Visit.below_reachedPost {t : TotalMap κ α} (hv : E.Visit .never k a b)
    (ha : a.values.All Member) (hk : E.Reached seed a.values k) (htm : t.All Member)
    (ht : E.ReachedPost seed t) (h : ∀ j, E.lattice.Below (a.values.get j) (t.get j)) (j : κ) :
    E.lattice.Below (b.values.get j) (t.get j) := by
  refine hv.below (fun y z hy _ hz => ?_) h j
  rw [jump_never] at hz
  cases hz
  obtain ⟨x, hx, hxt⟩ := ht k (hk.mono hL ha h)
  have hyx : E.lattice.Below y x := evaluate_mono hL hmono ha htm h hy hx
  exact hL.below_trans (evaluate_mem hL hE ha hy) (evaluate_mem hL hE htm hx) (htm.2 k) hyx hxt

theorem Reaching.visit (hF : E.flow.Mutual) (h : E.Reaching Member seed a) {rest : List κ}
    (hpop : a.pending.pending = k :: rest) (hv : E.Visit .never k { a with pending := ⟨rest⟩ } b) :
    E.Reaching Member seed b := by
  have hwait : ∀ j ∈ k :: rest, E.Reached seed a.values j := hpop ▸ h.pending
  refine ⟨(hv.founded hL hE hmono h.founded).1, ?_, ?_, ?_⟩
  · -- what waits has been reached
    exact hv.pending_reached hL hE hmono hF h.founded fun j hj => hwait j (by simp [hj])
  · -- what has been reached and does not wait is solved
    intro j hj hnot
    have hreached := hv.reached_of_not_mem hF hnot hj
    refine holds_eq_iff.mp (hv.holds_of_not_mem (hF k j).mp rfl ?_ ?_ hnot)
    · intro y z _ hz
      simpa [jump_never] using hz
    · intro hjk
      exact holds_eq_iff.mpr (h.stable j hreached (by simpa [hpop] using hjk))
  · -- the values stay below every such assignment
    intro t htm ht
    exact hv.below_reachedPost hL hE hmono h.founded.members (hwait k (by simp)) htm ht
      (h.below t htm ht)

/-- A run from a seed that starts at the bottom and ends keeps this up to the end. -/
theorem run_reaching (hF : E.flow.Mutual) {budget : Nat} (hstart : a.values = E.bottom)
    (h : E.run .never budget seed a = .finished b) :
    E.Reaching Member seed b ∧ b.pending.pending = [] := by
  refine run_invariant (E.Reaching Member seed)
    (fun c d k rest hc hpop hv => hc.visit hL hE hmono hF hpop hv) ?_ h
  have hvalues : Iteration.values { a with pending := Worklist.empty.addAll seed } = E.bottom :=
    hstart
  have hpending : ∀ k, k ∈ (Worklist.empty.addAll seed).pending ↔ k ∈ seed := by
    simp [Worklist.mem_pending_addAll, Worklist.empty]
  refine ⟨hvalues ▸ founded_bottom hL, fun k hk => Or.inl ((hpending k).mp hk), ?_, ?_⟩
  · -- at the bottom only the seed is reached, and all of it waits
    rintro k (hk | ⟨j, -, hne⟩) hnot
    · exact absurd ((hpending k).mpr hk) hnot
    · exact absurd (by simp [hvalues, bottom]) hne
  · intro t htm _ k
    rw [hvalues]
    simpa [bottom] using hL.bottom_below (htm.2 k)

/-- At its end the run has reached the least assignment that the members of the seed allow. -/
theorem run_leastReached (hF : E.flow.Mutual) {budget : Nat} (hstart : a.values = E.bottom)
    (h : E.run .never budget seed a = .finished b) : E.LeastReached Member seed b.values := by
  obtain ⟨hb, hnil⟩ := run_reaching hL hE hmono hF hstart h
  exact ⟨hb.founded.default, hb.founded.members, fun k hk => hb.stable k hk (by simp [hnil]),
    hb.below⟩

end Visits

/-- The result does not depend on the order of the seed: with monotone transfer functions, along a
graph or a flow whose two directions agree, seeds with the same members lead to the same values
whenever solving ends. -/
theorem solve_eq_of_seed (hL : E.lattice.Lawful Member) (hE : E.Preserves Member)
    (hmono : E.Monotone Member)
    (hF : (∃ g : Digraph κ, g.Built ∧ E.flow = g.flow) ∨ E.flow.Mutual)
    {seed seed' : Option (List κ)}
    (hseed : ∀ k, k ∈ seed.getD E.flow.domain ↔ k ∈ seed'.getD E.flow.domain)
    {budget budget' : Nat} {a a' b b' : Iteration κ α}
    (hb : E.solve { seed := seed } budget a = .finished b)
    (hb' : E.solve { seed := seed' } budget' a' = .finished b') : b.values = b'.values := by
  have hmutual : E.flow.Mutual := by
    rcases hF with ⟨g, -, hflow⟩ | hF
    · rw [hflow]
      exact g.mutual_flow
    · exact hF
  obtain ⟨fresh, c, hfresh, hrun, hbc⟩ := solve_eq_finished rfl hb
  obtain ⟨fresh', c', hfresh', hrun', hbc'⟩ := solve_eq_finished rfl hb'
  have hc := run_leastReached hL hE hmono hmutual hfresh hrun
  have hc' := run_leastReached hL hE hmono hmutual hfresh' hrun'
  rw [hbc, hbc']
  exact hc.unique hL hseed hc'

/-- An example: a ring fed by one key, and beside it two keys that have nothing to do with it. -/
def islands : Equations Nat (Flat Nat) where
  lattice := Flat.lattice
  flow := (Digraph.ofArcs [(0, 1), (1, 2), (2, 1), (3, 4)]).flow
  transfer k x := .ok (if k = 0 then .simple 7 else if k = 3 then .simple 9 else x)

theorem monotone_islands : islands.Monotone fun _ => True := by
  intro k x y a b _ _ hxy ha hb
  cases ha
  cases hb
  split_ifs
  · exact Flat.lattice_lawful.below_refl trivial
  · exact Flat.lattice_lawful.below_refl trivial
  · exact hxy

/-- Two orders of a seed take different numbers of visits to the same values, which are not a
solution: the keys beside the ring are not reached. -/
theorem solve_islands_eq_of_seed :
    (∃ g : Digraph Nat, g.Built ∧ islands.flow = g.flow) ∧
      ∃ b b', islands.solve { seed := some [0, 1] } 9 (.start islands) = .finished b ∧
        islands.solve { seed := some [1, 0, 1] } 12 (.start islands) = .finished b' ∧
        Iteration.steps b ≠ Iteration.steps b' ∧ Iteration.values b = Iteration.values b' ∧
        (Iteration.values b).get 2 = .simple 7 ∧
        islands.step (Iteration.values b) ≠ .ok (Iteration.values b) := by
  have hg : ∃ g : Digraph Nat, g.Built ∧ islands.flow = g.flow := ⟨_, Digraph.built_ofArcs _, rfl⟩
  have hb : islands.solve { seed := some [0, 1] } 9 (.start islands) =
      .finished (islands.solve { seed := some [0, 1] } 9 (.start islands)).state := rfl
  have hb' : islands.solve { seed := some [1, 0, 1] } 12 (.start islands) =
      .finished (islands.solve { seed := some [1, 0, 1] } 12 (.start islands)).state := rfl
  have heq := solve_eq_of_seed Flat.lattice_lawful (fun _ _ _ _ _ => trivial) monotone_islands
    (Or.inl hg) (by simp) hb hb'
  exact ⟨hg, _, _, hb, hb', by decide, heq, by decide, by decide⟩

end StaticAnalysis.Equations
