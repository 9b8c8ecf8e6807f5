import StaticAnalysis.Proofs.LeastSolution
import StaticAnalysis.Proofs.SeedOrder

/-!
Seeds that leave keys out. A key outside the seed is visited only when something it reads leaves the
bottom. If such keys are strict, one that is never visited has its right-hand side all the same: it
reads nothing but the bottom, and the bottom is what it has. A run from the seed then reaches a
solution, and it is the one that a run over all keys reaches.
-/

namespace StaticAnalysis

/-- A key of a graph that reads another one is a node. -/
theorem Digraph.Built.mem_domain_of_incoming {κ : Type} [DecidableEq κ] {g : Digraph κ}
    (h : g.Built) {j k : κ} (hj : j ∈ g.flow.incoming k) : k ∈ g.flow.domain :=
  (h.ends_mem _ (mem_predecessors.mp hj)).2

namespace Equations

variable {κ α : Type}

/-- Where the bottom goes in, the bottom comes out. -/
def Strict (E : Equations κ α) (k : κ) : Prop :=
  E.transfer k E.lattice.bottom = .ok E.lattice.bottom

variable [Ord κ] [Std.TransOrd κ] {E : Equations κ α} {Member : α → Prop} {seed : List κ}
  {m : TotalMap κ α} {k : κ} {a b : Iteration κ α} {budget : Nat}

/-- The join of bottoms is the bottom. -/
theorem join_of_not_reached (hL : E.lattice.Lawful Member) (hm : m.All Member)
    (hk : ¬ E.Reached seed m k) : E.join k m = .ok E.lattice.bottom := by
  have hread : ∀ j ∈ E.flow.incoming k, m.get j = E.lattice.bottom :=
    fun j hj => by_contra fun hne => hk (Or.inr ⟨j, hj, hne⟩)
  obtain ⟨z, hz, hzm, -, hleast⟩ := join_spec hL hm k
  have hle : E.lattice.Below z E.lattice.bottom := by
    refine hleast _ hL.bottom_mem fun j hj => ?_
    rw [hread j hj]
    exact hL.below_refl hL.bottom_mem
  rw [hz, hL.below_antisymm hzm hL.bottom_mem hle (hL.bottom_below hzm)]

/-- A strict key that is not reached has the bottom as its right-hand side. -/
theorem Strict.evaluate (hL : E.lattice.Lawful Member) (hstrict : E.Strict k) (hm : m.All Member)
    (hk : ¬ E.Reached seed m k) : E.evaluate k m = .ok E.lattice.bottom := by
  rw [Equations.evaluate, join_of_not_reached hL hm hk]
  exact hstrict

/-- A strict key that is not reached has the bottom as its value: it was not reached earlier either,
so the bottom is all that it can have taken. -/
theorem Founded.get_of_not_reached (hL : E.lattice.Lawful Member) (h : E.Founded Member m)
    (hstrict : E.Strict k) (hk : ¬ E.Reached seed m k) : m.get k = E.lattice.bottom := by
  rcases h.origin k with hbottom | ⟨n, hnm, hle, hn⟩
  · exact hbottom
  · have hearlier : ¬ E.Reached seed n k := fun hr => hk (hr.mono hL hnm hle)
    rw [hstrict.evaluate hL hnm hearlier] at hn
    exact (Except.ok.inj hn).symm

/-- A run that has ended leaves every key of the domain with its right-hand side as its value, if the
keys outside the seed are strict. -/
theorem Reaching.stableOff (hL : E.lattice.Lawful Member) (h : E.Reaching Member seed a)
    (hnil : a.pending.pending = []) (hstrict : ∀ k ∈ E.flow.domain, k ∉ seed → E.Strict k) :
    E.StableOff [] a.values := by
  intro k hk _
  by_cases hreached : E.Reached seed a.values k
  · exact h.stable k hreached (by simp [hnil])
  · have hkey : E.Strict k := hstrict k hk fun hs => hreached (Or.inl hs)
    rw [hkey.evaluate hL h.founded.members hreached,
      h.founded.get_of_not_reached hL hkey hreached]

variable [Std.LawfulEqOrd κ] [DecidableEq α]

/-- A post-solution has at least the right-hand sides of the keys that are reached. -/
theorem PostSolution.reachedPost {t : TotalMap κ α} (ht : E.PostSolution t)
    (hdomain : ∀ k, E.Reached seed t k → k ∈ E.flow.domain) : E.ReachedPost seed t := by
  intro k hk
  obtain ⟨t', hstep, hle⟩ := ht
  exact ⟨t'.get k, (step_eq_ok_iff.mp hstep).2.1 k (hdomain k hk), (below_assignments_iff.mp hle).2 k⟩

variable [DecidableEq κ]

/-- A run from a seed of nodes, outside of which all nodes are strict, ends at a solution below every
post-solution. -/
theorem run_seed_spec (hL : E.lattice.Lawful Member) (hE : E.Preserves Member)
    (hmono : E.Monotone Member) {g : Digraph κ} (hg : g.Built) (hflow : E.flow = g.flow)
    (hseed : ∀ k ∈ seed, k ∈ E.flow.domain)
    (hstrict : ∀ k ∈ E.flow.domain, k ∉ seed → E.Strict k) (hstart : a.values = E.bottom)
    (h : E.run .never budget seed a = .finished b) :
    E.Lower Member b.values ∧ E.step b.values = .ok b.values := by
  have hcoherent : E.flow.Coherent := hflow ▸ hg.coherent
  have hdomain : ∀ (t : TotalMap κ α) k, E.Reached seed t k → k ∈ E.flow.domain := by
    rintro t k (hk | ⟨j, hj, -⟩)
    · exact hseed k hk
    · rw [hflow] at hj ⊢
      exact hg.mem_domain_of_incoming hj
  obtain ⟨hreaching, hnil⟩ := run_reaching hL hE hmono (hflow ▸ g.mutual_flow) hstart h
  obtain ⟨hconf, -⟩ := run_invariant E.Confined (fun _ _ _ _ hc hpop hv => hc.visit hcoherent hpop hv)
    (confined_start hstart hseed) h
  refine ⟨⟨hreaching.founded.default, hreaching.founded.members, fun t htm ht => ?_⟩, ?_⟩
  · -- below every post-solution
    exact hreaching.below t htm (ht.reachedPost (hdomain t))
  · -- solved, also at the keys that were never visited
    exact step_eq_self hconf (hreaching.stableOff hL hnil hstrict)

/-- A partial seed reaches the least solution when the keys outside it are strict: with monotone
transfer functions along a graph, solving from such a seed and solving from all nodes give the same
assignment whenever both end. A step leaves it alone, and it is below every post-solution. -/
theorem solve_eq_of_strict (hL : E.lattice.Lawful Member) (hE : E.Preserves Member)
    (hmono : E.Monotone Member) (hF : ∃ g : Digraph κ, g.Built ∧ E.flow = g.flow)
    (hseed : ∀ k ∈ seed, k ∈ E.flow.domain)
    (hstrict : ∀ k ∈ E.flow.domain, k ∉ seed →
      E.transfer k E.lattice.bottom = .ok E.lattice.bottom)
    {budget' : Nat} {a' b' : Iteration κ α}
    (hb : E.solve { seed := some seed } budget a = .finished b)
    (hb' : E.solve {} budget' a' = .finished b') :
    b.values = b'.values ∧ E.step b.values = .ok b.values ∧
      ∀ t, t.All Member → E.PostSolution t → E.assignments.Below b.values t := by
  obtain ⟨g, hg, hflow⟩ := hF
  obtain ⟨fresh, c, hfresh, hrun, hbc⟩ := solve_eq_finished rfl hb
  obtain ⟨fresh', c', hfresh', hrun', hbc'⟩ := solve_eq_finished rfl hb'
  obtain ⟨hlower, hsolved⟩ := run_seed_spec hL hE hmono hg hflow hseed hstrict hfresh hrun
  obtain ⟨hlower', hsolved'⟩ :=
    run_never_spec hL hE hmono (hflow ▸ hg.coherent) hfresh' hrun'
  rw [hbc, hbc']
  exact ⟨hlower.eq_of_solved hL hlower' hsolved hsolved', hsolved,
    fun t htm ht => hlower.below_assignments hL htm ht⟩

/-- An example: a ring that one key feeds, and a ring that nothing feeds and one key reads. -/
def dormant : Equations Nat (Flat Nat) where
  lattice := Flat.lattice
  flow := (Digraph.ofArcs [(3, 4), (4, 3), (4, 5), (0, 1), (1, 2), (2, 1)]).flow
  transfer k x := .ok (if k = 0 then .simple 7 else x)

theorem monotone_dormant : dormant.Monotone fun _ => True := by
  intro k x y a b _ _ hxy ha hb
  cases ha
  cases hb
  split_ifs
  · exact Flat.lattice_lawful.below_refl trivial
  · exact hxy

/-- The key that feeds the ring is seed enough: the other ring is not visited, and still solved. -/
theorem solve_dormant_eq_of_strict :
    (∃ g : Digraph Nat, g.Built ∧ dormant.flow = g.flow) ∧
      (∀ k ∈ dormant.flow.domain, k ∉ [0] → dormant.Strict k) ∧
      ∃ b b', dormant.solve { seed := some [0] } 9 (.start dormant) = .finished b ∧
        dormant.solve {} 12 (.start dormant) = .finished b' ∧
        Iteration.steps b < dormant.flow.domain.length ∧
        (Iteration.values b).get 2 = .simple 7 ∧ Iteration.values b = Iteration.values b' ∧
        dormant.step (Iteration.values b) = .ok (Iteration.values b) := by
  have hg : ∃ g : Digraph Nat, g.Built ∧ dormant.flow = g.flow := ⟨_, Digraph.built_ofArcs _, rfl⟩
  have hstrict : ∀ k ∈ dormant.flow.domain, k ∉ [0] → dormant.Strict k := by
    intro k _ hk
    rw [List.mem_singleton] at hk
    simp [Strict, dormant, hk]
  have hb : dormant.solve { seed := some [0] } 9 (.start dormant) =
      .finished (dormant.solve { seed := some [0] } 9 (.start dormant)).state := rfl
  have hb' : dormant.solve {} 12 (.start dormant) =
      .finished (dormant.solve {} 12 (.start dormant)).state := rfl
  obtain ⟨heq, hsolved, -⟩ := solve_eq_of_strict Flat.lattice_lawful (fun _ _ _ _ _ => trivial)
    monotone_dormant hg (by decide) hstrict hb hb'
  exact ⟨hg, hstrict, _, _, hb, hb', by decide, by decide, heq, hsolved⟩

end Equations

end StaticAnalysis
