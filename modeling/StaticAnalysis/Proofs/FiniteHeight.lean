import Mathlib.Algebra.GroupWithZero.Nat
import StaticAnalysis.Proofs.Founded
import StaticAnalysis.Proofs.LeastSolution
import StaticAnalysis.Proofs.Widening

/-!
Lattices of finite height. Without widening every change of a value is a step of an ascent from the
bottom, so a key changes no more often than the lattice is high, and lets its readers wait no more
often. Every visit is paid for by the seed or by an arc out of a key that has changed; solving ends
after that many visits.
-/

namespace StaticAnalysis

namespace Lattice

variable {α : Type} {L : Lattice α} {Member : α → Prop}

/-- A strictly ascending chain with this number of steps leads from the bottom to the element. -/
inductive Ascends (L : Lattice α) (Member : α → Prop) : Nat → α → Prop where
  | bottom : Ascends L Member 0 L.bottom
  | step {n : Nat} {x y : α} (h : Ascends L Member n x) (hy : Member y) (hxy : L.Below x y)
      (hne : x ≠ y) : Ascends L Member (n + 1) y

/-- No strictly ascending chain from the bottom has more steps than this. -/
def HeightAtMost (L : Lattice α) (Member : α → Prop) (h : Nat) : Prop :=
  ∀ n x, L.Ascends Member n x → n ≤ h

/-- A rank that rises with the elements bounds the height. -/
theorem heightAtMost_of_rank (hL : L.Lawful Member) (rank : α → Nat) {h : Nat}
    (hrank : ∀ x y, Member x → Member y → L.Below x y → x ≠ y → rank x < rank y)
    (hh : ∀ x, rank x ≤ h) : L.HeightAtMost Member h := by
  have hchain : ∀ n x, L.Ascends Member n x → Member x ∧ n ≤ rank x := by
    intro n x hx
    induction hx with
    | bottom => exact ⟨hL.bottom_mem, Nat.zero_le _⟩
    | step _ hy hxy hne ih => exact ⟨hy, Nat.lt_of_le_of_lt ih.2 (hrank _ _ ih.1 hy hxy hne)⟩
  exact fun n x hx => (hchain n x hx).2.trans (hh x)

end Lattice

/-- How many steps lead from the bottom of a flat lattice to an element. -/
def Flat.rank {α : Type} : Flat α → Nat
  | .bottom => 0
  | .simple _ => 1
  | .top => 2

/-- A flat lattice is two steps high. -/
theorem Flat.heightAtMost_two {α : Type} [DecidableEq α] :
    (Flat.lattice (α := α)).HeightAtMost (fun _ => True) 2 := by
  refine Lattice.heightAtMost_of_rank Flat.lattice_lawful Flat.rank ?_ ?_
  · intro x y _ _ hxy hne
    have hlub := (Flat.lattice_lawful.below_iff trivial trivial).mp hxy
    cases x <;> cases y <;>
      simp_all [Flat.lattice, Lattice.ofEnds, Lattice.lubOfEnds, Flat.rank]
  · intro x
    cases x <;> simp [Flat.rank]

namespace Digraph

variable {κ : Type} [DecidableEq κ]

/-- How often keys can still be made to wait along the arcs, if every key changes at most `h` times
and has changed a number of times already. -/
def headroom (g : Digraph κ) (h : Nat) (changes : κ → Nat) : Nat :=
  (g.arcs.map fun e => h - changes e.1).sum

omit [DecidableEq κ] in
theorem headroom_zero (g : Digraph κ) (h : Nat) : g.headroom h (fun _ => 0) = h * g.numArcs := by
  simp [headroom, numArcs, Nat.mul_comm]

/-- A change of a key uses up one place along every arc out of it. -/
theorem headroom_update (g : Digraph κ) {h : Nat} {changes : κ → Nat} {k : κ}
    (hk : changes k < h) :
    g.headroom h (Function.update changes k (changes k + 1)) + (g.successors k).length =
      g.headroom h changes := by
  unfold headroom successors
  rw [List.length_map]
  induction g.arcs with
  | nil => simp
  | cons e arcs ih =>
    rcases eq_or_ne e.1 k with he | he
    · simp only [List.map_cons, he, Function.update_self, List.sum_cons, decide_true,
        List.filter_cons_of_pos, List.length_cons] at ih ⊢
      omega
    · simp only [List.map_cons, ne_eq, he, not_false_eq_true, Function.update_of_ne, List.sum_cons,
        decide_false, Bool.false_eq_true, List.filter_cons_of_neg] at ih ⊢
      omega

end Digraph

namespace Equations

variable {κ α : Type} [Ord κ] [Std.TransOrd κ] [DecidableEq κ] [DecidableEq α]
  {E : Equations κ α} {Member : α → Prop} {k : κ} {a b : Iteration κ α}

theorem steps_process {w : Widening κ α} (h : E.process w k a = .finished b) :
    b.steps = a.steps + 1 := by
  unfold process at h
  cases hy : E.evaluate k a.tick.values with
  | error fault => simp [hy] at h
  | ok y =>
    simp only [hy] at h
    -- unchanged, widened or stored as it is: each visit ticks once
    split at h
    · cases h
      rfl
    · split at h
      · cases hz : w.widen y with
        | error fault => simp [hz] at h
        | ok z =>
          simp only [hz] at h
          cases h
          rfl
      · cases h
        rfl

omit [DecidableEq κ] in
theorem steps_narrow : ∀ {rounds round : Nat} {a : Iteration κ α},
    E.narrow round rounds a = .finished b → b.steps = a.steps
  | 0, _, a, h => by
      cases h
      rfl
  | rounds + 1, round, a, h => by
      rw [narrow] at h
      cases hstep : E.step (a.note (.narrowing round)).values with
      | error fault => simp [hstep] at h
      | ok values =>
        simp only [hstep] at h
        have ih := steps_narrow h
        exact ih

variable [Std.LawfulEqOrd κ]

/-- A credit that is enough for all visits to come: for the keys that wait, and for those that will
be made to wait, given how often every key has changed on its way up. -/
structure Covered (E : Equations κ α) (Member : α → Prop) (g : Digraph κ) (h credit : Nat)
    (a : Iteration κ α) : Prop where
  founded : E.Founded Member a.values
  enough : ∃ changes : κ → Nat, (∀ k, E.lattice.Ascends Member (changes k) (a.values.get k)) ∧
    a.pending.pending.length + g.headroom h changes ≤ credit

section Visits

variable {g : Digraph κ} {h : Nat} (hL : E.lattice.Lawful Member) (hmono : E.Monotone Member)
  (hh : E.lattice.HeightAtMost Member h) (hflow : E.flow = g.flow)

include hL hmono hh hflow

/-- A visit costs one. If it changes the key, the readers that wait now were paid for by its arcs. -/
theorem Covered.visit (hE : E.Preserves Member) {credit : Nat} {rest : List κ}
    (hc : E.Covered Member g h credit a) (hpop : a.pending.pending = k :: rest)
    (hv : E.Visit .never k { a with pending := ⟨rest⟩ } b) :
    ∃ credit', credit = credit' + 1 ∧ E.Covered Member g h credit' b := by
  have hfounded := (hv.founded hL hE hmono hc.founded).1
  obtain ⟨changes, hascends, henough⟩ := hc.enough
  rw [hpop, List.length_cons] at henough
  refine ⟨credit - 1, by omega, hfounded, ?_⟩
  cases hv with
  | unchanged hy hvalues hpending =>
    rw [hvalues, hpending]
    exact ⟨changes, hascends, by simp only; omega⟩
  | changed y z hy hne hz hvalues hpending =>
    rw [jump_never] at hz
    cases hz
    -- the value went up, so there was room for one more change of this key
    have hup : E.lattice.Ascends Member (changes k + 1) y :=
      .step (hascends k) (evaluate_mem hL hE hc.founded.members hy)
        (hc.founded.below_evaluate hL hE hmono hy) hne.symm
    have hroom := g.headroom_update (hh _ _ hup)
    have hadded := Worklist.length_pending_addAll_le (E.flow.outgoing k) ⟨rest⟩
    have hreaders : (E.flow.outgoing k).length = (g.successors k).length := by rw [hflow]; rfl
    refine ⟨Function.update changes k (changes k + 1), fun j => ?_, ?_⟩
    · -- only the counter of the visited key goes up
      rw [hvalues]
      rcases eq_or_ne k j with rfl | hkj
      · simpa using hup
      · rw [Function.update_of_ne hkj.symm, TotalMap.get_set_of_ne _ hkj]
        exact hascends j
    · -- the credit that the change frees pays for the readers
      rw [hpending]
      simp only at hadded ⊢
      omega

/-- A run from the bottom ends within a visit for every key of the seed and as many for every arc as
the lattice is high. -/
theorem drain_within (hT : E.Total Member) (ha : a.values = E.bottom) (hsteps : a.steps = 0)
    {n budget : Nat} (hn : a.pending.pending.length ≤ n) (hbudget : n + h * g.numArcs ≤ budget) :
    ∃ b : Iteration κ α, Agenda.drain (E.process .never) budget a = .finished b ∧
      b.values.All Member ∧ b.steps ≤ n + h * g.numArcs := by
  have hstart : E.Covered Member g h (n + h * g.numArcs) a := by
    refine ⟨ha ▸ founded_bottom hL, fun _ => 0, fun k => ?_, ?_⟩
    · rw [ha]
      simpa [bottom] using Lattice.Ascends.bottom
    · rw [g.headroom_zero]
      omega
  have hend : ∃ credit, ∃ b : Iteration κ α, Agenda.drain (E.process .never) budget a = .finished b ∧
      E.Covered Member g h credit b ∧ b.steps + credit = n + h * g.numArcs := by
    refine Agenda.drain_of_credit (fun credit (c : Iteration κ α) =>
      E.Covered Member g h credit c ∧ c.steps + credit = n + h * g.numArcs)
      ?_ ⟨hstart, by omega⟩ hbudget
    rintro credit c k rest ⟨hc, hpaid⟩ hpop
    obtain ⟨d, hd⟩ := process_total (w := .never) (a := { c with pending := ⟨rest⟩ }) hL hT
      (fun _ => ⟨_, rfl⟩) hc.founded.members k
    obtain ⟨credit', rfl, hd'⟩ :=
      hc.visit hL hmono hh hflow hT.preserves hpop (visit_of_process hd)
    have hstep := steps_process hd
    change Iteration.steps d = Iteration.steps c + 1 at hstep
    exact ⟨credit', d, rfl, hd, hd', by omega⟩
  obtain ⟨credit, b, hb, hcovered, hpaid⟩ := hend
  exact ⟨b, hb, hcovered.founded.members, by omega⟩

end Visits

/-- Over a lattice of finite height, solving without widening ends: with a budget of one visit for
every key of the seed, and as many for every arc as the lattice is high, it is finished, and it has
made no more visits than that. -/
theorem solve_ends_within (hL : E.lattice.Lawful Member) (hT : E.Total Member)
    (hmono : E.Monotone Member) {h : Nat} (hh : E.lattice.HeightAtMost Member h) (g : Digraph κ)
    (hflow : E.flow = g.flow) (seed : Option (List κ)) (narrowing : Nat) (a : Iteration κ α) :
    ∃ b : Iteration κ α,
      (∀ budget, (seed.getD g.nodes).length + h * g.numArcs ≤ budget →
        E.solve { seed := seed, narrowing := narrowing } budget a = .finished b) ∧
      b.steps ≤ (seed.getD g.nodes).length + h * g.numArcs := by
  let s : Strategy κ α := { seed := seed, narrowing := narrowing }
  have hdomain : E.flow.domain = g.nodes := by rw [hflow]; rfl
  have hlength : (E.seeded s a).pending.pending.length ≤ (seed.getD g.nodes).length := by
    rw [← hdomain]
    exact (Worklist.length_pending_addAll_le _ Worklist.empty).trans (by simp [Worklist.empty, s])
  obtain ⟨c, hc, hcm, hcsteps⟩ :=
    drain_within hL hmono hh hflow hT (a := E.seeded s a) rfl rfl hlength (Nat.le_refl _)
  obtain ⟨d, hd⟩ := narrow_total hL hT narrowing 1
    (a := Iteration.note c (.settled (Iteration.steps c))) hcm
  have hdsteps := steps_narrow hd
  refine ⟨if narrowing = 0 then d else Iteration.note d (.narrowed narrowing), ?_, ?_⟩
  · -- any larger budget gives the same result
    intro budget hbudget
    rw [solve_eq_drain, Agenda.drain_mono hc hbudget, Outcome.andThen_finished, hd,
      Outcome.andThen_finished]
  · -- narrowing makes no visits
    have hbound : d.steps ≤ (seed.getD g.nodes).length + h * g.numArcs := hdsteps.trans_le hcsteps
    split
    · exact hbound
    · exact hbound

/-- The ring is solved within the twelve visits that its four keys and four arcs allow. -/
theorem solve_ring_ends_within :
    ring.lattice.HeightAtMost (fun _ => True) 2 ∧
      ∃ b : Iteration Nat (Flat Nat), ring.solve {} 12 (.start ring) = .finished b ∧
        b.steps ≤ 12 := by
  obtain ⟨b, hb, hsteps⟩ := solve_ends_within Flat.lattice_lawful
    (fun _ _ _ => ⟨_, rfl, trivial⟩) monotone_ring Flat.heightAtMost_two
    (Digraph.ofArcs [(0, 1), (1, 2), (2, 1), (2, 3)]) rfl none 0 (.start ring)
  exact ⟨Flat.heightAtMost_two, b, hb 12 (by decide), hsteps⟩

end Equations

end StaticAnalysis
