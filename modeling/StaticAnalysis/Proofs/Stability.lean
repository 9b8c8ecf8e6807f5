import StaticAnalysis.Proofs.LeastSolution
import StaticAnalysis.Proofs.Widening

/-!
What a run leaves behind when it ends, whatever the transfer functions are. Without widening every
key of the domain has its right-hand side as its value, also if the run did not start at the bottom.
With a widening that only goes up, every key has at least its right-hand side, so the values are a
post-solution; if the transfer functions are monotone, it lies above all rounds from the bottom.
-/

namespace StaticAnalysis.Equations

variable {κ α : Type} [Ord κ] [Std.TransOrd κ] [Std.LawfulEqOrd κ] [DecidableEq κ]
  [DecidableEq α] {E : Equations κ α} {w : Widening κ α} {Member : α → Prop} {k : κ}
  {a b : Iteration κ α} {budget : Nat}

/-- A run without widening that ends has solved the equations: from any values and any leftovers on
the worklist, over a seed that has all keys of the domain. Solving them from the bottom then gives an
assignment that a step leaves alone. -/
theorem run_never_solves
    (hF : (∃ g : Digraph κ, g.Built ∧ E.flow = g.flow) ∨ E.flow.Coherent) :
    (∀ (budget : Nat) (seed : List κ) (a b : Iteration κ α), (∀ k ∈ E.flow.domain, k ∈ seed) →
      E.run .never budget seed a = .finished b →
        ∀ k ∈ E.flow.domain, E.evaluate k b.values = .ok (b.values.get k)) ∧
    ∀ (budget : Nat) (a b : Iteration κ α), E.solve {} budget a = .finished b →
      E.step b.values = .ok b.values := by
  have hcoherent := Digraph.coherent_of_flow hF
  refine ⟨?_, ?_⟩
  · intro budget seed a b hseed h k hk
    obtain ⟨-, hstable⟩ :=
      run_never_stable hcoherent (fun _ => True) (fun _ _ _ _ _ _ _ => trivial) hseed trivial h
    exact hstable k hk (by simp)
  · intro budget a b h
    obtain ⟨fresh, c, hfresh, hrun, hbc⟩ := solve_eq_finished rfl h
    obtain ⟨hconf, hstable⟩ := run_never_stable hcoherent E.Confined
      (fun _ _ _ _ hc hpop hv => hc.visit hcoherent hpop hv) (fun _ hk => hk)
      (confined_start hfresh fun _ hk => hk) hrun
    rw [hbc]
    exact step_eq_self hconf hstable

/-- An example: a counter that reads itself and goes down to zero, and a key that reads it. -/
def countdown : Equations Nat Extent where
  lattice := Extent.lattice
  flow := (Digraph.ofArcs [(0, 0), (0, 1)]).flow
  transfer k x := .ok <|
    if k = 1 then x else
      match x with
      | .unreached => .finite 2
      | .finite n => .finite (if 0 < n then n - 1 else 0)
      | .infinite => .finite 3

/-- Values from before, with the key outside the domain on the worklist. -/
def countdownLeftover : Iteration Nat Extent where
  pending := ⟨[7]⟩
  state := { values := .ofList .infinite [(1, .finite 9)] }

/-- The counter goes down, so its transfer function is not monotone, and still it is solved. -/
theorem run_countdown_solves :
    ¬ countdown.Monotone (fun _ => True) ∧ (∃ g : Digraph Nat, g.Built ∧ countdown.flow = g.flow) ∧
      (∃ b, countdown.run .never 20 [1, 0, 0, 5] countdownLeftover = .finished b ∧
        Iteration.values b ≠ countdownLeftover.values ∧
        ∀ k ∈ countdown.flow.domain,
          countdown.evaluate k (Iteration.values b) = .ok ((Iteration.values b).get k)) ∧
      ∃ b, countdown.solve {} 20 countdownLeftover = .finished b ∧
        countdown.step (Iteration.values b) = .ok (Iteration.values b) := by
  have hg : ∃ g : Digraph Nat, g.Built ∧ countdown.flow = g.flow := ⟨_, Digraph.built_ofArcs _, rfl⟩
  have hrun : countdown.run .never 20 [1, 0, 0, 5] countdownLeftover =
      .finished (countdown.run .never 20 [1, 0, 0, 5] countdownLeftover).state := rfl
  have hsolve : countdown.solve {} 20 countdownLeftover =
      .finished (countdown.solve {} 20 countdownLeftover).state := rfl
  obtain ⟨hstable, hsolved⟩ := run_never_solves (Or.inl hg)
  refine ⟨?_, hg, ⟨_, hrun, by decide, hstable _ _ _ _ (by decide) hrun⟩, _, hsolve,
    hsolved _ _ _ hsolve⟩
  intro hmono
  have h := hmono 0 .unreached (.finite 1) _ _ trivial trivial (Extent.below_iff.mpr rfl) rfl rfl
  exact absurd (Extent.below_iff.mp h) (by decide)

omit [DecidableEq κ] in
/-- An assignment that has at least the right-hand side at every key of the domain is a
post-solution. -/
theorem postSolution_of_holds (hL : E.lattice.Lawful Member) {m : TotalMap κ α}
    (hm : m.All Member) (h : ∀ k ∈ E.flow.domain, E.Holds E.lattice.Below k m) :
    E.PostSolution m := by
  obtain ⟨n, hn⟩ := exists_step (m := m) fun k hk => (h k hk).imp fun _ hy => hy.1
  obtain ⟨hdefault, hin, hout⟩ := step_eq_ok_iff.mp hn
  refine ⟨n, hn, below_assignments_iff.mpr ⟨hdefault ▸ hL.bottom_below hm.1, fun k => ?_⟩⟩
  by_cases hk : k ∈ E.flow.domain
  · obtain ⟨y, hy, hle⟩ := h k hk
    obtain rfl : y = n.get k := Except.ok.inj (hy.symm.trans (hin k hk))
    exact hle
  · rw [hout k hk]
    exact hL.bottom_below (hm.2 k)

/-- With a widening that only goes up, a run that ends has reached a post-solution. -/
theorem run_postSolution (hL : E.lattice.Lawful Member) (hE : E.Preserves Member)
    (hw : w.Extensive E.lattice Member) (hF : E.flow.Coherent) {seed : List κ}
    (hseed : ∀ k ∈ E.flow.domain, k ∈ seed) (ha : a.values.All Member)
    (h : E.run w budget seed a = .finished b) : b.values.All Member ∧ E.PostSolution b.values := by
  have hjump : ∀ (c : Iteration κ α) k y z, c.values.All Member → E.evaluate k c.values = .ok y →
      E.jump w k y = .ok z → E.lattice.Below y z :=
    fun c k y z hc hy hz => (jump_extensive hL hw (evaluate_mem hL hE hc hy) hz).2
  obtain ⟨hmembers, hholds⟩ := run_holds hF (fun c => c.values.All Member)
    (fun c d k rest hc _ hv =>
      hv.members hL hE (fun y z hy hz => (jump_extensive hL hw hy hz).1) hc)
    (fun c k hc => hL.below_refl (hc.2 k)) hjump hseed ha h
  exact ⟨hmembers, postSolution_of_holds hL hmembers hholds⟩

omit [DecidableEq κ] in
/-- Transfer functions that are defined on all members can be applied round after round. -/
theorem after_total (hL : E.lattice.Lawful Member) (hT : E.Total Member) :
    ∀ n, ∃ t, Ascent.after E.assignments E.step n = .ok t ∧ t.All Member
  | 0 => ⟨E.bottom, rfl, TotalMap.all_const hL.bottom_mem⟩
  | n + 1 => by
      obtain ⟨t, ht, htm⟩ := after_total hL hT n
      obtain ⟨u, hu, hum⟩ := step_total hL hT htm
      exact ⟨u, by rw [Ascent.after, ht]; exact hu, hum⟩

/-- Widening is sound. Whatever the transfer functions are, and along whatever edges values are
widened, solving over the whole domain gives a post-solution when it ends. If they are monotone, it
is above every round from the bottom, and so above the least solution. -/
theorem solve_postSolution (hL : E.lattice.Lawful Member) (hE : E.Preserves Member)
    (hF : (∃ g : Digraph κ, g.Built ∧ E.flow = g.flow) ∨ E.flow.Coherent) {s : Strategy κ α}
    (hw : s.widening.Extensive E.lattice Member) (hs : s.narrowing = 0)
    (hseed : ∀ k ∈ E.flow.domain, k ∈ s.seed.getD E.flow.domain)
    (hb : E.solve s budget a = .finished b) :
    E.PostSolution b.values ∧
      (E.Monotone Member →
        (∀ n t, Ascent.after E.assignments E.step n = .ok t → E.assignments.Below t b.values) ∧
        (E.Total Member → ∀ n, ∃ t, Ascent.after E.assignments E.step n = .ok t) ∧
        ∀ t, E.Lower Member t → E.step t = .ok t → E.assignments.Below t b.values) := by
  obtain ⟨fresh, c, hfresh, hrun, hbc⟩ := solve_eq_finished hs hb
  have hstart : fresh.values.All Member := hfresh ▸ TotalMap.all_const hL.bottom_mem
  obtain ⟨hmembers, hpost⟩ :=
    run_postSolution hL hE hw (Digraph.coherent_of_flow hF) hseed hstart hrun
  rw [hbc]
  refine ⟨hpost, fun hmono => ⟨fun n t ht => ?_, fun hT n => ?_, fun t ht _ => ?_⟩⟩
  · exact (lower_after hL hE hmono n ht).below_assignments hL hmembers hpost
  · exact (after_total hL hT n).imp fun _ h => h.1
  · exact ht.below_assignments hL hmembers hpost

/-- An example: a loop of two keys that counts from zero to a hundred, and a key that reads it. -/
def hundred : Equations Nat Extent where
  lattice := Extent.lattice
  flow := (Digraph.ofArcs [(0, 1), (1, 2), (2, 1), (1, 3)]).flow
  transfer k x := .ok (if k = 0 then .finite 0 else if k = 2 then (x.shift 1).cap 100 else x)

theorem monotone_hundred : hundred.Monotone fun _ => True := by
  intro k x y a b _ _ hxy ha hb
  cases ha
  cases hb
  refine Extent.below_iff.mpr ?_
  have hmax := Extent.below_iff.mp hxy
  split_ifs
  · rfl
  · exact Extent.max_cap (Extent.max_shift hmax)
  · exact hmax

/-- The way to solve it: bounds from three on are given up along the edge that closes the loop. -/
def hundredStrategy : Strategy Nat Extent where
  widening := .along [(2, 1)] fun x => .ok (x.giveUpAt 3)

/-- The loop is left without a bound, which is above what it counts to. -/
theorem solve_hundred_postSolution :
    hundred.lattice.Lawful (fun _ => True) ∧
      hundredStrategy.widening.Extensive hundred.lattice (fun _ => True) ∧
      ∃ b, hundred.solve hundredStrategy 20 (.start hundred) = .finished b ∧
        (Iteration.values b).get 3 = .infinite ∧ hundred.PostSolution (Iteration.values b) ∧
        hundred.step (Iteration.values b) ≠ .ok (Iteration.values b) ∧
        ∀ n, ∃ t, Ascent.after hundred.assignments hundred.step n = .ok t ∧
          hundred.assignments.Below t (Iteration.values b) := by
  have hb : hundred.solve hundredStrategy 20 (.start hundred) =
      .finished (hundred.solve hundredStrategy 20 (.start hundred)).state := rfl
  have hw : hundredStrategy.widening.Extensive hundred.lattice fun _ => True :=
    (Extent.lawful_giveUpAt 3 _).isExtensive
  obtain ⟨hpost, hmono⟩ := solve_postSolution Extent.lattice_lawful (fun _ _ _ _ _ => trivial)
    (Or.inl ⟨_, Digraph.built_ofArcs _, rfl⟩) hw rfl (fun _ hk => hk) hb
  obtain ⟨hbelow, htotal, -⟩ := hmono monotone_hundred
  refine ⟨Extent.lattice_lawful, hw, _, hb, by decide, hpost, by decide, fun n => ?_⟩
  obtain ⟨t, ht⟩ := htotal (fun _ _ _ => ⟨_, rfl, trivial⟩) n
  exact ⟨t, ht, hbelow n t ht⟩

end StaticAnalysis.Equations
