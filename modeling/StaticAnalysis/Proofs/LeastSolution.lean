import StaticAnalysis.Proofs.Chaotic

/-!
The least solution. Rounds and chaotic iteration both stay below every assignment that a step does
not leave upwards; when they end they have reached a solution. With monotone transfer functions
there is only one solution below all those assignments, so the two results are equal.
-/

namespace StaticAnalysis

namespace Equations

variable {κ α : Type} [Ord κ] [Std.TransOrd κ] [Std.LawfulEqOrd κ] [DecidableEq α]
  {E : Equations κ α} {Member : α → Prop}

/-- A step from the assignment stays below it. -/
def PostSolution (E : Equations κ α) (t : TotalMap κ α) : Prop :=
  ∃ t', E.step t = .ok t' ∧ E.assignments.Below t' t

/-- A post-solution bounds the right-hand side of every key below the values it is evaluated at. -/
theorem PostSolution.evaluate_below (hL : E.lattice.Lawful Member) (hE : E.Preserves Member)
    (hmono : E.Monotone Member) {m t : TotalMap κ α} (ht : E.PostSolution t) (hm : m.All Member)
    (htm : t.All Member) (hle : ∀ k, E.lattice.Below (m.get k) (t.get k)) {k : κ}
    (hk : k ∈ E.flow.domain) {y : α} (hy : E.evaluate k m = .ok y) :
    E.lattice.Below y (t.get k) := by
  obtain ⟨t', hstep, hpost⟩ := ht
  have ht' : E.evaluate k t = .ok (t'.get k) := (step_eq_ok_iff.mp hstep).2.1 k hk
  have hy_le : E.lattice.Below y (t'.get k) := evaluate_mono hL hmono hm htm hle hy ht'
  have hmem : Member y := evaluate_mem hL hE hm hy
  have hmem' : Member (t'.get k) := evaluate_mem hL hE htm ht'
  exact hL.below_trans hmem hmem' (htm.2 k) hy_le ((below_assignments_iff.mp hpost).2 k)

/-- The values are members of the lattice, with the bottom as default, and lie below every
post-solution. -/
structure Lower (E : Equations κ α) (Member : α → Prop) (m : TotalMap κ α) : Prop where
  default : m.default = E.lattice.bottom
  members : m.All Member
  below : ∀ t, t.All Member → E.PostSolution t → ∀ k, E.lattice.Below (m.get k) (t.get k)

theorem lower_bottom (hL : E.lattice.Lawful Member) : E.Lower Member E.bottom where
  default := rfl
  members := TotalMap.all_const hL.bottom_mem
  below t ht _ k := by
    rw [bottom, TotalMap.get_const]
    exact hL.bottom_below (ht.2 k)

theorem Lower.below_assignments (hL : E.lattice.Lawful Member) {m t : TotalMap κ α}
    (h : E.Lower Member m) (htm : t.All Member) (ht : E.PostSolution t) :
    E.assignments.Below m t := by
  rw [below_assignments_iff, h.default]
  exact ⟨hL.bottom_below htm.1, h.below t htm ht⟩

/-- A round keeps the values below every post-solution. -/
theorem Lower.step (hL : E.lattice.Lawful Member) (hE : E.Preserves Member)
    (hmono : E.Monotone Member) {m n : TotalMap κ α} (h : E.Lower Member m)
    (hstep : E.step m = .ok n) : E.Lower Member n := by
  obtain ⟨hdefault, hin, hout⟩ := step_eq_ok_iff.mp hstep
  refine ⟨hdefault, step_mem hL hE h.members hstep, fun t htm ht k => ?_⟩
  by_cases hk : k ∈ E.flow.domain
  · exact ht.evaluate_below hL hE hmono h.members htm (h.below t htm ht) hk (hin k hk)
  · rw [hout k hk]
    exact hL.bottom_below (htm.2 k)

/-- Two solutions below every post-solution are the same. -/
theorem Lower.eq_of_solved (hL : E.lattice.Lawful Member) {m n : TotalMap κ α}
    (hm : E.Lower Member m) (hn : E.Lower Member n) (hms : E.step m = .ok m)
    (hns : E.step n = .ok n) : m = n := by
  have hpost : ∀ {t : TotalMap κ α}, E.Lower Member t → E.step t = .ok t → E.PostSolution t := by
    intro t ht hts
    refine ⟨t, hts, below_assignments_iff.mpr ⟨hL.below_refl ht.members.1, fun k => ?_⟩⟩
    exact hL.below_refl (ht.members.2 k)
  refine TotalMap.ext_get (hm.default.trans hn.default.symm) fun k => ?_
  refine hL.below_antisymm (hm.members.2 k) (hn.members.2 k) ?_ ?_
  · exact hm.below n hn.members (hpost hn hns) k
  · exact hn.below m hm.members (hpost hm hms) k

end Equations

/-- What a round keeps, an ascent that ends keeps, and its last value is a fixpoint. -/
theorem Ascent.climb_invariant {α : Type} [DecidableEq α] {f : α → Except Fault α}
    (Inv : α → Prop) (hround : ∀ x y, Inv x → f x = .ok y → Inv y) :
    ∀ {budget : Nat} {a b : Ascent α}, Inv a.value → climb f budget a = .finished b →
      Inv b.value ∧ f b.value = .ok b.value := by
  intro budget
  induction budget with
  | zero => intro a b _ h; cases h
  | succ budget ih =>
    intro a b ha h
    rw [climb] at h
    cases hy : f a.value with
    | error fault => rw [hy] at h; cases h
    | ok y =>
      rw [hy] at h
      by_cases hsame : y = a.value
      · simp only [if_pos hsame] at h
        cases h
        exact ⟨hround _ _ ha hy, by rw [hsame] at hy ⊢; exact hy⟩
      · simp only [if_neg hsame] at h
        exact ih (hround _ _ ha hy) h

namespace Ascent

variable {α : Type} {L : Lattice α} {f : α → Except Fault α} {Inv : α → Prop}

/-- The value that a number of rounds from the bottom of a lattice leads to. -/
def after (L : Lattice α) (f : α → Except Fault α) : Nat → Except Fault α
  | 0 => .ok L.bottom
  | n + 1 => after L f n >>= f

/-- What a round keeps, any number of rounds keeps. -/
theorem after_invariant (hbottom : Inv L.bottom) (hround : ∀ {x y}, Inv x → f x = .ok y → Inv y) :
    ∀ {n : Nat} {x : α}, after L f n = .ok x → Inv x
  | 0, x, h => by
      obtain rfl : L.bottom = x := Except.ok.inj h
      exact hbottom
  | n + 1, x, h => by
      obtain ⟨w, hw, hwx⟩ := bind_eq_ok_iff.mp h
      exact hround (after_invariant hbottom hround hw) hwx

end Ascent

namespace Equations

variable {κ α : Type} [Ord κ] [Std.TransOrd κ] [Std.LawfulEqOrd κ] [DecidableEq κ]
  [DecidableEq α] {E : Equations κ α} {Member : α → Prop} {k : κ} {a b : Iteration κ α}

omit [DecidableEq κ] in
/-- Rounds from the bottom stay below every post-solution. -/
theorem lower_after (hL : E.lattice.Lawful Member) (hE : E.Preserves Member)
    (hmono : E.Monotone Member) (n : Nat) {t : TotalMap κ α}
    (h : Ascent.after E.assignments E.step n = .ok t) : E.Lower Member t :=
  Ascent.after_invariant (lower_bottom hL) (fun hlower => hlower.step hL hE hmono) h

/-- Without widening, a visit to a key of the domain keeps the values below every post-solution. -/
theorem Visit.lower (hL : E.lattice.Lawful Member) (hE : E.Preserves Member)
    (hmono : E.Monotone Member) (hv : E.Visit .never k a b) (hk : k ∈ E.flow.domain)
    (h : E.Lower Member a.values) : E.Lower Member b.values := by
  have hbelow : ∀ t, t.All Member → E.PostSolution t →
      ∀ j, E.lattice.Below (b.values.get j) (t.get j) := by
    intro t htm ht
    refine hv.below (fun y z hy _ hz => ?_) (h.below t htm ht)
    rw [jump_never] at hz
    cases hz
    exact ht.evaluate_below hL hE hmono h.members htm (h.below t htm ht) hk hy
  cases hv with
  | unchanged hy hvalues hpending =>
    rw [hvalues]
    exact h
  | changed y z hy hne hz hvalues hpending =>
    rw [jump_never] at hz
    cases hz
    rw [hvalues] at hbelow ⊢
    exact ⟨by simpa using h.default, h.members.set k (evaluate_mem hL hE h.members hy), hbelow⟩

/-- A run over the domain of a coherent flow that starts at the bottom and ends has reached a
solution below every post-solution. -/
theorem run_never_spec (hL : E.lattice.Lawful Member) (hE : E.Preserves Member)
    (hmono : E.Monotone Member) (hF : E.flow.Coherent) {budget : Nat}
    (hstart : a.values = E.bottom) (h : E.run .never budget E.flow.domain a = .finished b) :
    E.Lower Member b.values ∧ E.step b.values = .ok b.values := by
  have hstart' : E.Confined { a with pending := Worklist.empty.addAll E.flow.domain } :=
    confined_start hstart fun _ hk => hk
  have hend := run_never_stable hF (fun c => E.Lower Member c.values ∧ E.Confined c) ?_
    (fun _ hk => hk) ⟨hstart ▸ lower_bottom hL, hstart'⟩ h
  · obtain ⟨⟨hlower, hconf⟩, hstable⟩ := hend
    exact ⟨hlower, step_eq_self hconf hstable⟩
  · rintro c d k rest ⟨hlower, hconf⟩ hpop hv
    have hk : k ∈ E.flow.domain := hconf.pending k (by simp [hpop])
    exact ⟨hv.lower hL hE hmono hk hlower, hconf.visit hF hpop hv⟩

/-- Chaotic iteration and rounds compute the least solution: whenever both end, with monotone
transfer functions over a lawful lattice and along a graph or a coherent flow, they give the same
assignment, a step leaves it alone, and it is below every post-solution. -/
theorem solve_eq_solveByRounds (hL : E.lattice.Lawful Member) (hE : E.Preserves Member)
    (hmono : E.Monotone Member)
    (hF : (∃ g : Digraph κ, g.Built ∧ E.flow = g.flow) ∨ E.flow.Coherent)
    {budget rounds : Nat} {c : Ascent (TotalMap κ α)} (hb : E.solve {} budget a = .finished b)
    (hc : E.solveByRounds rounds = .finished c) :
    b.values = c.value ∧ E.step c.value = .ok c.value ∧
      ∀ t, t.All Member → E.PostSolution t → E.assignments.Below c.value t := by
  have hcoherent : E.flow.Coherent := by
    rcases hF with ⟨g, hg, hflow⟩ | hF
    · rw [hflow]
      exact hg.coherent
    · exact hF
  obtain ⟨fresh, d, hfresh, hrun, hbd⟩ := solve_eq_finished rfl hb
  obtain ⟨hd, hds⟩ := run_never_spec hL hE hmono hcoherent hfresh hrun
  obtain ⟨hlower, hfix⟩ := Ascent.climb_invariant (E.Lower Member)
    (fun _ _ h hstep => h.step hL hE hmono hstep) (lower_bottom hL) hc
  refine ⟨?_, hfix, fun t htm ht => hlower.below_assignments hL htm ht⟩
  rw [hbd]
  exact hd.eq_of_solved hL hlower hds hfix

/-- An example: a ring of two keys, fed by a third key and read by a fourth. -/
def ring : Equations Nat (Flat Nat) where
  lattice := Flat.lattice
  flow := (Digraph.ofArcs [(0, 1), (1, 2), (2, 1), (2, 3)]).flow
  transfer k x := .ok (if k = 0 then .simple 7 else if k = 3 then .top else x)

theorem monotone_ring : ring.Monotone fun _ => True := by
  intro k x y a b _ _ hxy ha hb
  have hrefl : ∀ z : Flat Nat, ring.lattice.Below z z :=
    fun _ => Flat.lattice_lawful.below_refl trivial
  cases ha
  cases hb
  by_cases h0 : k = 0
  · -- keys 0 and 3 do not look at what they read
    rw [if_pos h0, if_pos h0]
    exact hrefl _
  · by_cases h3 : k = 3
    · rw [if_neg h0, if_pos h3, if_neg h0, if_pos h3]
      exact hrefl _
    · rw [if_neg h0, if_neg h3, if_neg h0, if_neg h3]
      exact hxy

theorem solve_ring_eq_solveByRounds :
    ring.lattice.Lawful (fun _ => True) ∧ (∃ g : Digraph Nat, g.Built ∧ ring.flow = g.flow) ∧
      ∃ b c, ring.solve {} 9 (.start ring) = .finished b ∧ ring.solveByRounds 9 = .finished c ∧
        Iteration.values b = c.value ∧ ring.step c.value = .ok c.value ∧
        c.value.get 2 = .simple 7 ∧
        ∀ t, ring.PostSolution t → ring.assignments.Below c.value t := by
  have hg : ∃ g : Digraph Nat, g.Built ∧ ring.flow = g.flow := ⟨_, Digraph.built_ofArcs _, rfl⟩
  have hb : ring.solve {} 9 (.start ring) = .finished (ring.solve {} 9 (.start ring)).state := rfl
  have hc : ring.solveByRounds 9 = .finished (ring.solveByRounds 9).state := rfl
  refine ⟨Flat.lattice_lawful, hg, _, _, hb, hc, ?_⟩
  obtain ⟨heq, hfix, hleast⟩ := solve_eq_solveByRounds Flat.lattice_lawful
    (fun _ _ _ _ _ => trivial) monotone_ring (Or.inl hg) hb hc
  exact ⟨heq, hfix, by decide, fun t ht => hleast t ⟨trivial, fun _ => trivial⟩ ht⟩

end Equations

end StaticAnalysis
