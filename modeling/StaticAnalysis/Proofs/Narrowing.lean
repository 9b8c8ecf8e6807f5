import StaticAnalysis.Proofs.Stability

/-!
Narrowing. The rounds after a widened run apply the plain equations to values that need not solve
them. What the run leaves behind is a post-solution above all rounds from the bottom, and a round of
monotone equations keeps it so. Hence every narrowing round gives something more precise that is
still sound, and after a round that changes nothing all others change nothing either.
-/

namespace StaticAnalysis.Equations

variable {κ α : Type} [Ord κ] [Std.TransOrd κ] [DecidableEq α] {E : Equations κ α}
  {Member : α → Prop} {m n t : TotalMap κ α}

/-- The assignment that a number of rounds leads to. -/
def rounds (E : Equations κ α) (m : TotalMap κ α) : Nat → Except Fault (TotalMap κ α)
  | 0 => .ok m
  | i + 1 => E.rounds m i >>= E.step

theorem rounds_succ_eq_ok_iff {i : Nat} :
    E.rounds m (i + 1) = .ok t ↔ ∃ s, E.rounds m i = .ok s ∧ E.step s = .ok t :=
  bind_eq_ok_iff

/-- The first of several rounds can be made apart from the others. -/
theorem rounds_succ_eq_ok_iff_step {i : Nat} :
    E.rounds m (i + 1) = .ok t ↔ ∃ s, E.step m = .ok s ∧ E.rounds s i = .ok t := by
  induction i generalizing t with
  | zero => simp [rounds, bind, Except.bind]
  | succ i ih =>
    rw [rounds_succ_eq_ok_iff]
    constructor
    · rintro ⟨r, hr, ht⟩
      obtain ⟨s, hs, hr⟩ := ih.mp hr
      exact ⟨s, hs, rounds_succ_eq_ok_iff.mpr ⟨r, hr, ht⟩⟩
    · rintro ⟨s, hs, ht⟩
      obtain ⟨r, hr, ht⟩ := rounds_succ_eq_ok_iff.mp ht
      exact ⟨r, ih.mpr ⟨s, hs, hr⟩, ht⟩

/-- Once a round changes nothing, no later one does. -/
theorem rounds_of_le {i j : Nat} (hi : E.rounds m i = .ok n) (hn : E.step n = .ok n) (hij : i ≤ j) :
    E.rounds m j = .ok n := by
  induction j, hij using Nat.le_induction with
  | base => exact hi
  | succ j _ ih => exact rounds_succ_eq_ok_iff.mpr ⟨n, ih, hn⟩

/-! ### Rounds of monotone equations -/

section Rounds

variable [Std.LawfulEqOrd κ]

theorem rounds_total (hL : E.lattice.Lawful Member) (hT : E.Total Member) (hm : m.All Member) :
    ∀ i, ∃ t, E.rounds m i = .ok t ∧ t.All Member
  | 0 => ⟨m, rfl, hm⟩
  | i + 1 => by
      obtain ⟨r, hr, hrm⟩ := rounds_total hL hT hm i
      obtain ⟨t, ht, htm⟩ := step_total hL hT hrm
      exact ⟨t, rounds_succ_eq_ok_iff.mpr ⟨r, hr, ht⟩, htm⟩

/-- Values from which a step does not lead upwards, above all rounds from the bottom. -/
structure Upper (E : Equations κ α) (Member : α → Prop) (m : TotalMap κ α) : Prop where
  members : m.All Member
  descends : ∀ t, E.step m = .ok t → E.assignments.Below t m
  above : ∀ i t, Ascent.after E.assignments E.step i = .ok t → E.assignments.Below t m

variable (hL : E.lattice.Lawful Member) (hE : E.Preserves Member) (hmono : E.Monotone Member)

include hL hE hmono

theorem PostSolution.upper (hm : m.All Member) (h : E.PostSolution m) : E.Upper Member m where
  members := hm
  descends t ht := by
    obtain ⟨t', ht', hle⟩ := h
    obtain rfl : t' = t := Except.ok.inj (ht'.symm.trans ht)
    exact hle
  above i _ ht := (lower_after hL hE hmono i ht).below_assignments hL hm h

/-- A round keeps values above the rounds from the bottom, and the next round goes down again. -/
theorem Upper.step (h : E.Upper Member m) (hstep : E.step m = .ok n) : E.Upper Member n := by
  have hn : n.All Member := step_mem hL hE h.members hstep
  refine ⟨hn, fun t ht => step_mono hL hmono hn h.members (h.descends n hstep) ht hstep, ?_⟩
  rintro (_ | i) t ht
  · cases ht
    rw [below_assignments_iff, (step_eq_ok_iff.mp hstep).1]
    refine ⟨hL.below_refl hL.bottom_mem, fun k => ?_⟩
    rw [show E.assignments.bottom = E.bottom from rfl, bottom, TotalMap.get_const]
    exact hL.bottom_below (hn.2 k)
  · obtain ⟨r, hr, ht⟩ := bind_eq_ok_iff.mp ht
    exact step_mono hL hmono (lower_after hL hE hmono i hr).members h.members (h.above i r hr) ht hstep

theorem Upper.rounds (h : E.Upper Member m) :
    ∀ {i : Nat} {t : TotalMap κ α}, E.rounds m i = .ok t → E.Upper Member t
  | 0, _, ht => by cases ht; exact h
  | _ + 1, _, ht => by
      obtain ⟨r, hr, ht⟩ := rounds_succ_eq_ok_iff.mp ht
      exact (Upper.rounds h hr).step hL hE hmono ht

end Rounds

/-! ### Narrowing rounds -/

/-- Narrowing makes rounds. -/
theorem narrow_finished_iff : ∀ {i round : Nat} {a : Iteration κ α},
    (∃ b, E.narrow round i a = .finished b ∧ b.values = t) ↔ E.rounds a.values i = .ok t
  | 0, round, a => by simp [narrow, rounds]
  | i + 1, round, a => by
      rw [rounds_succ_eq_ok_iff_step, narrow]
      cases hs : E.step a.values with
      | error fault =>
        have hs' : E.step (a.note (.narrowing round)).values = .error fault := hs
        simp [hs']
      | ok s =>
        have hs' : E.step (a.note (.narrowing round)).values = .ok s := hs
        simp only [hs', Except.ok.injEq, exists_eq_left']
        exact narrow_finished_iff (a := (a.note (.narrowing round)).withValues s)

variable [DecidableEq κ] {s : Strategy κ α} {a : Iteration κ α} {i : Nat}

/-- Solving by a strategy ends, and the assignment is what it leads to. -/
def Result (E : Equations κ α) (s : Strategy κ α) (a : Iteration κ α) (m : TotalMap κ α) : Prop :=
  ∃ budget b, E.solve s budget a = .finished b ∧ b.values = m

/-- Solving with narrowing makes as many rounds from where its run has ended. -/
theorem solve_narrowing_finished_iff {budget : Nat} :
    (∃ b, E.solve { s with narrowing := i } budget a = .finished b ∧ b.values = t) ↔
      ∃ c, Agenda.drain (E.process s.widening) budget (E.seeded s a) = .finished c ∧
        E.rounds (Iteration.values c) i = .ok t := by
  have hsolve : E.solve { s with narrowing := i } budget a =
      (Agenda.drain (E.process s.widening) budget (E.seeded s a)).andThen fun c =>
        (E.narrow 1 i (Iteration.note c (.settled (Iteration.steps c)))).andThen fun c =>
          .finished (if i = 0 then c else Iteration.note c (.narrowed i)) := rfl
  have hvalues : ∀ d : Iteration κ α,
      (if i = 0 then d else d.note (.narrowed i)).values = d.values := fun d => by split <;> rfl
  have hnarrow : ∀ c : Iteration κ α,
      (∃ d, E.narrow 1 i (c.note (.settled c.steps)) = .finished d ∧ d.values = t) ↔
        E.rounds c.values i = .ok t := fun c => narrow_finished_iff
  rw [hsolve]
  constructor
  · rintro ⟨b, hb, rfl⟩
    obtain ⟨c, hc, hb⟩ := Outcome.andThen_eq_finished_iff.mp hb
    obtain ⟨d, hd, hb⟩ := Outcome.andThen_eq_finished_iff.mp hb
    cases hb
    exact ⟨c, hc, (hnarrow c).mp ⟨d, hd, (hvalues d).symm⟩⟩
  · rintro ⟨c, hc, ht⟩
    obtain ⟨d, hd, rfl⟩ := (hnarrow c).mpr ht
    refine ⟨_, ?_, hvalues d⟩
    rw [hc, Outcome.andThen_finished, hd, Outcome.andThen_finished]

/-- All numbers of narrowing rounds are made from the same end of a run. -/
theorem result_narrowing_iff {budget : Nat} {c : Iteration κ α}
    (hc : Agenda.drain (E.process s.widening) budget (E.seeded s a) = .finished c) :
    E.Result { s with narrowing := i } a t ↔ E.rounds c.values i = .ok t := by
  unfold Result
  simp only [solve_narrowing_finished_iff]
  constructor
  · rintro ⟨budget', d, hd, ht⟩
    obtain rfl : d = c := Agenda.drain_unique hd hc
    exact ht
  · exact fun ht => ⟨budget, c, hc, ht⟩

variable [Std.LawfulEqOrd κ]

/-- Narrowing after widening stays sound and only gets more precise. Solving over the whole domain by
a widening that only goes up and by monotone transfer functions, let the run end. If the transfer
functions are total, there is a result for every number of narrowing rounds. Each result is one that
a step does not leave upwards, it is above every round from the bottom, and another narrowing round
leads to something below it. Once that changes nothing, all later rounds change nothing. -/
theorem solve_narrowing_descends (hL : E.lattice.Lawful Member) (hE : E.Preserves Member)
    (hmono : E.Monotone Member)
    (hF : (∃ g : Digraph κ, g.Built ∧ E.flow = g.flow) ∨ E.flow.Coherent)
    (hw : s.widening.Extensive E.lattice Member)
    (hseed : ∀ k ∈ E.flow.domain, k ∈ s.seed.getD E.flow.domain)
    (hends : ∃ m, E.Result { s with narrowing := 0 } a m) :
    (E.Total Member → (∀ i, ∃ m, E.Result { s with narrowing := i } a m ∧ E.PostSolution m) ∧
      ∀ i, ∃ t, Ascent.after E.assignments E.step i = .ok t) ∧
    ∀ i m, E.Result { s with narrowing := i } a m →
      (∀ t, E.step m = .ok t → E.assignments.Below t m) ∧
      (∀ j t, Ascent.after E.assignments E.step j = .ok t → E.assignments.Below t m) ∧
      ∀ n, E.Result { s with narrowing := i + 1 } a n → E.assignments.Below n m ∧
        (n = m → ∀ j, i ≤ j → ∀ t, E.Result { s with narrowing := j } a t ↔ t = m) := by
  obtain ⟨_, budget, hresult⟩ := hends
  obtain ⟨c, hc, -⟩ := solve_narrowing_finished_iff.mp hresult
  have hiff := fun i t => result_narrowing_iff (i := i) (t := t) hc
  have hstart : (Iteration.values (E.seeded s a)).All Member := TotalMap.all_const hL.bottom_mem
  obtain ⟨hmembers, hpost⟩ :=
    run_postSolution hL hE hw (Digraph.coherent_of_flow hF) hseed hstart hc
  have hupper := hpost.upper hL hE hmono hmembers
  refine ⟨fun hT => ⟨fun i => ?_, fun i => ?_⟩, fun i m hm => ?_⟩
  · obtain ⟨t, ht, htm⟩ := rounds_total hL hT hmembers i
    obtain ⟨t', ht', -⟩ := step_total hL hT htm
    exact ⟨t, (hiff i t).mpr ht, t', ht', (hupper.rounds hL hE hmono ht).descends t' ht'⟩
  · exact (after_total hL hT i).imp fun _ h => h.1
  · rw [hiff] at hm
    have hm' := hupper.rounds hL hE hmono hm
    refine ⟨hm'.descends, hm'.above, fun n hn => ?_⟩
    rw [hiff] at hn
    obtain ⟨r, hr, hstep⟩ := rounds_succ_eq_ok_iff.mp hn
    obtain rfl : r = m := Except.ok.inj (hr.symm.trans hm)
    refine ⟨hm'.descends n hstep, ?_⟩
    rintro rfl j hij t
    rw [hiff, rounds_of_le hr hstep hij, Except.ok.injEq, eq_comm]

/-- The loop that was left without a bound has its bound again after three rounds, and no further
round changes that. -/
theorem solve_hundred_narrowing_descends :
    hundredStrategy.widening.Extensive hundred.lattice (fun _ => True) ∧
      ∃ m n, hundred.Result { hundredStrategy with narrowing := 0 } (.start hundred) m ∧
        hundred.Result { hundredStrategy with narrowing := 3 } (.start hundred) n ∧
        m.get 3 = .infinite ∧ n.get 3 = .finite 100 ∧
        (∀ i, ∃ t, Ascent.after hundred.assignments hundred.step i = .ok t ∧
          hundred.assignments.Below t n) ∧
        ∀ j, 3 ≤ j → ∀ t,
          hundred.Result { hundredStrategy with narrowing := j } (.start hundred) t ↔ t = n := by
  let values (i : Nat) : TotalMap Nat Extent :=
    Iteration.values (hundred.solve { hundredStrategy with narrowing := i } 20 (.start hundred)).state
  have h₀ : hundred.Result { hundredStrategy with narrowing := 0 } (.start hundred) (values 0) :=
    ⟨20, _, rfl, rfl⟩
  have h₃ : hundred.Result { hundredStrategy with narrowing := 3 } (.start hundred) (values 3) :=
    ⟨20, _, rfl, rfl⟩
  have h₄ : hundred.Result { hundredStrategy with narrowing := 4 } (.start hundred) (values 4) :=
    ⟨20, _, rfl, rfl⟩
  have hw : hundredStrategy.widening.Extensive hundred.lattice fun _ => True :=
    (Extent.lawful_giveUpAt 3 _).isExtensive
  obtain ⟨htotal, hdescends⟩ := solve_narrowing_descends Extent.lattice_lawful
    (fun _ _ _ _ _ => trivial) monotone_hundred (Or.inl ⟨_, Digraph.built_ofArcs _, rfl⟩) hw
    (fun _ hk => hk) ⟨_, h₀⟩
  obtain ⟨-, habove, hnext⟩ := hdescends 3 _ h₃
  obtain ⟨-, hsame⟩ := hnext _ h₄
  refine ⟨hw, values 0, values 3, h₀, h₃, by decide, by decide, fun i => ?_, hsame (by decide)⟩
  obtain ⟨t, ht⟩ := (htotal fun _ _ _ => ⟨_, rfl, trivial⟩).2 i
  exact ⟨t, ht, habove i t ht⟩

end StaticAnalysis.Equations
