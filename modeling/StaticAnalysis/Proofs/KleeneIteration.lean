import StaticAnalysis.Proofs.FiniteHeight

/-!
Ascending iteration, round by round. The loop compares the value of a round with the one before it
and stops at the first that is the same; the round that changed nothing counts as well. So it ends if
and only if some iterate of the function is repeated at once, and then with the first such iterate.

With a monotone function the iterates form an ascending chain, which has no more steps than the
lattice is high. They stay below everything that the function does not leave upwards, and so does the
fixpoint they end in.
-/

namespace StaticAnalysis

/-- The function takes members of the lattice to members and respects the order. -/
structure Lattice.MonotoneOn {α : Type} (L : Lattice α) (Member : α → Prop)
    (f : α → Except Fault α) : Prop where
  total : ∀ {x}, Member x → ∃ y, f x = .ok y ∧ Member y
  mono : ∀ {x y a b}, Member x → Member y → L.Below x y → f x = .ok a → f y = .ok b → L.Below a b

theorem Lattice.MonotoneOn.mem {α : Type} {L : Lattice α} {Member : α → Prop}
    {f : α → Except Fault α} (hf : L.MonotoneOn Member f) {x y : α} (hx : Member x)
    (hy : f x = .ok y) : Member y := by
  obtain ⟨y', hy', hmem⟩ := hf.total hx
  obtain rfl : y' = y := Except.ok.inj (hy'.symm.trans hy)
  exact hmem

namespace Ascent

variable {α : Type} {L : Lattice α} {f : α → Except Fault α} {m n : Nat} {x y : α}

/-! ### The first iterate that is repeated -/

/-- So many rounds lead to the value, and each of them has changed something. -/
structure Climbed (L : Lattice α) (f : α → Except Fault α) (n : Nat) (x : α) : Prop where
  reached : after L f n = .ok x
  changed : ∀ m < n, after L f (m + 1) ≠ after L f m

/-- After this number of rounds another one changes nothing, for the first time. -/
structure FirstRepeat (L : Lattice α) (f : α → Except Fault α) (n : Nat) (x : α) : Prop
    extends Climbed L f n x where
  repeated : after L f (n + 1) = .ok x

theorem after_succ_of_eq (h : after L f n = .ok x) : after L f (n + 1) = f x := by
  rw [after, h]
  rfl

/-- The rounds before one that has a value have values as well. -/
theorem exists_after_of_le (hmn : m ≤ n) (h : after L f n = .ok x) :
    ∃ y, after L f m = .ok y := by
  induction hmn generalizing x with
  | refl => exact ⟨x, h⟩
  | step _ ih =>
    obtain ⟨y, hy, -⟩ := bind_eq_ok_iff.mp h
    exact ih hy

theorem climbed_zero : Climbed L f 0 L.bottom := ⟨rfl, nofun⟩

/-- A round that changes something leads on. -/
theorem Climbed.succ (h : Climbed L f n x) (hy : f x = .ok y) (hne : y ≠ x) :
    Climbed L f (n + 1) y := by
  have hnext := (after_succ_of_eq h.reached).trans hy
  refine ⟨hnext, fun m hm => ?_⟩
  rcases Nat.lt_succ_iff_lt_or_eq.mp hm with hm | rfl
  · exact h.changed m hm
  · rw [hnext, h.reached]
    exact fun heq => hne (Except.ok.inj heq)

theorem Climbed.firstRepeat (h : Climbed L f n x) (hx : f x = .ok x) : FirstRepeat L f n x :=
  ⟨h, (after_succ_of_eq h.reached).trans hx⟩

theorem FirstRepeat.fixpoint (h : FirstRepeat L f n x) : f x = .ok x :=
  (after_succ_of_eq h.reached).symm.trans h.repeated

theorem Climbed.le (hm : Climbed L f m x) (hn : FirstRepeat L f n y) : m ≤ n := by
  by_contra hlt
  exact hm.changed n (by omega) (hn.repeated.trans hn.reached.symm)

theorem FirstRepeat.unique (hm : FirstRepeat L f m x) (hn : FirstRepeat L f n y) :
    m = n ∧ x = y := by
  obtain rfl : m = n := Nat.le_antisymm (hm.toClimbed.le hn) (hn.toClimbed.le hm)
  exact ⟨rfl, Except.ok.inj (hm.reached.symm.trans hn.reached)⟩

/-- If an iterate is repeated, there is a first one that is. -/
theorem exists_firstRepeat (hreached : after L f n = .ok x) (hrepeated : after L f (n + 1) = .ok x) :
    ∃ m ≤ n, ∃ y, FirstRepeat L f m y := by
  induction n using Nat.strongRecOn generalizing x with
  | ind n ih =>
    by_cases hearlier : ∃ m < n, after L f (m + 1) = after L f m
    · obtain ⟨m, hmn, hm⟩ := hearlier
      obtain ⟨y, hy⟩ := exists_after_of_le (Nat.le_of_lt hmn) hreached
      obtain ⟨i, him, hi⟩ := ih m hmn hy (hm.trans hy)
      exact ⟨i, by omega, hi⟩
    · exact ⟨n, Nat.le_refl n, x, ⟨hreached, fun m hm h => hearlier ⟨m, hm, h⟩⟩, hrepeated⟩

/-! ### The loop -/

section Loop

variable [DecidableEq α] {budget : Nat} {a b : Ascent α}

/-- From a value that was climbed to, the loop ends with the first value that is repeated, if the
budget goes that far. -/
theorem Climbed.finished_iff (h : Climbed L f m x) : climb f budget ⟨x, m⟩ = .finished b ↔
    ∃ n < m + budget, FirstRepeat L f n b.value ∧ b.rounds = n + 1 := by
  induction budget generalizing m x with
  | zero =>
    constructor
    · intro hfinished
      cases hfinished
    · -- the first repeat comes no sooner than where the climb stands
      rintro ⟨n, hlt, hn, -⟩
      have hle := h.le hn
      omega
  | succ budget ih =>
    rw [climb]
    cases hy : f x with
    | error fault =>
      constructor
      · intro hfinished
        cases hfinished
      · -- a repeat further on would need a value here
        rintro ⟨n, -, hn, -⟩
        obtain ⟨y, hy'⟩ := exists_after_of_le (Nat.succ_le_succ (h.le hn)) hn.repeated
        rw [after_succ_of_eq h.reached, hy] at hy'
        cases hy'
    | ok y =>
      by_cases hyx : y = x
      · -- the value repeats: this is the first repeat, and there is no other
        subst hyx
        have hfirst := h.firstRepeat hy
        simp only [if_true, Outcome.finished.injEq]
        constructor
        · rintro rfl
          exact ⟨m, by omega, hfirst, rfl⟩
        · rintro ⟨n, -, hn, hrounds⟩
          obtain ⟨rfl, rfl⟩ := hfirst.unique hn
          rw [← hrounds]
      · -- it does not, and the climb goes on
        simp only [if_neg hyx]
        rw [ih (h.succ hy hyx), Nat.add_right_comm, Nat.add_assoc]

theorem solve_finished_iff : solve L f budget = .finished a ↔
    ∃ n < budget, FirstRepeat L f n a.value ∧ a.rounds = n + 1 := by
  refine climbed_zero.finished_iff.trans ?_
  rw [Nat.zero_add]

end Loop

/-! ### Monotone functions -/

section Monotone

variable {Member : α → Prop} (hL : L.Lawful Member) (hf : L.MonotoneOn Member f)

include hL hf

theorem after_mem (h : after L f n = .ok x) : Member x :=
  after_invariant hL.bottom_mem hf.mem h

/-- The iterates ascend. -/
theorem below_after_succ : ∀ {n : Nat} {x y : α}, after L f n = .ok x → f x = .ok y → L.Below x y
  | 0, x, y, hx, hy => by
      obtain rfl : L.bottom = x := Except.ok.inj hx
      exact hL.bottom_below (hf.mem hL.bottom_mem hy)
  | n + 1, x, y, hx, hy => by
      obtain ⟨w, hw, hwx⟩ := bind_eq_ok_iff.mp hx
      exact hf.mono (after_mem hL hf hw) (after_mem hL hf hx) (below_after_succ hw hwx) hwx hy

/-- Rounds that change something are the steps of an ascending chain. -/
theorem Climbed.ascends : ∀ {n : Nat} {x : α}, Climbed L f n x → L.Ascends Member n x
  | 0, x, h => by
      obtain rfl : L.bottom = x := Except.ok.inj h.reached
      exact .bottom
  | n + 1, x, h => by
      obtain ⟨w, hw, hwx⟩ := bind_eq_ok_iff.mp h.reached
      have hbefore : Climbed L f n w := ⟨hw, fun m hm => h.changed m (by omega)⟩
      refine .step hbefore.ascends (after_mem hL hf h.reached) (below_after_succ hL hf hw hwx) ?_
      rintro rfl
      exact h.changed n (Nat.lt_succ_self n) (h.reached.trans hw.symm)

/-- An iterate is repeated after no more rounds than the lattice is high. -/
theorem exists_firstRepeat_le {H : Nat} (hH : L.HeightAtMost Member H) :
    ∃ n ≤ H, ∃ x, FirstRepeat L f n x := by
  by_contra hnone
  have hclimb : ∀ n ≤ H + 1, ∃ x, Climbed L f n x := by
    intro n
    induction n with
    | zero => exact fun _ => ⟨_, climbed_zero⟩
    | succ n ih =>
      intro hn
      obtain ⟨x, hx⟩ := ih (by omega)
      obtain ⟨y, hy, -⟩ := hf.total (after_mem hL hf hx.reached)
      refine ⟨y, hx.succ hy ?_⟩
      rintro rfl
      exact hnone ⟨n, by omega, y, hx.firstRepeat hy⟩
  obtain ⟨x, hx⟩ := hclimb (H + 1) (Nat.le_refl _)
  have hle := hH _ _ (hx.ascends hL hf)
  omega

/-- The iterates are below everything that the function does not leave upwards. -/
theorem after_below {t t' : α} (ht : Member t) (hft : f t = .ok t') (hpost : L.Below t' t)
    (h : after L f n = .ok x) : L.Below x t := by
  have hround : ∀ {x y}, Member x ∧ L.Below x t → f x = .ok y → Member y ∧ L.Below y t := by
    rintro x y ⟨hx, hxt⟩ hy
    have hym : Member y := hf.mem hx hy
    have hyt' : L.Below y t' := hf.mono hx ht hxt hy hft
    exact ⟨hym, hL.below_trans hym (hf.mem ht hft) ht hyt' hpost⟩
  exact (after_invariant ⟨hL.bottom_mem, hL.bottom_below ht⟩ hround h).2

end Monotone

/-- Ascending iteration ends if and only if some iterate of the function is repeated at once. If the
first such iterate is the one after `n` rounds, it ends with that iterate and a count of `n + 1`, once
the budget is larger than `n`. A solver that was used before does the same again. Over a lawful
lattice that is `H` steps high, a monotone function has such an iterate; the count is at most `H + 1`,
and the result is a fixpoint below everything that the function does not leave upwards. -/
theorem solve_first_repeat [DecidableEq α] (L : Lattice α) (f : α → Except Fault α) :
    ((∃ budget a, solve L f budget = .finished a) ↔
      ∃ n x, after L f n = .ok x ∧ after L f (n + 1) = .ok x) ∧
    (∀ n x, FirstRepeat L f n x →
      ∀ budget a, solve L f budget = .finished a ↔ n < budget ∧ a = ⟨x, n + 1⟩) ∧
    (∀ budget before, solveAgain L f budget before = solve L f budget) ∧
    ∀ (Member : α → Prop) (H : Nat), L.Lawful Member → L.MonotoneOn Member f →
      L.HeightAtMost Member H →
      ∃ a, (∀ budget, H < budget → solve L f budget = .finished a) ∧ a.rounds ≤ H + 1 ∧
        Member a.value ∧ f a.value = .ok a.value ∧
        ∀ t t', Member t → f t = .ok t' → L.Below t' t → L.Below a.value t := by
  have hfirst : ∀ n x, FirstRepeat L f n x →
      ∀ budget a, solve L f budget = .finished a ↔ n < budget ∧ a = ⟨x, n + 1⟩ := by
    intro n x hx budget a
    rw [solve_finished_iff]
    constructor
    · rintro ⟨m, hm, ha, hrounds⟩
      obtain ⟨rfl, rfl⟩ := hx.unique ha
      exact ⟨hm, by rw [← hrounds]⟩
    · rintro ⟨hn, rfl⟩
      exact ⟨n, hn, hx, rfl⟩
  refine ⟨⟨?_, ?_⟩, hfirst, fun _ _ => rfl, fun Member H hL hf hH => ?_⟩
  · -- an end is a repeat
    rintro ⟨budget, a, h⟩
    obtain ⟨n, -, ha, -⟩ := solve_finished_iff.mp h
    exact ⟨n, a.value, ha.reached, ha.repeated⟩
  · -- a repeat comes from a first one, where solving ends
    rintro ⟨n, x, hreached, hrepeated⟩
    obtain ⟨m, -, y, hm⟩ := exists_firstRepeat hreached hrepeated
    exact ⟨m + 1, _, (hfirst m y hm _ _).mpr ⟨Nat.lt_succ_self m, rfl⟩⟩
  · -- a monotone function on a lattice of bounded height has a first repeat within the height
    obtain ⟨n, hn, x, hx⟩ := exists_firstRepeat_le hL hf hH
    refine ⟨⟨x, n + 1⟩, fun budget hbudget => ?_, Nat.succ_le_succ hn,
      after_mem hL hf hx.reached, hx.fixpoint, fun t t' ht hft hpost => ?_⟩
    · exact (hfirst n x hx budget _).mpr ⟨by omega, rfl⟩
    · exact after_below hL hf ht hft hpost hx.reached

/-- An example: from the bottom to a number, and from any number to the top. -/
def giveUp : Flat Nat → Except Fault (Flat Nat)
  | .bottom => .ok (.simple 7)
  | _ => .ok .top

theorem monotoneOn_giveUp : Flat.lattice.MonotoneOn (fun _ => True) giveUp where
  total {x} _ := by
    cases x <;> exact ⟨_, rfl, trivial⟩
  mono {x y a b} _ _ hxy ha hb := by
    refine Flat.below_iff.mpr ?_
    rcases Flat.below_iff.mp hxy with rfl | rfl | rfl
    · cases ha
      cases y <;> cases hb <;> simp
    · exact Or.inr (Or.inl (Except.ok.inj (ha.symm.trans hb)))
    · cases hb
      exact Or.inr (Or.inr rfl)

/-- Three rounds, which is one more than the lattice is high, and again three. -/
theorem solve_giveUp_first_repeat :
    FirstRepeat Flat.lattice giveUp 2 .top ∧ Flat.lattice.MonotoneOn (fun _ => True) giveUp ∧
      (Flat.lattice (α := Nat)).HeightAtMost (fun _ => True) 2 ∧
      solve Flat.lattice giveUp 3 = .finished ⟨.top, 3⟩ ∧
      solveAgain Flat.lattice giveUp 3 ⟨.top, 3⟩ = .finished ⟨.top, 3⟩ ∧
      ∃ a, solve Flat.lattice giveUp 3 = .finished a ∧ a.rounds ≤ 3 ∧
        giveUp a.value = .ok a.value ∧
        ∀ t t', giveUp t = .ok t' → Flat.lattice.Below t' t → Flat.lattice.Below a.value t := by
  have hfirst : FirstRepeat Flat.lattice giveUp 2 .top := by
    refine ⟨⟨rfl, fun m hm => ?_⟩, rfl⟩
    rcases Nat.lt_succ_iff_lt_or_eq.mp hm with hm | rfl
    · obtain rfl : m = 0 := by omega
      decide
    · decide
  obtain ⟨-, hresult, hagain, hheight⟩ := solve_first_repeat Flat.lattice giveUp
  have hsolve := (hresult 2 .top hfirst 3 _).mpr ⟨by decide, rfl⟩
  obtain ⟨a, ha, hrounds, -, hfix, hleast⟩ :=
    hheight _ 2 Flat.lattice_lawful monotoneOn_giveUp Flat.heightAtMost_two
  exact ⟨hfirst, monotoneOn_giveUp, Flat.heightAtMost_two, hsolve, (hagain 3 _).trans hsolve, a,
    ha 3 (by decide), hrounds, hfix, fun t t' => hleast t t' trivial⟩

end Ascent

end StaticAnalysis
