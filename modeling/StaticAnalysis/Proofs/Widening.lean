import StaticAnalysis.Proofs.Chaotic

/-!
The laws of a widening, and what they mean for a single visit. A widening is a monotone closure
whose closed values admit no infinite ascent. With monotone transfer functions the values of an
iteration from the bottom then only rise, and the values of widened keys are closed.
-/

namespace StaticAnalysis

/-- The laws of a widening: it is defined on all members, monotone, idempotent and extensive, and
its values contain no infinite strictly ascending chain. -/
structure Widening.Lawful {κ α : Type} (w : Widening κ α) (L : Lattice α) (Member : α → Prop) :
    Prop where
  total : ∀ {x}, Member x → ∃ y, w.widen x = .ok y ∧ Member y
  mono : ∀ {x y a b}, Member x → Member y → L.Below x y → w.widen x = .ok a → w.widen y = .ok b →
    L.Below a b
  idem : ∀ {x a}, Member x → w.widen x = .ok a → w.widen a = .ok a
  extensive : ∀ {x a}, Member x → w.widen x = .ok a → L.Below x a
  chain : ¬ ∃ f : Nat → α, ∀ n, (∃ x, Member x ∧ w.widen x = .ok (f n)) ∧
    L.Below (f n) (f (n + 1)) ∧ f n ≠ f (n + 1)

/-- A widening that only goes up: its value at a member is a member and not below it. -/
def Widening.Extensive {κ α : Type} (w : Widening κ α) (L : Lattice α) (Member : α → Prop) : Prop :=
  ∀ {x y}, Member x → w.widen x = .ok y → Member y ∧ L.Below x y

theorem Widening.Lawful.isExtensive {κ α : Type} {w : Widening κ α} {L : Lattice α}
    {Member : α → Prop} (hw : w.Lawful L Member) : w.Extensive L Member := by
  intro x y hx hy
  obtain ⟨z, hz, hzm⟩ := hw.total hx
  obtain rfl : y = z := Except.ok.inj (hy.symm.trans hz)
  exact ⟨hzm, hw.extensive hx hy⟩

/-- How far an extent can still rise before it gives up. -/
def Extent.room (n : Int) : Extent → WithTop Nat
  | .unreached => ⊤
  | .finite m => .some ((n - m).toNat + 1)
  | .infinite => .some 0

theorem Extent.room_lt {n : Int} {x y : Extent} (hy : y.giveUpAt n = y) (hxy : x.max y = y)
    (hne : x ≠ y) : y.room n < x.room n := by
  cases x with
  | unreached =>
    cases y with
    | unreached => exact absurd rfl hne
    | finite m => exact WithTop.coe_lt_top _
    | infinite => exact WithTop.coe_lt_top _
  | finite l =>
    cases y with
    | unreached => cases hxy
    | finite m =>
      have hm : ¬ n ≤ m := by
        intro h
        rw [Extent.giveUpAt, if_pos h] at hy
        cases hy
      have hlm : l ≤ m ∧ l ≠ m := by
        simp only [Extent.max, Extent.finite.injEq] at hxy
        refine ⟨?_, fun h => hne (congrArg _ h)⟩
        by_contra h
        rw [if_neg h] at hxy
        omega
      exact WithTop.coe_lt_coe.mpr (by omega)
    | infinite => exact WithTop.coe_lt_coe.mpr (by omega)
  | infinite =>
    cases y with
    | unreached => cases hxy
    | finite m => cases hxy
    | infinite => exact absurd rfl hne

theorem Extent.giveUpAt_mono {n : Int} {x y : Extent} (hxy : x.max y = y) :
    (x.giveUpAt n).max (y.giveUpAt n) = y.giveUpAt n := by
  cases x <;> cases y <;> simp only [Extent.max, Extent.giveUpAt] at hxy ⊢ <;> grind [Extent.max]

theorem Extent.giveUpAt_idem (n : Int) (x : Extent) : (x.giveUpAt n).giveUpAt n = x.giveUpAt n := by
  cases x with
  | unreached => rfl
  | infinite => rfl
  | finite m => by_cases h : n ≤ m <;> simp [Extent.giveUpAt, h]

theorem Extent.max_giveUpAt (n : Int) (x : Extent) : x.max (x.giveUpAt n) = x.giveUpAt n := by
  cases x with
  | unreached => rfl
  | infinite => rfl
  | finite m => by_cases h : n ≤ m <;> simp [Extent.giveUpAt, h, Extent.max]

/-- Giving up at a threshold is a widening along any edges. -/
theorem Extent.lawful_giveUpAt {κ : Type} (n : Int) (isBackedge : κ → κ → Bool) :
    Widening.Lawful ⟨fun x => .ok (giveUpAt n x), isBackedge⟩ lattice fun _ => True where
  total _ := ⟨_, rfl, trivial⟩
  mono := by
    intro x y a b _ _ hxy ha hb
    cases ha
    cases hb
    exact below_iff.mpr (giveUpAt_mono (below_iff.mp hxy))
  idem := by
    intro x a _ ha
    cases ha
    exact congrArg Except.ok (giveUpAt_idem n x)
  extensive := by
    intro x a _ ha
    cases ha
    exact below_iff.mpr (max_giveUpAt n x)
  chain := by
    rintro ⟨f, hf⟩
    obtain ⟨i, hi⟩ := WellFounded.not_rel_apply_succ (r := (· < ·)) fun i => (f i).room n
    obtain ⟨⟨x, -, hx⟩, -, -⟩ := hf (i + 1)
    have hclosed : (f (i + 1)).giveUpAt n = f (i + 1) := by
      rw [← Except.ok.inj hx, giveUpAt_idem]
    exact hi (room_lt hclosed (below_iff.mp (hf i).2.1) (hf i).2.2)

namespace Equations

variable {κ α : Type} {E : Equations κ α} {w : Widening κ α} {Member : α → Prop} {k : κ}

theorem jump_total (hw : w.Lawful E.lattice Member) {y : α} (hy : Member y) :
    ∃ z, E.jump w k y = .ok z ∧ Member z := by
  unfold jump
  split
  · exact hw.total hy
  · exact ⟨y, rfl, hy⟩

theorem jump_mono (hw : w.Lawful E.lattice Member) {x y a b : α} (hx : Member x) (hy : Member y)
    (hxy : E.lattice.Below x y) (ha : E.jump w k x = .ok a) (hb : E.jump w k y = .ok b) :
    E.lattice.Below a b := by
  unfold jump at ha hb
  split at ha
  · next h => exact hw.mono hx hy hxy ha (by rw [if_pos h] at hb; exact hb)
  · next h =>
    rw [if_neg h] at hb
    cases ha
    cases hb
    exact hxy

theorem jump_idem (hw : w.Lawful E.lattice Member) {x a : α} (hx : Member x)
    (ha : E.jump w k x = .ok a) : E.jump w k a = .ok a := by
  unfold jump at ha ⊢
  split
  · next h => exact hw.idem hx (by rw [if_pos h] at ha; exact ha)
  · rfl

theorem jump_extensive (hL : E.lattice.Lawful Member) (hw : w.Extensive E.lattice Member) {x a : α}
    (hx : Member x) (ha : E.jump w k x = .ok a) : Member a ∧ E.lattice.Below x a := by
  unfold jump at ha
  split at ha
  · exact hw hx ha
  · cases ha
    exact ⟨hx, hL.below_refl hx⟩

theorem below_jump (hL : E.lattice.Lawful Member) (hw : w.Lawful E.lattice Member) {x a : α}
    (hx : Member x) (ha : E.jump w k x = .ok a) : E.lattice.Below x a :=
  (jump_extensive hL hw.isExtensive hx ha).2

theorem jump_mem (hw : w.Lawful E.lattice Member) {x a : α} (hx : Member x)
    (ha : E.jump w k x = .ok a) : Member a := by
  obtain ⟨z, hz, hm⟩ := jump_total (k := k) hw hx
  rw [ha] at hz
  cases hz
  exact hm

variable [Ord κ] [Std.TransOrd κ] {m n : TotalMap κ α}

variable [DecidableEq α]

/-- Narrowing rounds come to an end. -/
theorem narrow_total [Std.LawfulEqOrd κ] (hL : E.lattice.Lawful Member) (hT : E.Total Member) :
    ∀ (rounds round : Nat) {a : Iteration κ α}, a.values.All Member →
      ∃ b, E.narrow round rounds a = .finished b
  | 0, _, a, _ => ⟨a, rfl⟩
  | rounds + 1, round, a, ha => by
      obtain ⟨n, hn, hnm⟩ := step_total hL hT ha
      have hn' : E.step (a.note (.narrowing round)).values = .ok n := hn
      obtain ⟨b, hb⟩ := narrow_total hL hT rounds (round + 1)
        (a := (a.note (.narrowing round)).withValues n) hnm
      refine ⟨b, ?_⟩
      rw [narrow]
      simp only [hn']
      exact hb

/-- Where the value of a key is heading: its right-hand side, widened unless it is the bottom. A
right-hand side that is the bottom is never stored, because no value is below it. -/
def target (E : Equations κ α) (w : Widening κ α) (k : κ) (m : TotalMap κ α) : Except Fault α :=
  do
    let y ← E.evaluate k m
    if y = E.lattice.bottom then return y else E.jump w k y

theorem target_of_evaluate {y : α} (hy : E.evaluate k m = .ok y) :
    E.target w k m = if y = E.lattice.bottom then .ok y else E.jump w k y := by
  rw [target, hy]
  rfl

/-- Larger values head for larger values. -/
theorem target_mono (hL : E.lattice.Lawful Member) (hT : E.Total Member)
    (hmono : E.Monotone Member) (hw : w.Lawful E.lattice Member) (hm : m.All Member)
    (hn : n.All Member) (hle : ∀ j, E.lattice.Below (m.get j) (n.get j)) {b : α}
    (hb : E.target w k n = .ok b) :
    ∃ a, E.target w k m = .ok a ∧ Member a ∧ Member b ∧ E.lattice.Below a b := by
  obtain ⟨x, hx, hxm⟩ := evaluate_total hL hT hm k
  obtain ⟨y, hy, hym⟩ := evaluate_total hL hT hn k
  have hxy : E.lattice.Below x y := evaluate_mono hL hmono hm hn hle hx hy
  rw [target_of_evaluate hy] at hb
  rw [target_of_evaluate hx]
  have hbm : Member b := by
    split at hb
    · cases hb
      exact hym
    · exact jump_mem hw hym hb
  by_cases hxb : x = E.lattice.bottom
  · -- the smaller right-hand side is the bottom and is not widened
    refine ⟨x, if_pos hxb, hxm, hbm, ?_⟩
    rw [hxb]
    exact hL.bottom_below hbm
  · -- neither is the bottom, so both are widened or neither is
    have hyb : y ≠ E.lattice.bottom := by
      rintro rfl
      exact hxb (hL.below_antisymm hxm hL.bottom_mem hxy (hL.bottom_below hxm))
    rw [if_neg hyb] at hb
    obtain ⟨a, ha, ham⟩ := jump_total (k := k) hw hxm
    exact ⟨a, by rw [if_neg hxb, ha], ham, hbm, jump_mono hw hxm hym hxy ha hb⟩

/-- The values of an iteration on its way up: every value is at most what its key heads for, and it
is the bottom or closed under the jump. -/
structure Rising (E : Equations κ α) (w : Widening κ α) (Member : α → Prop)
    (m : TotalMap κ α) : Prop where
  members : m.All Member
  below_target : ∀ {k z}, E.target w k m = .ok z → E.lattice.Below (m.get k) z
  closed : ∀ k, m.get k = E.lattice.bottom ∨ E.jump w k (m.get k) = .ok (m.get k)

theorem rising_bottom (hL : E.lattice.Lawful Member) (hT : E.Total Member)
    (hmono : E.Monotone Member) (hw : w.Lawful E.lattice Member) :
    E.Rising w Member E.bottom := by
  have hall : (E.bottom : TotalMap κ α).All Member := TotalMap.all_const hL.bottom_mem
  refine ⟨hall, ?_, fun k => Or.inl (TotalMap.get_const ..)⟩
  intro k z hz
  obtain ⟨-, -, -, hzm, -⟩ :=
    target_mono hL hT hmono hw hall hall (fun j => hL.below_refl (hall.2 j)) hz
  rw [bottom, TotalMap.get_const]
  exact hL.bottom_below hzm

/-- A key whose right-hand side is its value has what it heads for. -/
theorem Rising.target_of_unchanged (h : E.Rising w Member m)
    (hy : E.evaluate k m = .ok (m.get k)) : E.target w k m = .ok (m.get k) := by
  rw [target_of_evaluate hy]
  split
  · rfl
  · next hne => exact (h.closed k).resolve_left hne

/-- A stored value is what its key heads for, and not the bottom. -/
theorem Rising.target_of_changed (hL : E.lattice.Lawful Member)
    (hw : w.Lawful E.lattice Member) (h : E.Rising w Member m) {y z : α} (hym : Member y)
    (hy : E.evaluate k m = .ok y) (hne : y ≠ m.get k) (hz : E.jump w k y = .ok z) :
    E.target w k m = .ok z ∧ z ≠ E.lattice.bottom := by
  have hyb : y ≠ E.lattice.bottom := by
    rintro rfl
    have htarget : E.target w k m = .ok E.lattice.bottom := by
      rw [target_of_evaluate hy, if_pos rfl]
    have hmem := h.members.2 k
    exact hne (hL.below_antisymm hL.bottom_mem hmem (hL.bottom_below hmem)
      (h.below_target htarget))
  refine ⟨by rw [target_of_evaluate hy, if_neg hyb, hz], ?_⟩
  rintro rfl
  exact hyb (hL.below_antisymm hym hL.bottom_mem (below_jump hL hw hym hz) (hL.bottom_below hym))

variable [DecidableEq κ]

theorem process_total (hL : E.lattice.Lawful Member) (hT : E.Total Member)
    (hw : ∀ {x}, Member x → ∃ y, w.widen x = .ok y) {a : Iteration κ α} (ha : a.values.All Member)
    (k : κ) : ∃ b, E.process w k a = .finished b := by
  obtain ⟨y, hy, hym⟩ := evaluate_total hL hT ha k
  obtain ⟨z, hz⟩ := hw hym
  have hy' : E.evaluate k a.tick.values = .ok y := hy
  unfold process
  simp only [hy', hz]
  -- unchanged, widened, or stored as it is
  split
  · exact ⟨_, rfl⟩
  · split
    · exact ⟨_, rfl⟩
    · exact ⟨_, rfl⟩

variable [Std.LawfulEqOrd κ] {a b : Iteration κ α}

/-- A visit raises values only, and keeps them on their way up. -/
theorem Visit.rising (hL : E.lattice.Lawful Member) (hT : E.Total Member)
    (hmono : E.Monotone Member) (hw : w.Lawful E.lattice Member) (hv : E.Visit w k a b)
    (h : E.Rising w Member a.values) :
    E.Rising w Member b.values ∧ ∀ j, E.lattice.Below (a.values.get j) (b.values.get j) := by
  cases hv with
  | unchanged hy hvalues hpending =>
    rw [hvalues]
    exact ⟨h, fun j => hL.below_refl (h.members.2 j)⟩
  | changed y z hy hne hz hvalues hpending =>
    have hym : Member y := evaluate_mem hL hT.preserves h.members hy
    have hzm : Member z := jump_mem hw hym hz
    obtain ⟨htarget, -⟩ := h.target_of_changed hL hw hym hy hne hz
    have hall : (a.values.set k z).All Member := h.members.set k hzm
    have hup : ∀ j, E.lattice.Below (a.values.get j) ((a.values.set k z).get j) := by
      intro j
      by_cases hkj : k = j
      · -- the visited key goes up to where it heads
        subst hkj
        rw [TotalMap.get_set_self]
        exact h.below_target htarget
      · -- the others stay
        rw [TotalMap.get_set_of_ne _ hkj]
        exact hL.below_refl (h.members.2 j)
    rw [hvalues]
    refine ⟨⟨hall, ?_, ?_⟩, hup⟩
    · -- where a key heads goes up with the values, so it is still above the value of the key
      intro j z' hz'
      obtain ⟨x, hx, hxm, hzm', hxz⟩ := target_mono hL hT hmono hw h.members hall hup hz'
      by_cases hkj : k = j
      · subst hkj
        rw [htarget] at hx
        cases hx
        rw [TotalMap.get_set_self]
        exact hxz
      · rw [TotalMap.get_set_of_ne _ hkj]
        exact hL.below_trans (h.members.2 j) hxm hzm' (h.below_target hx) hxz
    · -- a widened value does not change when it is widened again
      intro j
      by_cases hkj : k = j
      · subst hkj
        rw [TotalMap.get_set_self]
        exact Or.inr (jump_idem hw hym hz)
      · rw [TotalMap.get_set_of_ne _ hkj]
        exact h.closed j

end Equations

end StaticAnalysis
