import StaticAnalysis.Fixpoint.Equations
import StaticAnalysis.Proofs.TotalMap

/-!
What one evaluation does. The join of the values that a key reads is their least upper bound, the
right-hand side of an equation depends on nothing else, and a step is the assignment that gives
every key of the domain its right-hand side and every other key the bottom. All three respect the
order if the transfer functions do.
-/

namespace StaticAnalysis.Equations

variable {κ α : Type}

/-- The transfer functions take members of the lattice to members. -/
def Preserves (E : Equations κ α) (Member : α → Prop) : Prop :=
  ∀ k x y, Member x → E.transfer k x = .ok y → Member y

/-- The transfer functions are defined on all members and take them to members. -/
def Total (E : Equations κ α) (Member : α → Prop) : Prop :=
  ∀ k x, Member x → ∃ y, E.transfer k x = .ok y ∧ Member y

theorem Total.preserves {E : Equations κ α} {Member : α → Prop} (h : E.Total Member) :
    E.Preserves Member := by
  intro k x y hx hy
  obtain ⟨y', hy', hm⟩ := h k x hx
  rw [hy] at hy'
  cases hy'
  exact hm

/-- The transfer functions respect the order wherever they have a value. -/
def Monotone (E : Equations κ α) (Member : α → Prop) : Prop :=
  ∀ k x y a b, Member x → Member y → E.lattice.Below x y →
    E.transfer k x = .ok a → E.transfer k y = .ok b → E.lattice.Below a b

variable [Ord κ] [Std.TransOrd κ] {E : Equations κ α} {Member : α → Prop} {k : κ}
  {m n : TotalMap κ α}

/-- The join is the least upper bound of the values that a key reads. -/
theorem join_spec (hL : E.lattice.Lawful Member) (hm : m.All Member) (k : κ) :
    ∃ z, E.join k m = .ok z ∧ Member z ∧
      (∀ j ∈ E.flow.incoming k, E.lattice.Below (m.get j) z) ∧
      ∀ w, Member w → (∀ j ∈ E.flow.incoming k, E.lattice.Below (m.get j) w) →
        E.lattice.Below z w := by
  obtain ⟨z, hz, hzm, -, hup, hleast⟩ :=
    hL.fold_lub m.get (E.flow.incoming k) E.lattice.bottom hL.bottom_mem fun j _ => hm.2 j
  exact ⟨z, hz, hzm, hup, fun w hw h => hleast w hw (hL.bottom_below hw) h⟩

/-- It does not count in which order a key reads others, nor how often. -/
theorem join_eq_of_mem_iff (hL : E.lattice.Lawful Member) (hm : m.All Member) {F : Flow κ}
    (hF : ∀ j, j ∈ F.incoming k ↔ j ∈ E.flow.incoming k) :
    join { E with flow := F } k m = E.join k m := by
  obtain ⟨x, hx, hxm, hup, hleast⟩ := join_spec hL hm k
  obtain ⟨y, hy, hym, hup', hleast'⟩ := join_spec (E := { E with flow := F }) hL hm k
  have hxy : E.lattice.Below x y := hleast y hym fun j hj => hup' j ((hF j).mpr hj)
  have hyx : E.lattice.Below y x := hleast' x hxm fun j hj => hup j ((hF j).mp hj)
  rw [hx, hy, hL.below_antisymm hxm hym hxy hyx]

theorem foldlM_lub_congr (L : Lattice α) : ∀ (ks : List κ) (a : α),
    (∀ j ∈ ks, m.get j = n.get j) →
    ks.foldlM (fun acc j => L.lub acc (m.get j)) a = ks.foldlM (fun acc j => L.lub acc (n.get j)) a
  | [], _, _ => rfl
  | j :: ks, a, h => by
      rw [List.foldlM_cons, List.foldlM_cons, h j (List.mem_cons_self ..)]
      refine bind_congr fun b => ?_
      exact foldlM_lub_congr L ks b fun i hi => h i (List.mem_cons_of_mem _ hi)

/-- A right-hand side depends on the values that the key reads and on no others. -/
theorem evaluate_congr (h : ∀ j ∈ E.flow.incoming k, m.get j = n.get j) :
    E.evaluate k m = E.evaluate k n := by
  unfold evaluate join
  rw [foldlM_lub_congr E.lattice _ _ h]

/-- A right-hand side that has a value is the transfer of a join of members. -/
theorem evaluate_eq_ok (hL : E.lattice.Lawful Member) (hm : m.All Member) {y : α}
    (h : E.evaluate k m = .ok y) :
    ∃ z, E.join k m = .ok z ∧ Member z ∧ E.transfer k z = .ok y := by
  obtain ⟨z, hz, hzm, -⟩ := join_spec hL hm k
  refine ⟨z, hz, hzm, ?_⟩
  rw [evaluate, hz] at h
  exact h

theorem evaluate_mem (hL : E.lattice.Lawful Member) (hE : E.Preserves Member) (hm : m.All Member)
    {y : α} (h : E.evaluate k m = .ok y) : Member y := by
  obtain ⟨z, -, hzm, hy⟩ := evaluate_eq_ok hL hm h
  exact hE k z y hzm hy

theorem evaluate_total (hL : E.lattice.Lawful Member) (hT : E.Total Member) (hm : m.All Member)
    (k : κ) : ∃ y, E.evaluate k m = .ok y ∧ Member y := by
  obtain ⟨z, hz, hzm, -⟩ := join_spec hL hm k
  obtain ⟨y, hy, hym⟩ := hT k z hzm
  refine ⟨y, ?_, hym⟩
  rw [evaluate, hz]
  exact hy

/-- Larger values have larger right-hand sides. -/
theorem evaluate_mono (hL : E.lattice.Lawful Member) (hE : E.Monotone Member) (hm : m.All Member)
    (hn : n.All Member) (hle : ∀ j, E.lattice.Below (m.get j) (n.get j)) {a b : α}
    (ha : E.evaluate k m = .ok a) (hb : E.evaluate k n = .ok b) : E.lattice.Below a b := by
  obtain ⟨x, hx, hxm, hxa⟩ := evaluate_eq_ok hL hm ha
  obtain ⟨y, hy, hym, hyb⟩ := evaluate_eq_ok hL hn hb
  refine hE k x y a b hxm hym ?_ hxa hyb
  obtain ⟨x', hx', -, -, hleast⟩ := join_spec hL hm k
  obtain ⟨y', hy', -, hup, -⟩ := join_spec hL hn k
  obtain rfl : x = x' := by rw [hx] at hx'; injection hx'
  obtain rfl : y = y' := by rw [hy] at hy'; injection hy'
  exact hleast y hym fun j hj =>
    hL.below_trans (hm.2 j) (hn.2 j) hym (hle j) (hup j hj)

variable [Std.LawfulEqOrd κ] [DecidableEq α]

/-- A step gives every key of the domain its right-hand side and every other key the bottom. -/
theorem step_eq_ok_iff : E.step m = .ok n ↔
    n.default = E.lattice.bottom ∧ (∀ k ∈ E.flow.domain, E.evaluate k m = .ok (n.get k)) ∧
      ∀ k, k ∉ E.flow.domain → n.get k = E.lattice.bottom := by
  have h := TotalMap.foldlM_set_eq_ok_iff (fun k => E.evaluate k m) E.flow.domain E.bottom n
  simp only [bottom, TotalMap.get_const] at h
  exact h

omit [Std.LawfulEqOrd κ] in
/-- A step succeeds where all right-hand sides have values. -/
theorem exists_step (h : ∀ k ∈ E.flow.domain, ∃ y, E.evaluate k m = .ok y) :
    ∃ n, E.step m = .ok n :=
  TotalMap.exists_foldlM_set _ _ h

omit [Std.LawfulEqOrd κ] in
/-- A step fails at the first key whose right-hand side has no value. -/
theorem step_eq_error_iff {fault : Fault} : E.step m = .error fault ↔
    ∃ before k after, E.flow.domain = before ++ k :: after ∧
      (∀ j ∈ before, ∃ y, E.evaluate j m = .ok y) ∧ E.evaluate k m = .error fault :=
  TotalMap.foldlM_set_eq_error_iff (fun k => E.evaluate k m) E.flow.domain E.bottom

theorem step_mem (hL : E.lattice.Lawful Member) (hE : E.Preserves Member) (hm : m.All Member)
    (h : E.step m = .ok n) : n.All Member := by
  obtain ⟨hdefault, hin, hout⟩ := step_eq_ok_iff.mp h
  refine ⟨hdefault ▸ hL.bottom_mem, fun k => ?_⟩
  by_cases hk : k ∈ E.flow.domain
  · exact evaluate_mem hL hE hm (hin k hk)
  · rw [hout k hk]
    exact hL.bottom_mem

theorem step_total (hL : E.lattice.Lawful Member) (hT : E.Total Member) (hm : m.All Member) :
    ∃ n, E.step m = .ok n ∧ n.All Member := by
  obtain ⟨n, hn⟩ := exists_step (E := E) (m := m) fun k _ =>
    (evaluate_total hL hT hm k).imp fun _ h => h.1
  exact ⟨n, hn, step_mem hL hT.preserves hm hn⟩

/-- The order of assignments, key by key. -/
theorem below_assignments_iff : E.assignments.Below m n ↔
    E.lattice.Below m.default n.default ∧ ∀ k, E.lattice.Below (m.get k) (n.get k) :=
  Lattice.below_totalMap_iff

/-- A step respects the order of assignments. -/
theorem step_mono (hL : E.lattice.Lawful Member) (hmono : E.Monotone Member) (hm : m.All Member)
    (hn : n.All Member) (hle : E.assignments.Below m n) {m' n' : TotalMap κ α}
    (hm' : E.step m = .ok m') (hn' : E.step n = .ok n') : E.assignments.Below m' n' := by
  obtain ⟨hdefault, hin, hout⟩ := step_eq_ok_iff.mp hm'
  obtain ⟨hdefault', hin', hout'⟩ := step_eq_ok_iff.mp hn'
  refine below_assignments_iff.mpr ⟨?_, fun k => ?_⟩
  · -- the default is the bottom in both
    rw [hdefault, hdefault']
    exact hL.below_refl hL.bottom_mem
  · by_cases hk : k ∈ E.flow.domain
    · exact evaluate_mono hL hmono hm hn (below_assignments_iff.mp hle).2 (hin k hk) (hin' k hk)
    · -- outside the domain both have the bottom
      rw [hout k hk, hout' k hk]
      exact hL.below_refl hL.bottom_mem

/-- A step is the simultaneous update of all keys. Whatever the lattice, the flow, the transfer
functions and the values are, every key of the domain gets its right-hand side at the old values and
every other key gets the bottom, or the step stops at the first key whose right-hand side has no
value. Over a lawful lattice the join is the least upper bound of the values that a key reads, also if
it reads them in another order or more than once. With monotone transfer functions larger values lead
to larger values. -/
theorem step_simultaneous (E : Equations κ α) :
    (∀ m : TotalMap κ α,
      (∃ n, E.step m = .ok n ∧ n.default = E.lattice.bottom ∧
        (∀ k ∈ E.flow.domain, E.evaluate k m = .ok (n.get k)) ∧
        ∀ k, k ∉ E.flow.domain → n.get k = E.lattice.bottom) ∨
      ∃ fault, E.step m = .error fault ∧
        ∃ before k after, E.flow.domain = before ++ k :: after ∧
          (∀ j ∈ before, ∃ y, E.evaluate j m = .ok y) ∧ E.evaluate k m = .error fault) ∧
    ∀ Member : α → Prop, E.lattice.Lawful Member →
      (∀ m : TotalMap κ α, m.All Member → ∀ k,
        ∃ z, E.join k m = .ok z ∧ Member z ∧
          (∀ j ∈ E.flow.incoming k, E.lattice.Below (m.get j) z) ∧
          (∀ w, Member w → (∀ j ∈ E.flow.incoming k, E.lattice.Below (m.get j) w) →
            E.lattice.Below z w) ∧
          ∀ F : Flow κ, (∀ j, j ∈ F.incoming k ↔ j ∈ E.flow.incoming k) →
            join { E with flow := F } k m = .ok z) ∧
      (E.Monotone Member → ∀ s t : TotalMap κ α, s.All Member → t.All Member →
        E.assignments.Below s t →
        (∀ s' t', E.step s = .ok s' → E.step t = .ok t' → E.assignments.Below s' t') ∧
        (E.Total Member →
          ∃ s' t', E.step s = .ok s' ∧ E.step t = .ok t' ∧ E.assignments.Below s' t')) := by
  refine ⟨fun m => ?_, fun Member hL => ⟨fun m hm k => ?_, fun hmono s t hs ht hst => ?_⟩⟩
  · cases hstep : E.step m with
    | ok n => exact Or.inl ⟨n, rfl, step_eq_ok_iff.mp hstep⟩
    | error fault => exact Or.inr ⟨fault, rfl, step_eq_error_iff.mp hstep⟩
  · obtain ⟨z, hz, hzm, hup, hleast⟩ := join_spec hL hm k
    exact ⟨z, hz, hzm, hup, hleast, fun F hF => (join_eq_of_mem_iff hL hm hF).trans hz⟩
  · refine ⟨fun _ _ => step_mono hL hmono hs ht hst, fun hT => ?_⟩
    obtain ⟨s', hs', -⟩ := step_total hL hT hs
    obtain ⟨t', ht', -⟩ := step_total hL hT ht
    exact ⟨s', t', hs', ht', step_mono hL hmono hs ht hst hs' ht'⟩

/-- An example: a key that is listed twice reads another one twice, which has no equation. -/
def echo : Equations Nat (Flat Nat) where
  lattice := Flat.lattice
  flow := .ofRows [1, 2, 1] [(1, [0, 2, 0]), (2, [1])] []
  transfer _ x := .ok x

/-- Values at two keys without an equation, of which one is read. -/
def echoValues : TotalMap Nat (Flat Nat) := .ofList .bottom [(0, .simple 7), (5, .simple 9)]

theorem step_echo_simultaneous :
    echo.lattice.Lawful (fun _ => True) ∧ echo.Monotone (fun _ => True) ∧
      echo.assignments.Below echoValues (echoValues.set 2 (.simple 8)) ∧
      join { echo with flow := .ofRows [] [(1, [2, 0])] [] } 1 (echoValues.set 2 (.simple 8)) =
        .ok .top ∧
      ∃ s t, echo.step echoValues = .ok s ∧ echo.step (echoValues.set 2 (.simple 8)) = .ok t ∧
        s.get 1 = .simple 7 ∧ t.get 1 = .top ∧ s.get 5 = .bottom ∧ echo.assignments.Below s t := by
  have hL : echo.lattice.Lawful fun _ => True := Flat.lattice_lawful
  have hmono : echo.Monotone fun _ => True := by
    rintro k x y a b - - hxy ⟨⟩ ⟨⟩
    exact hxy
  have hle : echo.assignments.leq echoValues (echoValues.set 2 (.simple 8)) = .ok true := rfl
  obtain ⟨hvalues, hlawful⟩ := step_simultaneous echo
  obtain ⟨hjoin, hsteps⟩ := hlawful _ hL
  have hget : ∀ m n, echo.step m = .ok n →
      echo.evaluate 1 m = .ok (n.get 1) ∧ n.get 5 = .bottom := by
    intro m n hn
    rcases hvalues m with ⟨n', hn', -, hin, hout⟩ | ⟨fault, hfault, -⟩
    · obtain rfl : n = n' := Except.ok.inj (hn.symm.trans hn')
      exact ⟨hin 1 (by decide), hout 5 (by decide)⟩
    · cases hn.symm.trans hfault
  obtain ⟨z, hz, -, -, -, hreads⟩ :=
    hjoin (echoValues.set 2 (.simple 8)) ⟨trivial, fun _ => trivial⟩ 1
  obtain rfl : z = .top := Except.ok.inj (hz.symm.trans rfl)
  obtain ⟨s, t, hs, ht, hst⟩ := (hsteps hmono _ _ ⟨trivial, fun _ => trivial⟩
    ⟨trivial, fun _ => trivial⟩ hle).2 fun _ x _ => ⟨x, rfl, trivial⟩
  refine ⟨hL, hmono, hle, hreads _ fun j => ?_, s, t, hs, ht, ?_, ?_, (hget _ _ hs).2, hst⟩
  · -- the keys that are read are the same, in another order
    show j ∈ [2, 0] ↔ j ∈ [0, 2, 0]
    simp only [List.mem_cons, List.not_mem_nil, or_false]
    omega
  · exact Except.ok.inj ((hget _ _ hs).1.symm.trans rfl)
  · exact Except.ok.inj ((hget _ _ ht).1.symm.trans rfl)

end StaticAnalysis.Equations
