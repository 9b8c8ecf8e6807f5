import StaticAnalysis.Fixpoint.Chaotic
import StaticAnalysis.Proofs.Agenda
import StaticAnalysis.Proofs.Equations
import StaticAnalysis.Proofs.Flow

/-!
Single visits of a chaotic iteration. A visit either finds the value of its key unchanged, or it
stores the new value, widened where an edge to a reader closes a cycle, and lets the readers wait.
Everything that holds throughout a run is derived from these two cases.
-/

namespace StaticAnalysis

namespace Equations

variable {κ α : Type}

/-- Whether new values of a key are widened: some edge to a reader closes a cycle. -/
def widens (E : Equations κ α) (w : Widening κ α) (k : κ) : Bool :=
  (E.flow.outgoing k).any (w.isBackedge k)

/-- The value that is stored for a new value of a key. -/
def jump (E : Equations κ α) (w : Widening κ α) (k : κ) (y : α) : Except Fault α :=
  if E.widens w k then w.widen y else .ok y

theorem jump_never (E : Equations κ α) (k : κ) (y : α) : E.jump .never k y = .ok y := by
  simp [jump, widens, Widening.never]

variable [Ord κ] [Std.TransOrd κ] [DecidableEq κ] [DecidableEq α]

/-- What a visit to a key does to the values and to the worklist. -/
inductive Visit (E : Equations κ α) (w : Widening κ α) (k : κ) (a b : Iteration κ α) : Prop where
  /-- The right-hand side is the value that the key has. -/
  | unchanged (hy : E.evaluate k a.values = .ok (a.values.get k)) (hvalues : b.values = a.values)
      (hpending : b.pending = a.pending)
  /-- The right-hand side is another value. -/
  | changed (y z : α) (hy : E.evaluate k a.values = .ok y) (hne : y ≠ a.values.get k)
      (hz : E.jump w k y = .ok z) (hvalues : b.values = a.values.set k z)
      (hpending : b.pending = a.pending.addAll (E.flow.outgoing k))

variable {E : Equations κ α} {w : Widening κ α} {k : κ} {a b : Iteration κ α}

/-- Processing a key is a visit. -/
theorem visit_of_process (h : E.process w k a = .finished b) : E.Visit w k a b := by
  unfold process at h
  cases hy : E.evaluate k a.tick.values with
  | error fault => simp [hy] at h
  | ok y =>
    simp only [hy] at h
    by_cases hsame : y = a.tick.values.get k
    · -- the value is the same
      rw [if_pos hsame] at h
      cases h
      exact .unchanged (hsame ▸ hy) rfl rfl
    · rw [if_neg hsame] at h
      by_cases hback : (E.flow.outgoing k).any (w.isBackedge k) = true
      · -- an edge to a reader closes a cycle: the widened value is stored
        rw [if_pos hback] at h
        cases hz : w.widen y with
        | error fault => simp [hz] at h
        | ok z =>
          simp only [hz] at h
          cases h
          refine .changed y z hy hsame ?_ rfl rfl
          rw [jump, widens, if_pos hback, hz]
      · -- no such edge: the value itself is stored
        rw [if_neg hback] at h
        cases h
        refine .changed y y hy hsame ?_ rfl rfl
        rw [jump, widens, if_neg hback]

/-- Processing a key is a visit, or it meets a fault and leaves the values and the worklist alone. -/
theorem process_cases (E : Equations κ α) (w : Widening κ α) (k : κ) (a : Iteration κ α) :
    (∃ b, E.process w k a = .finished b ∧ E.Visit w k a b) ∨
      ∃ fault b, E.process w k a = .faulted fault b ∧ b.values = a.values ∧ b.pending = a.pending := by
  cases h : E.process w k a with
  | finished b => exact Or.inl ⟨b, rfl, visit_of_process h⟩
  | faulted fault b =>
    refine Or.inr ⟨fault, b, rfl, ?_⟩
    unfold process at h
    grind [Iteration.tick, Iteration.note, Iteration.values]
  | unfinished b =>
    unfold process at h
    grind

/-- The iteration that solving starts from. -/
def seeded (E : Equations κ α) (s : Strategy κ α) (a : Iteration κ α) : Iteration κ α where
  pending := Worklist.empty.addAll (s.seed.getD E.flow.domain)
  state := { values := E.bottom, steps := 0, events := a.state.events }

omit [DecidableEq α] in
theorem mem_pending_seeded {s : Strategy κ α} {k : κ} :
    k ∈ (E.seeded s a).pending.pending ↔ k ∈ s.seed.getD E.flow.domain := by
  show k ∈ (Worklist.empty.addAll (s.seed.getD E.flow.domain)).pending ↔ _
  rw [Worklist.mem_pending_addAll]
  simp [Worklist.empty]

/-- Solving drains the worklist of the seed, then makes the narrowing rounds. -/
theorem solve_eq_drain (s : Strategy κ α) (budget : Nat) : E.solve s budget a =
    (Agenda.drain (E.process s.widening) budget (E.seeded s a)).andThen fun c =>
      (E.narrow 1 s.narrowing (Iteration.note c (.settled (Iteration.steps c)))).andThen fun c =>
        .finished (if s.narrowing = 0 then c else Iteration.note c (.narrowed s.narrowing)) :=
  rfl

/-- Solving without narrowing is a run from the bottom. -/
theorem solve_eq_finished {s : Strategy κ α} {budget : Nat} (hs : s.narrowing = 0)
    (h : E.solve s budget a = .finished b) :
    ∃ fresh c : Iteration κ α, fresh.values = E.bottom ∧
      E.run s.widening budget (s.seed.getD E.flow.domain) fresh = .finished c ∧
      b.values = c.values := by
  let fresh : Iteration κ α :=
    { a with state := { values := E.bottom, steps := 0, events := a.state.events } }
  unfold solve at h
  rw [hs] at h
  change (E.run s.widening budget (s.seed.getD E.flow.domain) fresh).andThen
    (fun c => .finished (c.note (.settled c.steps))) = .finished b at h
  obtain ⟨c, hrun, h⟩ := Outcome.andThen_eq_finished_iff.mp h
  cases h
  exact ⟨fresh, c, rfl, hrun, rfl⟩

variable [Std.LawfulEqOrd κ]

omit [DecidableEq κ] in
/-- A key that does not read another one is not affected by it. -/
theorem evaluate_set_of_not_mem {m : TotalMap κ α} {j : κ} (h : k ∉ E.flow.incoming j) (z : α) :
    E.evaluate j (m.set k z) = E.evaluate j m := by
  refine evaluate_congr fun i hi => TotalMap.get_set_of_ne _ ?_ _
  rintro rfl
  exact h hi

/-- The right-hand side of a key has a value, and it stands in a relation to the value that the key
has. -/
def Holds (E : Equations κ α) (R : α → α → Prop) (k : κ) (m : TotalMap κ α) : Prop :=
  ∃ y, E.evaluate k m = .ok y ∧ R y (m.get k)

omit [DecidableEq κ] [DecidableEq α] [Std.LawfulEqOrd κ] in
theorem holds_eq_iff {m : TotalMap κ α} :
    E.Holds (· = ·) k m ↔ E.evaluate k m = .ok (m.get k) := by
  simp [Holds]

/-- What relates right-hand sides to values holds after a visit to `k` at every key that does not
wait, if it held before at those that did not wait and the new value of `k` is in that relation. -/
theorem Visit.holds_of_not_mem {R : α → α → Prop} {j : κ} (hv : E.Visit w k a b)
    (hlisted : k ∈ E.flow.incoming j → j ∈ E.flow.outgoing k)
    (hrefl : R (a.values.get k) (a.values.get k))
    (hjump : ∀ y z, E.evaluate k a.values = .ok y → E.jump w k y = .ok z → R y z)
    (hj : j ∉ k :: a.pending.pending → E.Holds R j a.values) (hwait : j ∉ b.pending.pending) :
    E.Holds R j b.values := by
  cases hv with
  | unchanged hy hvalues hpending =>
    rw [hpending] at hwait
    rw [hvalues]
    rcases eq_or_ne j k with rfl | hjk
    · exact ⟨_, hy, hrefl⟩
    · exact hj (by simp [hjk, hwait])
  | changed y z hy hne hz hvalues hpending =>
    rw [hpending, Worklist.mem_pending_addAll, not_or] at hwait
    -- a key that reads `k` waits now, so `j` reads what it read before
    have hread : k ∉ E.flow.incoming j := fun hk => hwait.2 (hlisted hk)
    rw [hvalues, Holds, evaluate_set_of_not_mem hread]
    rcases eq_or_ne j k with rfl | hjk
    · exact ⟨y, hy, by simpa using hjump y z hy hz⟩
    · rw [TotalMap.get_set_of_ne _ hjk.symm]
      exact hj (by simp [hjk, hwait.1])

/-- A visit changes the value of no other key. -/
theorem Visit.get_of_ne {j : κ} (hv : E.Visit w k a b) (hkj : k ≠ j) :
    b.values.get j = a.values.get j := by
  cases hv with
  | unchanged hy hvalues hpending => rw [hvalues]
  | changed y z hy hne hz hvalues hpending => rw [hvalues, TotalMap.get_set_of_ne _ hkj]

/-- A visit stores members only, if the jump leads to members. -/
theorem Visit.members {Member : α → Prop} (hL : E.lattice.Lawful Member) (hE : E.Preserves Member)
    (hjump : ∀ y z, Member y → E.jump w k y = .ok z → Member z) (hv : E.Visit w k a b)
    (h : a.values.All Member) : b.values.All Member := by
  cases hv with
  | unchanged hy hvalues hpending =>
    rw [hvalues]
    exact h
  | changed y z hy hne hz hvalues hpending =>
    rw [hvalues]
    exact h.set k (hjump y z (evaluate_mem hL hE h hy) hz)

/-- A visit leads nowhere above an assignment that is above the value it stores. -/
theorem Visit.below {t : TotalMap κ α} (hv : E.Visit w k a b)
    (hk : ∀ y z, E.evaluate k a.values = .ok y → y ≠ a.values.get k → E.jump w k y = .ok z →
      E.lattice.Below z (t.get k))
    (h : ∀ j, E.lattice.Below (a.values.get j) (t.get j)) (j : κ) :
    E.lattice.Below (b.values.get j) (t.get j) := by
  cases hv with
  | unchanged hy hvalues hpending =>
    rw [hvalues]
    exact h j
  | changed y z hy hne hz hvalues hpending =>
    rw [hvalues]
    rcases eq_or_ne k j with rfl | hkj
    · simpa using hk y z hy hne hz
    · rw [TotalMap.get_set_of_ne _ hkj]
      exact h j

/-- Every key of the domain outside a list has its right-hand side as its value. -/
def StableOff (E : Equations κ α) (ks : List κ) (m : TotalMap κ α) : Prop :=
  ∀ k ∈ E.flow.domain, k ∉ ks → E.evaluate k m = .ok (m.get k)

omit [Std.LawfulEqOrd κ] in
/-- What every visit keeps, a run that ends keeps, and it leaves nothing waiting. -/
theorem run_invariant {budget : Nat} {seed : List κ} (Inv : Iteration κ α → Prop)
    (hvisit : ∀ (c d : Iteration κ α) (k : κ) (rest : List κ), Inv c →
      c.pending.pending = k :: rest → E.Visit w k { c with pending := ⟨rest⟩ } d → Inv d)
    (hstart : Inv { a with pending := Worklist.empty.addAll seed })
    (h : E.run w budget seed a = .finished b) : Inv b ∧ b.pending.pending = [] :=
  Agenda.drain_invariant Inv
    (fun c d k rest hc hpop hd => hvisit c d k rest hc hpop (visit_of_process hd)) hstart h

/-- A run that ends, from a seed that has all keys of the domain, leaves the right-hand sides of all
these keys in the relation to their values in which every visit puts them. -/
theorem run_holds {R : α → α → Prop} {budget : Nat} {seed : List κ} (hF : E.flow.Coherent)
    (Inv : Iteration κ α → Prop)
    (hvisit : ∀ (c d : Iteration κ α) (k : κ) (rest : List κ), Inv c →
      c.pending.pending = k :: rest → E.Visit w k { c with pending := ⟨rest⟩ } d → Inv d)
    (hrefl : ∀ c k, Inv c → R (c.values.get k) (c.values.get k))
    (hjump : ∀ c k y z, Inv c → E.evaluate k c.values = .ok y → E.jump w k y = .ok z → R y z)
    (hseed : ∀ k ∈ E.flow.domain, k ∈ seed)
    (hstart : Inv { a with pending := Worklist.empty.addAll seed })
    (h : E.run w budget seed a = .finished b) :
    Inv b ∧ ∀ k ∈ E.flow.domain, E.Holds R k b.values := by
  have hend := run_invariant
    (fun c => Inv c ∧ ∀ j ∈ E.flow.domain, j ∉ c.pending.pending → E.Holds R j c.values) ?_ ?_ h
  · obtain ⟨⟨hInv, hoff⟩, hnil⟩ := hend
    exact ⟨hInv, fun k hk => hoff k hk (by simp [hnil])⟩
  · rintro c d k rest ⟨hc, hoff⟩ hpop hv
    refine ⟨hvisit c d k rest hc hpop hv, fun j hj hwait => ?_⟩
    refine hv.holds_of_not_mem (hF.listed j hj k) (hrefl c k hc) (hjump c k · · hc) ?_ hwait
    exact fun hjk => hoff j hj (by simpa [hpop] using hjk)
  · refine ⟨hstart, fun j hj hwait => absurd (hseed j hj) ?_⟩
    simpa [Worklist.mem_pending_addAll, Worklist.empty] using hwait

/-- Without widening, a run that ends leaves all keys of the domain with their right-hand sides as
their values. -/
theorem run_never_stable {budget : Nat} {seed : List κ} (hF : E.flow.Coherent)
    (Inv : Iteration κ α → Prop)
    (hvisit : ∀ (c d : Iteration κ α) (k : κ) (rest : List κ), Inv c →
      c.pending.pending = k :: rest → E.Visit .never k { c with pending := ⟨rest⟩ } d → Inv d)
    (hseed : ∀ k ∈ E.flow.domain, k ∈ seed)
    (hstart : Inv { a with pending := Worklist.empty.addAll seed })
    (h : E.run .never budget seed a = .finished b) : Inv b ∧ E.StableOff [] b.values := by
  have hjump : ∀ (c : Iteration κ α) k y z, Inv c → E.evaluate k c.values = .ok y →
      E.jump .never k y = .ok z → y = z := by
    intro c k y z _ _ hz
    simpa [jump_never] using hz
  obtain ⟨hInv, hholds⟩ :=
    run_holds (R := (· = ·)) hF Inv hvisit (fun _ _ _ => rfl) hjump hseed hstart h
  exact ⟨hInv, fun k hk _ => holds_eq_iff.mp (hholds k hk)⟩

/-- Only keys of the domain wait, and only they have other values than the bottom. -/
structure Confined (E : Equations κ α) (a : Iteration κ α) : Prop where
  pending : ∀ k ∈ a.pending.pending, k ∈ E.flow.domain
  default : a.values.default = E.lattice.bottom
  values : ∀ k, k ∉ E.flow.domain → a.values.get k = E.lattice.bottom

omit [DecidableEq α] [Std.LawfulEqOrd κ] in
theorem confined_start {seed : List κ} (ha : a.values = E.bottom)
    (hseed : ∀ k ∈ seed, k ∈ E.flow.domain) :
    E.Confined { a with pending := Worklist.empty.addAll seed } where
  pending k hk := hseed k (by simpa [Worklist.mem_pending_addAll, Worklist.empty] using hk)
  default := by
    show a.values.default = _
    rw [ha]
    rfl
  values k _ := by
    show a.values.get k = _
    rw [ha, bottom, TotalMap.get_const]

/-- A visit to a key of the domain changes nothing outside the domain. -/
theorem Visit.confined (hF : E.flow.Coherent) (hv : E.Visit w k a b) (hk : k ∈ E.flow.domain)
    (h : E.Confined a) : E.Confined b := by
  cases hv with
  | unchanged hy hvalues hpending =>
    refine ⟨?_, ?_, ?_⟩
    · rw [hpending]
      exact h.pending
    · rw [hvalues]
      exact h.default
    · rw [hvalues]
      exact h.values
  | changed y z hy hne hz hvalues hpending =>
    refine ⟨?_, ?_, ?_⟩
    · -- the readers of a key of the domain are in the domain
      intro j hj
      rw [hpending, Worklist.mem_pending_addAll] at hj
      rcases hj with hj | hj
      · exact h.pending j hj
      · exact hF.closed k hk j hj
    · rw [hvalues, TotalMap.default_set]
      exact h.default
    · -- the key that was set is in the domain
      intro j hj
      rw [hvalues, TotalMap.get_set_of_ne _ (ne_of_mem_of_not_mem hk hj)]
      exact h.values j hj

/-- What waits, and what differs from the bottom, stays in the domain from visit to visit. -/
theorem Confined.visit (hF : E.flow.Coherent) (h : E.Confined a) {rest : List κ}
    (hpop : a.pending.pending = k :: rest) (hv : E.Visit w k { a with pending := ⟨rest⟩ } b) :
    E.Confined b := by
  have hwait : ∀ j ∈ k :: rest, j ∈ E.flow.domain := hpop ▸ h.pending
  refine hv.confined hF (hwait k (by simp)) ⟨fun j hj => hwait j ?_, h.default, h.values⟩
  exact List.mem_cons_of_mem _ hj

omit [DecidableEq κ] in
/-- Values that are confined to the domain and stable there are a solution. -/
theorem step_eq_self {a : Iteration κ α} (hc : E.Confined a) (hs : E.StableOff [] a.values) :
    E.step a.values = .ok a.values :=
  step_eq_ok_iff.mpr ⟨hc.default, fun k hk => hs k hk (by simp), hc.values⟩

end Equations

end StaticAnalysis
