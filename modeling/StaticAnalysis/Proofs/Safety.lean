import StaticAnalysis.Proofs.LeastSolution
import StaticAnalysis.Proofs.NestedLattice
import StaticAnalysis.Proofs.Widening

/-!
Safety of the solvers. Combining product elements of different sizes is a fault, and nothing but the
values themselves prevents it. If transfer functions and widening take members of a nested lattice to
members, every value that a solver ever holds is a member: at every moment, whatever is asked of it
in whatever order, along any flow. Hence no least upper bound and no comparison meets a fault.
-/

namespace StaticAnalysis

/-! ### Safe outcomes -/

namespace Outcome

variable {σ : Type} {Inv : σ → Prop}

/-- No fault was met, and the state that was reached has a property. -/
def Safe (Inv : σ → Prop) : Outcome σ → Prop
  | .finished s => Inv s
  | .faulted _ _ => False
  | .unfinished s => Inv s

/-- What both parts of a computation keep, the whole keeps. -/
theorem Safe.andThen {o : Outcome σ} {next : σ → Outcome σ} (h : o.Safe Inv)
    (hnext : ∀ s, Inv s → (next s).Safe Inv) : (o.andThen next).Safe Inv := by
  cases o with
  | finished s => exact hnext s h
  | faulted fault s => exact h
  | unfinished s => exact h

end Outcome

/-- If every visit is safe, so is a run, whether it ends or not. -/
theorem Agenda.drain_safe {κ σ : Type} {process : κ → Agenda κ σ → Outcome (Agenda κ σ)}
    {Inv : Agenda κ σ → Prop}
    (hvisit : ∀ (a : Agenda κ σ) (k : κ) (rest : List κ), Inv a → a.pending.pending = k :: rest →
      (process k { a with pending := ⟨rest⟩ }).Safe Inv) :
    ∀ (budget : Nat) {a : Agenda κ σ}, Inv a → (drain process budget a).Safe Inv := by
  intro budget
  induction budget with
  | zero =>
    intro a ha
    cases hp : a.pending.pending with
    | nil => rwa [drain_of_pending_eq_nil hp]
    | cons k rest => rwa [drain_zero_of_pending_eq_cons hp]
  | succ budget ih =>
    intro a ha
    cases hp : a.pending.pending with
    | nil => rwa [drain_of_pending_eq_nil hp]
    | cons k rest =>
      rw [drain_of_pending_eq_cons hp]
      exact (hvisit a k rest ha hp).andThen fun _ => ih

/-- If every round is safe, so is an ascent. -/
theorem Ascent.climb_safe {α : Type} [DecidableEq α] {f : α → Except Fault α} {Inv : α → Prop}
    (hround : ∀ x, Inv x → ∃ y, f x = .ok y ∧ Inv y) :
    ∀ (budget : Nat) {a : Ascent α}, Inv a.value →
      (climb f budget a).Safe fun b => Inv b.value := by
  intro budget
  induction budget with
  | zero => exact fun ha => ha
  | succ budget ih =>
    intro a ha
    obtain ⟨y, hy, hInv⟩ := hround a.value ha
    rw [climb]
    simp only [hy]
    split
    · exact hInv
    · exact ih hInv

/-! ### Operations of a solver -/

/-- What can be asked of a solver. Solving and running are given a budget, since they need not
end. -/
inductive Operation (κ : Type) where
  /-- Solve the equations from the bottom. -/
  | solve (budget : Nat)
  /-- Process the given keys and all that follow from them. -/
  | run (budget : Nat) (seed : List κ)
  /-- Process one key. -/
  | process (k : κ)
  /-- Let a key wait. -/
  | add (k : κ)
  /-- Take the oldest key off the worklist. -/
  | pop

namespace Equations

variable {κ α : Type} [Ord κ] [Std.TransOrd κ] [DecidableEq κ] [DecidableEq α]

/-- The effect of an operation, with the seed, the widening and the narrowing rounds of a strategy. -/
def perform (E : Equations κ α) (s : Strategy κ α) :
    Operation κ → Iteration κ α → Outcome (Iteration κ α)
  | .solve budget, a => E.solve s budget a
  | .run budget seed, a => E.run s.widening budget seed a
  | .process k, a => E.process s.widening k a
  | .add k, a => .finished { a with pending := a.pending.add k }
  | .pop, a =>
    match a.pending.pop? with
    | some (_, rest) => .finished { a with pending := rest }
    | none => .finished a

/-- The effect of several operations, one after the other. One that does not end on its budget is the
last. -/
def performAll (E : Equations κ α) (s : Strategy κ α) :
    List (Operation κ) → Iteration κ α → Outcome (Iteration κ α)
  | [], a => .finished a
  | op :: ops, a => (E.perform s op a).andThen (E.performAll s ops)

end Equations

/-- The widening is defined on all members and takes them to members. -/
def Widening.Total {κ α : Type} (w : Widening κ α) (Member : α → Prop) : Prop :=
  ∀ x, Member x → ∃ y, w.widen x = .ok y ∧ Member y

namespace Equations

variable {κ α : Type} [Ord κ] [Std.TransOrd κ] [Std.LawfulEqOrd κ] [DecidableEq κ]
  [DecidableEq α] {E : Equations κ α} {Member : α → Prop}

section Members

variable (hL : E.lattice.Lawful Member) (hT : E.Total Member)

include hL hT

section Visits

variable {w : Widening κ α} (hw : w.Total Member)

include hw

/-- Processing a key meets no fault and stores a member. -/
theorem process_safe (k : κ) {a : Iteration κ α} (ha : a.values.All Member) :
    (E.process w k a).Safe fun b => (Iteration.values b).All Member := by
  obtain ⟨b, hb⟩ := process_total hL hT (fun hx => (hw _ hx).imp fun _ h => h.1) ha k
  rw [hb]
  refine (visit_of_process hb).members hL hT.preserves (fun y z hy hz => ?_) ha
  unfold jump at hz
  split at hz
  · obtain ⟨z', hz', hmem⟩ := hw y hy
    obtain rfl : z' = z := Except.ok.inj (hz'.symm.trans hz)
    exact hmem
  · cases hz
    exact hy

theorem drain_process_safe (budget : Nat) {a : Iteration κ α} (ha : a.values.All Member) :
    (Agenda.drain (E.process w) budget a).Safe fun b => (Iteration.values b).All Member :=
  Agenda.drain_safe (fun _ k _ hc _ => process_safe hL hT hw k hc) budget ha

end Visits

omit [DecidableEq κ] in
theorem narrow_safe : ∀ (rounds round : Nat) {a : Iteration κ α}, a.values.All Member →
    (E.narrow round rounds a).Safe fun b => (Iteration.values b).All Member
  | 0, _, _, ha => ha
  | rounds + 1, round, a, ha => by
      obtain ⟨n, hn, hnm⟩ := step_total hL hT ha
      have hn' : E.step (a.note (.narrowing round)).values = .ok n := hn
      rw [narrow]
      simp only [hn']
      exact narrow_safe rounds (round + 1) hnm

theorem solve_safe {s : Strategy κ α} (hw : s.widening.Total Member) (budget : Nat)
    (a : Iteration κ α) : (E.solve s budget a).Safe fun b => (Iteration.values b).All Member := by
  have hstart : (Iteration.values (E.seeded s a)).All Member := TotalMap.all_const hL.bottom_mem
  rw [solve_eq_drain]
  refine (drain_process_safe hL hT hw budget hstart).andThen fun c hc => ?_
  have hsettled : (Iteration.values (Iteration.note c (.settled (Iteration.steps c)))).All Member := hc
  refine (narrow_safe hL hT s.narrowing 1 hsettled).andThen fun d hd => ?_
  show (Iteration.values (if s.narrowing = 0 then d else _)).All Member
  split
  · exact hd
  · exact hd

theorem perform_safe {s : Strategy κ α} (hw : s.widening.Total Member) (op : Operation κ)
    {a : Iteration κ α} (ha : a.values.All Member) :
    (E.perform s op a).Safe fun b => (Iteration.values b).All Member := by
  cases op with
  | solve budget => exact solve_safe hL hT hw budget a
  | run budget seed =>
    exact drain_process_safe hL hT hw budget (a := ⟨Worklist.empty.addAll seed, a.state⟩) ha
  | process k => exact process_safe hL hT hw k ha
  | add k => exact ha
  | pop =>
    rw [perform]
    split
    · exact ha
    · exact ha

theorem performAll_safe {s : Strategy κ α} (hw : s.widening.Total Member) :
    ∀ (ops : List (Operation κ)) {a : Iteration κ α}, a.values.All Member →
      (E.performAll s ops a).Safe fun b => (Iteration.values b).All Member
  | [], _, ha => ha
  | op :: ops, _, ha => (perform_safe hL hT hw op ha).andThen fun _ => performAll_safe hw ops

omit [DecidableEq κ] in
/-- Solving by rounds meets no fault, and every round gives members. -/
theorem solveByRounds_safe (budget : Nat) :
    (E.solveByRounds budget).Safe fun b => b.value.All Member :=
  Ascent.climb_safe (fun _ hm => step_total hL hT hm) budget (TotalMap.all_const hL.bottom_mem)

end Members

/-- No solver meets a fault and none leaves the lattice. Let transfer functions and widening take the
members of a nested lattice to members, along any flow. Whatever operations are asked of a new
solver, by whatever strategy, and however far the last of them has come, no fault is met and all
values, the default included, are members; the same holds of every round when the equations are
solved by rounds. So any two assignments that ever occur can be joined and compared. -/
theorem operations_safe (hL : Nested E.lattice Member) (hT : E.Total Member) (s : Strategy κ α)
    (hw : s.widening.Total Member) :
    (∀ ops, (E.performAll s ops (.start E)).Safe fun b => (Iteration.values b).All Member) ∧
    (∀ budget, (E.solveByRounds budget).Safe fun b => b.value.All Member) ∧
    ∀ m n : TotalMap κ α, m.All Member → n.All Member →
      (∃ z, E.assignments.lub m n = .ok z ∧ z.All Member) ∧
        ∃ b, E.assignments.leq m n = .ok b := by
  have hlawful := hL.ordered.lawful
  have hmaps : (E.assignments : Lattice (TotalMap κ α)).Ordered (TotalMap.All Member) :=
    Lattice.totalMap_ordered hL.ordered
  refine ⟨fun ops => ?_, fun budget => ?_, fun m n hm hn => ⟨?_, ?_⟩⟩
  · -- any calls of the iteration
    exact performAll_safe hlawful hT hw ops (TotalMap.all_const hlawful.bottom_mem)
  · -- solving by rounds
    exact solveByRounds_safe hlawful hT budget
  · -- bounds of assignments
    exact hmaps.lawful.lub_mem hm hn
  · -- comparisons of assignments
    exact hmaps.leq_total hm hn

/-- An example: two keys with maps of sets and products as values. The second reads the first and a
key outside the domain, and nothing is listed as a reader of either. -/
def deepRelay : Equations Nat deepShape.Elem where
  lattice := deepShape.lattice
  flow := ⟨[0, 1], fun k => if k = 1 then [0, 2] else [], fun k => if k = 1 then [4] else []⟩
  transfer k x := .ok (if k = 0 then deepElem else x)

/-- A strategy that jumps to the top and narrows twice. -/
def deepStrategy : Strategy Nat deepShape.Elem where
  seed := some [1, 0, 0]
  widening := ⟨fun _ => .ok deepShape.lattice.top, fun _ j => j = 4⟩
  narrowing := 2

def deepOperations : List (Operation Nat) :=
  [.run 4 [5, 0], .process 1, .add 3, .pop, .solve 10, .process 7]

theorem total_deepRelay : deepRelay.Total deepShape.Member := by
  intro k x hx
  refine ⟨_, rfl, ?_⟩
  split
  · exact member_deepElem
  · exact hx

theorem operations_deepRelay_safe :
    Nested deepRelay.lattice deepShape.Member ∧ deepRelay.Total deepShape.Member ∧
      (∃ b, deepRelay.performAll deepStrategy deepOperations (.start deepRelay) = .finished b ∧
        (Iteration.values b).get 1 = deepElem ∧ (Iteration.values b).All deepShape.Member) ∧
      ∃ c, deepRelay.solveByRounds 4 = .finished c ∧ c.value.All deepShape.Member ∧
        ∃ z, deepRelay.assignments.lub c.value c.value = .ok z := by
  have hL : Nested deepRelay.lattice deepShape.Member := deepShape.nested proper_deepShape
  have hw : deepStrategy.widening.Total deepShape.Member :=
    fun x _ => ⟨_, rfl, hL.ordered.top_mem⟩
  obtain ⟨hops, hrounds, hpairs⟩ := operations_safe hL total_deepRelay deepStrategy hw
  have hb : deepRelay.performAll deepStrategy deepOperations (.start deepRelay) =
    .finished (deepRelay.performAll deepStrategy deepOperations (.start deepRelay)).state := rfl
  have hc : deepRelay.solveByRounds 4 = .finished (deepRelay.solveByRounds 4).state := rfl
  have hbm := hops deepOperations
  have hcm := hrounds 4
  rw [hb] at hbm
  rw [hc] at hcm
  refine ⟨hL, total_deepRelay, ⟨_, hb, by decide +kernel, hbm⟩, _, hc, hcm, ?_⟩
  exact (hpairs _ _ hcm hcm).1.imp fun _ h => h.1

end Equations

end StaticAnalysis
