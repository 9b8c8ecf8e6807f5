import Mathlib.Logic.Function.Iterate
import StaticAnalysis.Agenda

/-!
Runs of an agenda. What every visit to a key keeps holds when the run has ended, and then nothing
waits any more. A run in which every visit succeeds is the iteration of single visits.
-/

namespace StaticAnalysis

namespace Worklist

variable {κ : Type} {w : Worklist κ} {k : κ}

theorem pop?_eq_none_iff : w.pop? = none ↔ w.pending = [] := by
  unfold pop?
  split <;> simp_all

theorem pop?_eq_some_iff {rest : Worklist κ} :
    w.pop? = some (k, rest) ↔ w.pending = k :: rest.pending := by
  obtain ⟨pending⟩ := w
  obtain ⟨rest⟩ := rest
  cases pending <;> simp [pop?]

variable [DecidableEq κ]

theorem mem_pending_addAll {j : κ} : ∀ {ks : List κ} {w : Worklist κ},
    j ∈ (w.addAll ks).pending ↔ j ∈ w.pending ∨ j ∈ ks
  | [], w => by simp [addAll]
  | k :: ks, w => by
      have ih : j ∈ ((w.add k).addAll ks).pending ↔ j ∈ (w.add k).pending ∨ j ∈ ks :=
        mem_pending_addAll
      rw [mem_pending_add] at ih
      rw [List.mem_cons, ← or_assoc]
      exact ih

/-- Adding keys puts some of them behind those that wait already. -/
theorem exists_pending_addAll : ∀ (ks : List κ) (w : Worklist κ),
    ∃ added, (w.addAll ks).pending = w.pending ++ added ∧ ∀ j ∈ added, j ∈ ks
  | [], w => ⟨[], by simp [addAll], by simp⟩
  | k :: ks, w => by
      obtain ⟨added, hadded, hsub⟩ := exists_pending_addAll ks (w.add k)
      by_cases hk : k ∈ w.pending
      · -- the key waits already: nothing is added for it
        have hadd : w.add k = w := if_pos hk
        rw [hadd] at hadded
        refine ⟨added, ?_, fun j hj => List.mem_cons_of_mem _ (hsub j hj)⟩
        rw [← hadded]
        show ((w.add k).addAll ks).pending = _
        rw [hadd]
      · -- the key is new: it comes first among the added ones
        have hadd : w.add k = ⟨w.pending ++ [k]⟩ := if_neg hk
        rw [hadd] at hadded
        refine ⟨k :: added, ?_, ?_⟩
        · show ((w.add k).addAll ks).pending = _
          rw [hadd, hadded, List.append_assoc]
          rfl
        · intro j hj
          rcases List.mem_cons.mp hj with rfl | hj
          · exact List.mem_cons_self ..
          · exact List.mem_cons_of_mem _ (hsub j hj)

theorem length_pending_add_le (w : Worklist κ) (k : κ) :
    (w.add k).pending.length ≤ w.pending.length + 1 := by
  unfold add
  split <;> simp

/-- No more keys wait than did before and were added. -/
theorem length_pending_addAll_le : ∀ (ks : List κ) (w : Worklist κ),
    (w.addAll ks).pending.length ≤ w.pending.length + ks.length
  | [], w => by simp [addAll]
  | k :: ks, w => by
      have ih : ((w.add k).addAll ks).pending.length ≤ (w.add k).pending.length + ks.length :=
        length_pending_addAll_le ks (w.add k)
      have hadd := length_pending_add_le w k
      calc (w.addAll (k :: ks)).pending.length
          ≤ (w.add k).pending.length + ks.length := ih
        _ ≤ w.pending.length + (k :: ks).length := by simp; omega

end Worklist

namespace Agenda

variable {κ σ : Type} {process : κ → Agenda κ σ → Outcome (Agenda κ σ)}

/-- Once nothing waits, the run has ended. -/
theorem drain_of_pending_eq_nil {a : Agenda κ σ} (h : a.pending.pending = []) (budget : Nat) :
    drain process budget a = .finished a := by
  rw [drain.eq_def]
  simp [Worklist.pop?_eq_none_iff.mpr h]

/-- With budget left, the oldest key that waits is processed. -/
theorem drain_of_pending_eq_cons {a : Agenda κ σ} {k : κ} {rest : List κ}
    (h : a.pending.pending = k :: rest) (budget : Nat) :
    drain process (budget + 1) a =
      (process k { a with pending := ⟨rest⟩ }).andThen (drain process budget) := by
  have hpop : a.pending.pop? = some (k, ⟨rest⟩) := Worklist.pop?_eq_some_iff.mpr h
  rw [drain.eq_def]
  simp [hpop]

theorem drain_zero_of_pending_eq_cons {a : Agenda κ σ} {k : κ} {rest : List κ}
    (h : a.pending.pending = k :: rest) : drain process 0 a = .unfinished a := by
  have hpop : a.pending.pop? = some (k, ⟨rest⟩) := Worklist.pop?_eq_some_iff.mpr h
  rw [drain.eq_def]
  simp [hpop]

/-- What every visit keeps, a run that ends keeps, and it leaves nothing waiting. -/
theorem drain_invariant (Inv : Agenda κ σ → Prop)
    (hvisit : ∀ (a b : Agenda κ σ) (k : κ) (rest : List κ), Inv a →
      a.pending.pending = k :: rest → process k { a with pending := ⟨rest⟩ } = .finished b → Inv b) :
    ∀ {budget : Nat} {a b : Agenda κ σ}, Inv a → drain process budget a = .finished b →
      Inv b ∧ b.pending.pending = [] := by
  intro budget
  induction budget with
  | zero =>
    intro a b ha h
    cases hp : a.pending.pending with
    | nil =>
      rw [drain_of_pending_eq_nil hp] at h
      cases h
      exact ⟨ha, hp⟩
    | cons k rest =>
      rw [drain_zero_of_pending_eq_cons hp] at h
      cases h
  | succ budget ih =>
    intro a b ha h
    cases hp : a.pending.pending with
    | nil =>
      rw [drain_of_pending_eq_nil hp] at h
      cases h
      exact ⟨ha, hp⟩
    | cons k rest =>
      rw [drain_of_pending_eq_cons hp] at h
      obtain ⟨c, hk, h⟩ := Outcome.andThen_eq_finished_iff.mp h
      exact ih (hvisit a c k rest ha hp hk) h

/-- A run that has ended needs no larger budget. -/
theorem drain_mono : ∀ {n m : Nat} {a b : Agenda κ σ}, drain process n a = .finished b → n ≤ m →
    drain process m a = .finished b := by
  intro n
  induction n with
  | zero =>
    intro m a b h _
    cases hp : a.pending.pending with
    | nil => rwa [drain_of_pending_eq_nil hp] at h ⊢
    | cons k rest => rw [drain_zero_of_pending_eq_cons hp] at h; cases h
  | succ n ih =>
    intro m a b h hnm
    obtain ⟨m, rfl⟩ : ∃ i, m = i + 1 := ⟨m - 1, by omega⟩
    cases hp : a.pending.pending with
    | nil => rwa [drain_of_pending_eq_nil hp] at h ⊢
    | cons k rest =>
      rw [drain_of_pending_eq_cons hp] at h ⊢
      obtain ⟨c, hk, h⟩ := Outcome.andThen_eq_finished_iff.mp h
      rw [hk]
      exact ih h (by omega)

/-- Where a run ends does not depend on its budget. -/
theorem drain_unique {n m : Nat} {a b c : Agenda κ σ} (hb : drain process n a = .finished b)
    (hc : drain process m a = .finished c) : b = c := by
  have hb' := drain_mono hb (Nat.le_max_left n m)
  rw [drain_mono hc (Nat.le_max_right n m)] at hb'
  exact (Outcome.finished.inj hb').symm

/-- If every visit succeeds and takes one from a credit, the run ends once its budget is not less
than the credit. -/
theorem drain_of_credit (Inv : Nat → Agenda κ σ → Prop)
    (hvisit : ∀ (credit : Nat) (a : Agenda κ σ) (k : κ) (rest : List κ), Inv credit a →
      a.pending.pending = k :: rest → ∃ credit' b, credit = credit' + 1 ∧
        process k { a with pending := ⟨rest⟩ } = .finished b ∧ Inv credit' b) :
    ∀ {budget credit : Nat} {a : Agenda κ σ}, Inv credit a → credit ≤ budget →
      ∃ credit' b, drain process budget a = .finished b ∧ Inv credit' b := by
  intro budget
  induction budget with
  | zero =>
    intro credit a ha hle
    cases hp : a.pending.pending with
    | nil => exact ⟨credit, a, drain_of_pending_eq_nil hp 0, ha⟩
    | cons k rest =>
      obtain ⟨credit', b, rfl, -⟩ := hvisit credit a k rest ha hp
      omega
  | succ budget ih =>
    intro credit a ha hle
    cases hp : a.pending.pending with
    | nil => exact ⟨credit, a, drain_of_pending_eq_nil hp _, ha⟩
    | cons k rest =>
      obtain ⟨credit', b, rfl, hb, hInv⟩ := hvisit credit a k rest ha hp
      obtain ⟨rest', c, hc, hcInv⟩ := ih hInv (by omega)
      exact ⟨rest', c, by rw [drain_of_pending_eq_cons hp, hb]; exact hc, hcInv⟩

/-- One visit, if a key waits. -/
def advance (process : κ → Agenda κ σ → Outcome (Agenda κ σ)) (a : Agenda κ σ) : Agenda κ σ :=
  match a.pending.pending with
  | [] => a
  | k :: rest => (process k { a with pending := ⟨rest⟩ }).state

theorem advance_of_pending_eq_nil {a : Agenda κ σ} (h : a.pending.pending = []) :
    advance process a = a := by
  rw [advance, h]

theorem advance_of_pending_eq_cons {a : Agenda κ σ} {k : κ} {rest : List κ}
    (h : a.pending.pending = k :: rest) :
    advance process a = (process k { a with pending := ⟨rest⟩ }).state := by
  rw [advance, h]

/-- Every visit from a state of the given kind succeeds and leads to a state of that kind. -/
def Succeeds (process : κ → Agenda κ σ → Outcome (Agenda κ σ)) (Inv : Agenda κ σ → Prop) : Prop :=
  ∀ (a : Agenda κ σ) (k : κ) (rest : List κ), Inv a → a.pending.pending = k :: rest →
    ∃ b, process k { a with pending := ⟨rest⟩ } = .finished b ∧ Inv b

variable {Inv : Agenda κ σ → Prop}

theorem Succeeds.advance (hp : Succeeds process Inv) {a : Agenda κ σ} (ha : Inv a) :
    Inv (advance process a) := by
  cases hpending : a.pending.pending with
  | nil =>
    rw [advance_of_pending_eq_nil hpending]
    exact ha
  | cons k rest =>
    obtain ⟨b, hb, hInv⟩ := hp a k rest ha hpending
    rw [advance_of_pending_eq_cons hpending, hb]
    exact hInv

theorem Succeeds.iterate (hp : Succeeds process Inv) {a : Agenda κ σ} (ha : Inv a) :
    ∀ n, Inv ((Agenda.advance process)^[n] a)
  | 0 => ha
  | n + 1 => by
      rw [Function.iterate_succ_apply']
      exact hp.advance (hp.iterate ha n)

/-- With a budget of `n`, a run is at its `n`-th visit, and it has ended if nothing waits there. -/
theorem Succeeds.drain_eq (hp : Succeeds process Inv) : ∀ (n : Nat) {a : Agenda κ σ}, Inv a →
    drain process n a =
      if ((Agenda.advance process)^[n] a).pending.pending = [] then
        .finished ((Agenda.advance process)^[n] a)
      else .unfinished ((Agenda.advance process)^[n] a) := by
  intro n
  induction n with
  | zero =>
    intro a _
    cases hpending : a.pending.pending with
    | nil => simp [drain_of_pending_eq_nil hpending, hpending]
    | cons k rest => simp [drain_zero_of_pending_eq_cons hpending, hpending]
  | succ n ih =>
    intro a ha
    cases hpending : a.pending.pending with
    | nil =>
      have hfix : Agenda.advance process a = a := advance_of_pending_eq_nil hpending
      rw [drain_of_pending_eq_nil hpending, Function.iterate_fixed hfix, if_pos hpending]
    | cons k rest =>
      obtain ⟨b, hb, hInv⟩ := hp a k rest ha hpending
      have hab : Agenda.advance process a = b := by
        rw [advance_of_pending_eq_cons hpending, hb]
        rfl
      rw [drain_of_pending_eq_cons hpending, hb, Function.iterate_succ_apply, hab]
      exact ih hInv

end Agenda

end StaticAnalysis
