import Mathlib.Logic.Hydra
import StaticAnalysis.Proofs.Settling

/-!
When an iteration with widening ends. The values settle if every cycle of the graph has a back
edge, but the iteration need not end there. A visit compares the right-hand side before it is
widened, so a key whose settled value is strictly above its right-hand side stores that value again
at every visit and lets its readers wait. The iteration ends exactly if no cycle consists of such
keys.
-/

namespace StaticAnalysis

namespace Equations

variable {κ α : Type} [Ord κ] [Std.TransOrd κ]

/-- A widened key that stores the same value again at every visit: the value is not the bottom, and
the right-hand side, before it is widened, is another one. -/
def Slack (E : Equations κ α) (w : Widening κ α) (m : TotalMap κ α) (k : κ) : Prop :=
  E.widens w k = true ∧ m.get k ≠ E.lattice.bottom ∧ E.evaluate k m ≠ .ok (m.get k)

/-- A time of its last visit can be given to every key, so that every reader of a slack key that
does not wait was visited after it or waits itself. -/
def Timed (E : Equations κ α) (w : Widening κ α) (ks : List κ) (m : TotalMap κ α) : Prop :=
  ∃ (last : κ → Nat) (now : Nat), (∀ k, last k ≤ now) ∧
    ∀ k, k ∉ ks → E.Slack w m k → ∀ j ∈ E.flow.outgoing k, j ∈ ks ∨ last k < last j

variable [DecidableEq α]

/-- A key that stores the value that it has is slack. -/
theorem Rising.slack_of_set_eq [Std.LawfulEqOrd κ] {E : Equations κ α} {w : Widening κ α}
    {Member : α → Prop} {m : TotalMap κ α} {k : κ} {y z : α} (hL : E.lattice.Lawful Member)
    (hT : E.Total Member) (hw : w.Lawful E.lattice Member) (h : E.Rising w Member m)
    (hy : E.evaluate k m = .ok y) (hne : y ≠ m.get k) (hz : E.jump w k y = .ok z)
    (hset : m.set k z = m) : E.Slack w m k := by
  have hym : Member y := evaluate_mem hL hT.preserves h.members hy
  have hzk : m.get k = z := by
    rw [← hset, TotalMap.get_set_self]
  refine ⟨?_, ?_, ?_⟩
  · by_contra hk
    rw [jump, if_neg hk] at hz
    cases hz
    exact hne hzk.symm
  · rw [hzk]
    exact (h.target_of_changed hL hw hym hy hne hz).2
  · rw [hy]
    rintro ⟨⟩
    exact hne rfl

variable [DecidableEq κ]

omit [DecidableEq α] in
/-- When nothing waits, the readers of slack keys come later, so slack keys form no cycle. -/
theorem Timed.acyclic {E : Equations κ α} {w : Widening κ α} {m : TotalMap κ α} {g : Digraph κ}
    (h : E.Timed w [] m) (hflow : E.flow = g.flow) : g.AcyclicWhere fun i _ => E.Slack w m i := by
  obtain ⟨last, now, -, hlater⟩ := h
  refine Digraph.acyclicWhere_of_ranked last fun e he hslack => ?_
  have hreader : e.2 ∈ E.flow.outgoing e.1 := by
    rw [hflow]
    exact Digraph.mem_successors.mpr he
  exact (hlater e.1 List.not_mem_nil hslack e.2 hreader).resolve_left List.not_mem_nil

omit [Ord κ] [Std.TransOrd κ] in
/-- A visited key counts as the latest one. What is known of the readers of other slack keys stays
true, whether they wait or not. -/
theorem later_update {last : κ → Nat} {now : Nat} {ks : List κ} {j k : κ} {readers : List κ}
    (hnow : ∀ i, last i ≤ now) (hjk : j ≠ k)
    (hlater : ∀ i ∈ readers, i ∈ k :: ks ∨ last j < last i) :
    ∀ i ∈ readers, i ∈ ks ∨
      Function.update last k (now + 1) j < Function.update last k (now + 1) i := by
  intro i hi
  rw [Function.update_of_ne hjk]
  by_cases hik : i = k
  · rw [hik, Function.update_self]
    exact Or.inr (Nat.lt_succ_of_le (hnow j))
  · rw [Function.update_of_ne hik]
    exact (hlater i hi).imp_left fun hmem => (List.mem_cons.mp hmem).resolve_left hik

/-- A visit is the latest one, and it lets the readers wait if it changes anything. -/
theorem Visit.timed [Std.LawfulEqOrd κ] {E : Equations κ α} {w : Widening κ α} {k : κ}
    {a b : Iteration κ α} (hreads : ∀ i j, i ∈ E.flow.incoming j → j ∈ E.flow.outgoing i)
    (hv : E.Visit w k a b) (h : E.Timed w (k :: a.pending.pending) a.values) :
    E.Timed w b.pending.pending b.values := by
  obtain ⟨last, now, hnow, hlater⟩ := h
  refine ⟨Function.update last k (now + 1), now + 1, fun j => ?_, ?_⟩
  · by_cases hjk : j = k
    · rw [hjk, Function.update_self]
    · rw [Function.update_of_ne hjk]
      exact (hnow j).trans (Nat.le_succ now)
  intro j hj hslack i hi
  cases hv with
  | unchanged hy hvalues hpending =>
    rw [hpending] at hj ⊢
    rw [hvalues] at hslack
    have hjk : j ≠ k := by
      rintro rfl
      exact hslack.2.2 hy
    exact later_update hnow hjk (hlater j (by simp [hjk, hj]) hslack) i hi
  | changed y z hy hne hz hvalues hpending =>
    rw [hpending, Worklist.mem_pending_addAll] at hj ⊢
    rw [not_or] at hj
    by_cases hjk : j = k
    · rw [hjk] at hi
      exact Or.inl (Or.inr hi)
    · -- `j` does not read `k`, or it would wait now
      have hread : k ∉ E.flow.incoming j := fun hk => hj.2 (hreads k j hk)
      have hslack' : E.Slack w a.values j := by
        unfold Slack at hslack ⊢
        rw [hvalues, evaluate_set_of_not_mem hread, TotalMap.get_set_of_ne _ (Ne.symm hjk)]
          at hslack
        exact hslack
      refine (later_update hnow hjk (hlater j ?_ hslack') i hi).imp_left Or.inl
      simp [hjk, hj.1]

/-- A visit that keeps all values lets others wait only if the key is slack, so it replaces the key
among those that wait by keys that come after it. -/
theorem Visit.cutExpand [Std.LawfulEqOrd κ] {E : Equations κ α} {w : Widening κ α}
    {Member : α → Prop} {k : κ} {a b : Iteration κ α} {after : κ → κ → Prop}
    (hv : E.Visit w k a b) (hL : E.lattice.Lawful Member) (hT : E.Total Member)
    (hw : w.Lawful E.lattice Member) (ha : E.Rising w Member a.values) (hsame : b.values = a.values)
    (hafter : E.Slack w a.values k → ∀ j ∈ E.flow.outgoing k, after j k) :
    Relation.CutExpand after (b.pending.pending : Multiset κ)
      ((k :: a.pending.pending : List κ) : Multiset κ) := by
  cases hv with
  | unchanged hy hvalues hpending =>
    rw [hpending]
    refine ⟨0, k, by simp, ?_⟩
    rw [add_zero, ← Multiset.cons_coe, add_comm, Multiset.singleton_add]
  | changed y z hy hne hz hvalues hpending =>
    have hslack := ha.slack_of_set_eq hL hT hw hy hne hz (hvalues.symm.trans hsame)
    obtain ⟨added, hadded, hsub⟩ := Worklist.exists_pending_addAll (E.flow.outgoing k) a.pending
    rw [hpending, hadded]
    refine ⟨added, k, fun j hj => hafter hslack j (hsub j (Multiset.mem_coe.mp hj)), ?_⟩
    rw [← Multiset.cons_coe, ← Multiset.coe_add, add_comm, Multiset.singleton_add,
      Multiset.cons_add]

section Visits

variable {E : Equations κ α} {w : Widening κ α} {Member : α → Prop}
  (hL : E.lattice.Lawful Member) (hT : E.Total Member) (hmono : E.Monotone Member)
  (hw : w.Lawful E.lattice Member) [Std.LawfulEqOrd κ] {a : Iteration κ α}
  (ha : E.Rising w Member a.values)

include hL hT hmono hw ha

/-- Once the values have settled, only slack keys let others wait. If these do not form a cycle, a
visit replaces the key it takes by keys further down, which comes to an end. -/
theorem ends_of_acyclic_slack (g : Digraph κ) (hflow : E.flow = g.flow) {N : Nat}
    (hN : ∀ n, N ≤ n → (E.visits w a n).values = (E.visits w a N).values)
    (hacyclic : g.AcyclicWhere fun i _ => E.Slack w (E.visits w a N).values i) :
    ∃ n, (E.visits w a n).pending.pending = [] := by
  have hdown : ∀ (s : Multiset κ) (n : Nat), N ≤ n →
      ((E.visits w a n).pending.pending : Multiset κ) = s →
      ∃ m, (E.visits w a m).pending.pending = [] := by
    intro s
    -- along the multisets of waiting keys, where a key may be replaced by readers of it
    induction s using hacyclic.wellFounded_swap.cutExpand.induction with
    | _ s ih =>
      intro n hn hs
      rcases visits_succ hL hT hmono hw ha n with ⟨hnil, -⟩ | ⟨k, rest, hpop, hv⟩
      · exact ⟨n, hnil⟩
      have hn' := hn.trans (Nat.le_succ n)
      refine ih _ ?_ (n + 1) hn' rfl
      rw [← hs, hpop]
      refine hv.cutExpand hL hT hw (rising_visits hL hT hmono hw ha n)
        ((hN (n + 1) hn').trans (hN n hn).symm) fun hslack j hj => ⟨?_, ?_⟩
      · rw [hflow] at hj
        exact hj
      · rw [← hN n hn]
        exact hslack
  exact hdown _ N (Nat.le_refl N) rfl

/-- When nothing waits, no cycle consists of slack keys. -/
theorem acyclic_slack_of_ends (g : Digraph κ) (hflow : E.flow = g.flow)
    (hstart : a.values = E.bottom) {n : Nat} (hn : (E.visits w a n).pending.pending = []) :
    g.AcyclicWhere fun i _ => E.Slack w (E.visits w a n).values i := by
  have hreads : ∀ i j, i ∈ E.flow.incoming j → j ∈ E.flow.outgoing i := by
    intro i j hij
    rw [hflow] at hij ⊢
    exact Digraph.mem_successors.mpr (Digraph.mem_predecessors.mp hij)
  have htimed : ∀ i, E.Timed w (E.visits w a i).pending.pending (E.visits w a i).values := by
    intro i
    induction i with
    | zero =>
      refine ⟨fun _ => 0, 0, fun _ => Nat.le_refl 0, fun j _ hslack => absurd ?_ hslack.2.1⟩
      show a.values.get j = E.lattice.bottom
      rw [hstart, bottom, TotalMap.get_const]
    | succ i ih =>
      rcases visits_succ hL hT hmono hw ha i with ⟨-, hsame⟩ | ⟨j, rest, hpop, hv⟩
      · rw [hsame]
        exact ih
      · rw [hpop] at ih
        exact hv.timed hreads ih
  have h := htimed n
  rw [hn] at h
  exact h.acyclic hflow

end Visits

variable {E : Equations κ α} {Member : α → Prop} {a : Iteration κ α}

variable [Std.LawfulEqOrd κ]

/-- Solving is a number of visits from the seed, and it ends once nothing waits. -/
theorem solve_finished_iff (hL : E.lattice.Lawful Member) (hT : E.Total Member)
    (hmono : E.Monotone Member) {s : Strategy κ α} (hw : s.widening.Lawful E.lattice Member) :
    (∃ budget b, E.solve s budget a = .finished b) ↔
      ∃ n, (E.visits s.widening (E.seeded s a) n).pending.pending = [] := by
  have hstart : E.Rising s.widening Member (E.seeded s a).values := rising_bottom hL hT hmono hw
  have hdrain := fun n => drain_eq_visits hL hT hmono hw hstart n
  constructor
  · rintro ⟨n, b, hb⟩
    refine ⟨n, by_contra fun hwait => ?_⟩
    rw [solve_eq_drain, hdrain, if_neg hwait] at hb
    cases hb
  · rintro ⟨n, hn⟩
    have hmembers := (rising_visits hL hT hmono hw hstart n).members
    obtain ⟨b, hb⟩ := narrow_total hL hT s.narrowing 1
      (a := (E.visits s.widening (E.seeded s a) n).note
        (.settled (E.visits s.widening (E.seeded s a) n).steps)) hmembers
    refine ⟨n, if s.narrowing = 0 then b else Iteration.note b (.narrowed s.narrowing), ?_⟩
    rw [solve_eq_drain, hdrain, if_pos hn, Outcome.andThen_finished, hb, Outcome.andThen_finished]

theorem values_solve (hL : E.lattice.Lawful Member) (hT : E.Total Member)
    (hmono : E.Monotone Member) {s : Strategy κ α} (hw : s.widening.Lawful E.lattice Member)
    (n : Nat) : Iteration.values (E.solve { s with narrowing := 0 } n a).state =
      (E.visits s.widening (E.seeded s a) n).values := by
  have hstart : E.Rising s.widening Member (E.seeded s a).values := rising_bottom hL hT hmono hw
  have hseeded : E.seeded { s with narrowing := 0 } a = E.seeded s a := rfl
  rw [solve_eq_drain, hseeded, drain_eq_visits hL hT hmono hw hstart]
  split <;> rfl

/-- Along a graph in which every cycle has a back edge, the values that solving goes through settle
on some assignment; for the whole domain it is the least solution of the widened equations. Solving
ends if and only if no cycle consists of keys that are slack there. So it ends if every cycle has
a key that is not widened, but not always. -/
theorem solve_ends_iff_acyclic_slack (hL : E.lattice.Lawful Member) (hT : E.Total Member)
    (hmono : E.Monotone Member) (g : Digraph κ) (hg : g.Built) (hflow : E.flow = g.flow)
    (s : Strategy κ α) (hw : s.widening.Lawful E.lattice Member)
    (hcycle : g.AcyclicWhere fun i j => s.widening.isBackedge i j = false) (a : Iteration κ α) :
    ∃ m : TotalMap κ α,
      (∃ N, ∀ budget, N ≤ budget →
        Iteration.values (E.solve { s with narrowing := 0 } budget a).state = m) ∧
      (s.seed = none → E.LeastWidened s.widening Member m) ∧
      ((∃ budget b, E.solve s budget a = .finished b) ↔
        g.AcyclicWhere fun i _ => E.Slack s.widening m i) ∧
      ((g.AcyclicWhere fun i _ => E.widens s.widening i = true) →
        ∃ budget b, E.solve s budget a = .finished b) := by
  have hstart : E.Rising s.widening Member (E.seeded s a).values := rising_bottom hL hT hmono hw
  obtain ⟨N, hN⟩ := settles_values hL hT hmono hw hstart g hflow hcycle
  have hends : (∃ budget b, E.solve s budget a = .finished b) ↔ g.AcyclicWhere fun i _ =>
      E.Slack s.widening (E.visits s.widening (E.seeded s a) N).values i := by
    rw [solve_finished_iff hL hT hmono hw]
    refine ⟨?_, ends_of_acyclic_slack hL hT hmono hw hstart g hflow hN⟩
    -- the values at the end are the settled ones, whichever comes first
    rintro ⟨n, hn⟩
    have hsame : (E.visits s.widening (E.seeded s a) n).values =
        (E.visits s.widening (E.seeded s a) N).values := by
      rcases Nat.le_total n N with hnN | hNn
      · rw [visits_of_ends hn hnN]
      · exact hN n hNn
    rw [← hsame]
    exact acyclic_slack_of_ends hL hT hmono hw hstart g hflow rfl hn
  refine ⟨_, ⟨N, fun n hn => ?_⟩, ?_, hends, ?_⟩
  · -- the values settle
    rw [values_solve hL hT hmono hw]
    exact hN n hn
  · -- over the whole domain they settle on the least solution of the widened equations
    intro hseed
    have hcoherent : E.flow.Coherent := by
      rw [hflow]
      exact hg.coherent
    have hpending : ∀ k, k ∈ (E.seeded s a).pending.pending ↔ k ∈ E.flow.domain := by
      intro k
      rw [mem_pending_seeded, hseed, Option.getD_none]
    refine leastWidened_visits hL hT hmono hw hstart hcoherent
      ⟨fun k hk => (hpending k).mp hk, rfl, fun k _ => TotalMap.get_const ..⟩
      (fun k hk => (hpending k).mpr hk) rfl hN
  · -- slack keys are widened
    intro hwidened
    exact hends.mpr (hwidened.mono fun _ _ _ hslack => hslack.1)

/-- An example: a loop of two keys that increments a counter from zero. -/
def counter : Equations Nat Extent where
  lattice := Extent.lattice
  flow := (Digraph.ofArcs [(0, 1), (1, 2), (2, 1)]).flow
  transfer k x := .ok (if k = 0 then .finite 0 else if k = 1 then x.shift 1 else x)

theorem monotone_counter : counter.Monotone fun _ => True := by
  intro k x y a b _ _ hxy ha hb
  cases ha
  cases hb
  refine Extent.below_iff.mpr ?_
  have hmax := Extent.below_iff.mp hxy
  by_cases h0 : k = 0
  · -- the entry does not look at what it reads
    rw [if_pos h0, if_pos h0]
    rfl
  · by_cases h1 : k = 1
    · -- the counter
      rw [if_neg h0, if_pos h1, if_neg h0, if_pos h1]
      exact Extent.max_shift hmax
    · rw [if_neg h0, if_neg h1, if_neg h0, if_neg h1]
      exact hmax

/-- The way to solve it: the counter is widened from three on, along the edge that closes the
loop. -/
def counterStrategy : Strategy Nat Extent where
  widening := .along [(2, 1)] fun x => .ok (x.giveUpAt 3)

/-- The counter never stops rising, but solving it with widening ends. -/
theorem solve_counter_ends :
    counter.lattice.Lawful (fun _ => True) ∧ counter.Total (fun _ => True) ∧
      counter.Monotone (fun _ => True) ∧
      counterStrategy.widening.Lawful counter.lattice (fun _ => True) ∧
      (∃ m, counter.LeastWidened counterStrategy.widening (fun _ => True) m) ∧
      ∃ budget b, counter.solve counterStrategy budget (.start counter) = .finished b := by
  have hT : counter.Total fun _ => True := fun _ _ _ => ⟨_, rfl, trivial⟩
  have hw : counterStrategy.widening.Lawful counter.lattice fun _ => True :=
    Extent.lawful_giveUpAt 3 _
  obtain ⟨m, -, hleast, -, hends⟩ := solve_ends_iff_acyclic_slack Extent.lattice_lawful hT
    monotone_counter _ (Digraph.built_ofArcs _) rfl counterStrategy hw
    (Digraph.acyclicWhere_of_ranked id (by decide)) (.start counter)
  -- only the last key of the loop is widened
  have hwidened := hends (Digraph.acyclicWhere_of_ranked (fun k => (k + 1) % 3) (by decide))
  exact ⟨Extent.lattice_lawful, hT, monotone_counter, hw, ⟨m, hleast rfl⟩, hwidened⟩

/-- An example: a key that reads itself and keeps its value at or under five. -/
def capped : Equations Nat Extent where
  lattice := Extent.lattice
  flow := (Digraph.ofArcs [(0, 0)]).flow
  transfer _ x := .ok ((x.max (.finite 0)).cap 5)

theorem monotone_capped : capped.Monotone fun _ => True := by
  intro k x y a b _ _ hxy ha hb
  cases ha
  cases hb
  exact Extent.below_iff.mpr (Extent.max_cap (Extent.max_max (Extent.below_iff.mp hxy) _))

/-- The way to solve it: every bound from zero on is widened, along the only edge. -/
def cappedStrategy : Strategy Nat Extent where
  widening := .along [(0, 0)] fun x => .ok (x.giveUpAt 0)

/-- The key waits, and it has no finite bound as its value. -/
def Restless (a : Iteration Nat Extent) : Prop :=
  a.pending.pending = [0] ∧ (a.values.get 0 = .unreached ∨ a.values.get 0 = .infinite)

/-- The right-hand side is always a finite bound, which is widened, so nothing comes to rest. -/
theorem Visit.restless {a b : Iteration Nat Extent} (hv : capped.Visit cappedStrategy.widening 0 a b)
    (hpending : a.pending.pending = [])
    (hvalue : a.values.get 0 = .unreached ∨ a.values.get 0 = .infinite) : Restless b := by
  have hfinite : ∃ n, 0 ≤ n ∧ capped.evaluate 0 a.values = .ok (.finite n) := by
    have heval : capped.evaluate 0 a.values =
        .ok (((Extent.unreached.max (a.values.get 0)).max (.finite 0)).cap 5) := rfl
    rcases hvalue with hvalue | hvalue
    · exact ⟨0, by decide, by rw [heval, hvalue]; rfl⟩
    · exact ⟨5, by decide, by rw [heval, hvalue]; rfl⟩
  obtain ⟨n, hn, hy⟩ := hfinite
  cases hv with
  | unchanged hsame =>
    -- a finite bound is not what the key has
    rw [hy] at hsame
    rw [← Except.ok.inj hsame] at hvalue
    rcases hvalue with hvalue | hvalue <;> cases hvalue
  | changed y z hy' hne hz hvalues hadd =>
    rw [hy] at hy'
    cases hy'
    have hjump : capped.jump cappedStrategy.widening 0 (.finite n) = .ok .infinite :=
      congrArg Except.ok (if_pos hn)
    rw [hjump] at hz
    cases hz
    refine ⟨?_, Or.inr ?_⟩
    · rw [hadd, show a.pending = ⟨[]⟩ from congrArg Worklist.mk hpending]
      rfl
    · rw [hvalues, TotalMap.get_set_self]

/-- A monotone closure without infinite ascent along every cycle does not make solving end. -/
theorem solve_capped_never_ends :
    capped.lattice.Lawful (fun _ => True) ∧ capped.Total (fun _ => True) ∧
      capped.Monotone (fun _ => True) ∧ (Digraph.ofArcs [(0, 0)]).Built ∧
      capped.flow = (Digraph.ofArcs [(0, 0)]).flow ∧
      cappedStrategy.widening.Lawful capped.lattice (fun _ => True) ∧
      ((Digraph.ofArcs [(0, 0)]).AcyclicWhere fun i j =>
        cappedStrategy.widening.isBackedge i j = false) ∧
      ∀ budget b, capped.solve cappedStrategy budget (.start capped) ≠ .finished b := by
  refine ⟨Extent.lattice_lawful, fun _ _ _ => ⟨_, rfl, trivial⟩, monotone_capped,
    Digraph.built_ofArcs _, rfl, Extent.lawful_giveUpAt 0 _,
    Digraph.acyclicWhere_of_ranked id (by decide), ?_⟩
  intro budget b hb
  obtain ⟨fresh, c, hfresh, hrun, -⟩ := solve_eq_finished rfl hb
  have hbottom : fresh.values.get 0 = .unreached := by
    rw [hfresh]
    rfl
  have hstart : Restless { fresh with pending := Worklist.empty.addAll [0] } :=
    ⟨rfl, Or.inl hbottom⟩
  have hend := Agenda.drain_invariant Restless (fun x y k rest hx hpop hy => ?_) hstart hrun
  · obtain ⟨⟨hpending, -⟩, hnone⟩ := hend
    rw [hpending] at hnone
    cases hnone
  · rw [hx.1] at hpop
    obtain ⟨rfl, rfl⟩ := List.cons.inj hpop
    exact (visit_of_process hy).restless rfl hx.2

end Equations

end StaticAnalysis
