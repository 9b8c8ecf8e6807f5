import StaticAnalysis.Proofs.Widening

/-!
Where an iteration with widening settles. If every cycle of the graph has a back edge, the values
stop changing after finitely many visits: widened keys climb in a set without infinite ascent, and
the other keys follow them along paths without cycles. Over the whole domain the values settle on
the least solution of the widened equations.
-/

namespace StaticAnalysis.Equations

/-- From some index on a sequence stays the same. -/
def Settles {β : Type} (x : Nat → β) : Prop := ∃ N, ∀ n, N ≤ n → x n = x N

/-- A sequence that does not settle changes again and again. -/
theorem exists_changes_of_not_settles {β : Type} {x : Nat → β} (h : ¬ Settles x) :
    ∃ index : Nat → Nat, (∀ i j, i ≤ j → index i ≤ index j) ∧
      ∀ i, x (index i) ≠ x (index (i + 1)) := by
  have hmore : ∀ N, ∃ n, N ≤ n ∧ x n ≠ x N := by
    intro N
    by_contra hN
    exact h ⟨N, fun n hn => by_contra fun hne => hN ⟨n, hn, hne⟩⟩
  choose next hle hne using hmore
  have hstep : ∀ i, next^[i + 1] 0 = next (next^[i] 0) :=
    fun i => Function.iterate_succ_apply' next i 0
  refine ⟨fun i => next^[i] 0, ?_, fun i => ?_⟩
  · have hmono := monotone_nat_of_le_succ (f := fun i => next^[i] 0) fun i => hstep i ▸ hle _
    exact fun i j hij => hmono hij
  · show x (next^[i] 0) ≠ x (next^[i + 1] 0)
    rw [hstep]
    exact (hne _).symm

/-- Finitely many settled sequences have settled together. -/
theorem exists_common_index {ι β : Type} {x : Nat → ι → β} :
    ∀ (ks : List ι), (∀ k ∈ ks, Settles fun n => x n k) →
      ∃ N, ∀ k ∈ ks, ∀ n, N ≤ n → x n k = x N k
  | [], _ => ⟨0, by simp⟩
  | k :: ks, h => by
      obtain ⟨N, hN⟩ := exists_common_index ks fun j hj => h j (List.mem_cons_of_mem _ hj)
      obtain ⟨M, hM⟩ := h k (List.mem_cons_self ..)
      refine ⟨max N M, fun j hj n hn => ?_⟩
      rcases List.mem_cons.mp hj with rfl | hj
      · exact (hM n (by omega)).trans (hM (max N M) (by omega)).symm
      · exact (hN j hj n (by omega)).trans (hN j hj (max N M) (by omega)).symm

variable {κ α : Type} [Ord κ] [Std.TransOrd κ] [DecidableEq α]

/-- The least solution of the widened equations: every key of the domain has what it heads for, the
other keys have the bottom, and it is below every assignment in which no key heads higher than the
value that it has. -/
structure LeastWidened (E : Equations κ α) (w : Widening κ α) (Member : α → Prop)
    (m : TotalMap κ α) : Prop where
  solved : ∀ k ∈ E.flow.domain, E.target w k m = .ok (m.get k)
  outside : ∀ k, k ∉ E.flow.domain → m.get k = E.lattice.bottom
  least : ∀ t : TotalMap κ α, t.All Member →
    (∀ k ∈ E.flow.domain, ∃ z, E.target w k t = .ok z ∧ E.lattice.Below z (t.get k)) →
    ∀ k, E.lattice.Below (m.get k) (t.get k)

variable [DecidableEq κ]

/-- The iteration after a number of visits. -/
def visits (E : Equations κ α) (w : Widening κ α) (a : Iteration κ α) (n : Nat) : Iteration κ α :=
  (Agenda.advance (E.process w))^[n] a

/-- Once nothing waits, there are no more visits. -/
theorem visits_of_ends {E : Equations κ α} {w : Widening κ α} {a : Iteration κ α} {n m : Nat}
    (hn : (E.visits w a n).pending.pending = []) (hnm : n ≤ m) :
    E.visits w a m = E.visits w a n := by
  obtain ⟨i, rfl⟩ := Nat.exists_eq_add_of_le' hnm
  show (Agenda.advance (E.process w))^[i + n] a = _
  rw [Function.iterate_add_apply]
  exact Function.iterate_fixed (Agenda.advance_of_pending_eq_nil hn) i

variable {E : Equations κ α} {w : Widening κ α} {Member : α → Prop}
  (hL : E.lattice.Lawful Member) (hT : E.Total Member) (hmono : E.Monotone Member)
  (hw : w.Lawful E.lattice Member) [Std.LawfulEqOrd κ]

include hL hT hmono hw

theorem succeeds_process :
    Agenda.Succeeds (E.process w) fun a : Iteration κ α => E.Rising w Member a.values := by
  intro a k rest ha hpending
  obtain ⟨b, hb⟩ := process_total (a := { a with pending := ⟨rest⟩ }) hL hT
    (fun hx => (hw.total hx).imp fun _ h => h.1) ha.members k
  exact ⟨b, hb, ((visit_of_process hb).rising hL hT hmono hw ha).1⟩

variable {a : Iteration κ α} (ha : E.Rising w Member a.values)

include ha

theorem rising_visits (n : Nat) : E.Rising w Member (E.visits w a n).values :=
  (succeeds_process hL hT hmono hw).iterate ha n

/-- From one index to the next nothing happens, or the oldest waiting key is visited. -/
theorem visits_succ (n : Nat) :
    ((E.visits w a n).pending.pending = [] ∧ E.visits w a (n + 1) = E.visits w a n) ∨
      ∃ k rest, (E.visits w a n).pending.pending = k :: rest ∧
        E.Visit w k { E.visits w a n with pending := ⟨rest⟩ } (E.visits w a (n + 1)) := by
  have hsucc : E.visits w a (n + 1) = Agenda.advance (E.process w) (E.visits w a n) :=
    Function.iterate_succ_apply' ..
  cases hpending : (E.visits w a n).pending.pending with
  | nil => exact Or.inl ⟨rfl, by rw [hsucc, Agenda.advance_of_pending_eq_nil hpending]⟩
  | cons k rest =>
    obtain ⟨b, hb, -⟩ := succeeds_process hL hT hmono hw (E.visits w a n) k rest
      (rising_visits hL hT hmono hw ha n) hpending
    refine Or.inr ⟨k, rest, rfl, ?_⟩
    rw [hsucc, Agenda.advance_of_pending_eq_cons hpending, hb]
    exact visit_of_process hb

/-- With a budget of `n`, a run is at its `n`-th visit. -/
theorem drain_eq_visits (n : Nat) : Agenda.drain (E.process w) n a =
    if (E.visits w a n).pending.pending = [] then .finished (E.visits w a n)
    else .unfinished (E.visits w a n) :=
  (succeeds_process hL hT hmono hw).drain_eq n ha

theorem below_visits_succ (n : Nat) (k : κ) :
    E.lattice.Below ((E.visits w a n).values.get k) ((E.visits w a (n + 1)).values.get k) := by
  have hrising := rising_visits hL hT hmono hw ha n
  rcases visits_succ hL hT hmono hw ha n with ⟨-, hsame⟩ | ⟨j, rest, -, hv⟩
  · rw [hsame]
    exact hL.below_refl (hrising.members.2 k)
  · exact (hv.rising hL hT hmono hw hrising).2 k

theorem below_visits {n m : Nat} (hnm : n ≤ m) (k : κ) :
    E.lattice.Below ((E.visits w a n).values.get k) ((E.visits w a m).values.get k) := by
  have hmem : ∀ i, Member ((E.visits w a i).values.get k) :=
    fun i => (rising_visits hL hT hmono hw ha i).members.2 k
  induction m, hnm using Nat.le_induction with
  | base => exact hL.below_refl (hmem n)
  | succ m _ ih =>
    exact hL.below_trans (hmem n) (hmem m) (hmem (m + 1)) ih
      (below_visits_succ hL hT hmono hw ha m k)

theorem visits_ne_bottom {n m : Nat} (hnm : n ≤ m) {k : κ}
    (hn : (E.visits w a n).values.get k ≠ E.lattice.bottom) :
    (E.visits w a m).values.get k ≠ E.lattice.bottom := by
  exact hL.ne_bottom_of_below ((rising_visits hL hT hmono hw ha n).members.2 k)
    (below_visits hL hT hmono hw ha hnm k) hn

/-- The value of a widened key settles: otherwise its values would contain an infinite ascent of
closed values. -/
theorem settles_of_widens {k : κ} (hk : E.widens w k = true) :
    Settles fun n => (E.visits w a n).values.get k := by
  by_contra hnot
  obtain ⟨index, hindex, hne⟩ := exists_changes_of_not_settles hnot
  have hle : ∀ {i j}, i ≤ j → E.lattice.Below ((E.visits w a (index i)).values.get k)
      ((E.visits w a (index j)).values.get k) :=
    fun hij => below_visits hL hT hmono hw ha (hindex _ _ hij) k
  -- the first change leaves the bottom
  have hstart : (E.visits w a (index 1)).values.get k ≠ E.lattice.bottom := by
    intro hbottom
    have hle0 := hle (Nat.zero_le 1)
    have hmem := (rising_visits hL hT hmono hw ha (index 0)).members.2 k
    refine hne 0 ?_
    rw [hbottom] at hle0 ⊢
    exact hL.below_antisymm hmem hL.bottom_mem hle0 (hL.bottom_below hmem)
  refine hw.chain ⟨fun i => (E.visits w a (index (i + 1))).values.get k, fun i => ?_⟩
  have hrising := rising_visits hL hT hmono hw ha (index (i + 1))
  refine ⟨⟨_, hrising.members.2 k, ?_⟩, hle (Nat.le_succ _), hne (i + 1)⟩
  have hclosed := (hrising.closed k).resolve_left
    (visits_ne_bottom hL hT hmono hw ha (hindex _ _ (Nat.le_add_left 1 i)) hstart)
  rw [jump, if_pos hk] at hclosed
  exact hclosed

/-- A key that is not widened changes only to its right-hand side. -/
theorem visits_succ_of_not_widens {k : κ} (hk : E.widens w k = false) {n : Nat} {y : α}
    (hy : E.evaluate k (E.visits w a n).values = .ok y) :
    (E.visits w a (n + 1)).values.get k = (E.visits w a n).values.get k ∨
      (E.visits w a (n + 1)).values.get k = y := by
  rcases visits_succ hL hT hmono hw ha n with ⟨-, hsame⟩ | ⟨j, rest, -, hv⟩
  · rw [hsame]
    exact Or.inl rfl
  · cases hv with
    | unchanged hy' hvalues hpending =>
      rw [hvalues]
      exact Or.inl rfl
    | changed y' z hy' hne hz hvalues hpending =>
      rw [hvalues]
      by_cases hjk : j = k
      · -- the key itself: what is stored is its right-hand side, as it is
        subst hjk
        have hy'' : E.evaluate j (E.visits w a n).values = .ok y' := hy'
        rw [hy] at hy''
        cases hy''
        rw [jump, hk] at hz
        cases hz
        exact Or.inr (TotalMap.get_set_self ..)
      · exact Or.inl (TotalMap.get_set_of_ne _ hjk _)

/-- The value of a key that is not widened settles once the values it reads have. -/
theorem settles_of_not_widens {k : κ} (hk : E.widens w k = false)
    (hin : ∀ j ∈ E.flow.incoming k, Settles fun n => (E.visits w a n).values.get j) :
    Settles fun n => (E.visits w a n).values.get k := by
  obtain ⟨N, hN⟩ := exists_common_index _ hin
  obtain ⟨y, hy, -⟩ :=
    evaluate_total hL hT (rising_visits hL hT hmono hw ha N).members k
  have hstep : ∀ n, N ≤ n →
      (E.visits w a (n + 1)).values.get k = (E.visits w a n).values.get k ∨
        (E.visits w a (n + 1)).values.get k = y := by
    intro n hn
    refine visits_succ_of_not_widens hL hT hmono hw ha hk ?_
    rw [← hy]
    exact evaluate_congr fun j hj => hN j hj n hn
  by_cases hreach : ∃ n, N ≤ n ∧ (E.visits w a n).values.get k = y
  · -- the right-hand side is reached, and the key stays there
    obtain ⟨n, hn, hny⟩ := hreach
    refine ⟨n, fun i hi => ?_⟩
    show (E.visits w a i).values.get k = (E.visits w a n).values.get k
    rw [hny]
    induction i, hi using Nat.le_induction with
    | base => exact hny
    | succ i hi ih =>
      rcases hstep i (hn.trans hi) with h | h
      · rw [h, ih]
      · exact h
  · -- the right-hand side is never reached, so the key never changes
    refine ⟨N, fun i hi => ?_⟩
    show (E.visits w a i).values.get k = (E.visits w a N).values.get k
    induction i, hi using Nat.le_induction with
    | base => rfl
    | succ i hi ih =>
      rcases hstep i hi with h | h
      · rw [h, ih]
      · exact absurd ⟨i + 1, hi.trans (Nat.le_succ i), h⟩ hreach

/-- Every value settles if every cycle of the graph has a back edge. -/
theorem settles_get (g : Digraph κ) (hflow : E.flow = g.flow)
    (hcycle : g.AcyclicWhere fun i j => w.isBackedge i j = false) (k : κ) :
    Settles fun n => (E.visits w a n).values.get k := by
  -- an edge out of a key that is not widened is no back edge
  have hreads : g.AcyclicWhere fun i _ => E.widens w i = false := by
    refine hcycle.mono fun i j hj hi => ?_
    rw [widens, hflow, List.any_eq_false] at hi
    simpa using hi j hj
  have hkey : ∀ k, E.widens w k = false → Settles fun n => (E.visits w a n).values.get k := by
    intro k
    -- along the edges out of keys that are not widened, which form no cycle
    induction k using hreads.wellFounded.induction with
    | _ k ih =>
      intro hk
      refine settles_of_not_widens hL hT hmono hw ha hk fun j hj => ?_
      cases hj' : E.widens w j with
      | true => exact settles_of_widens hL hT hmono hw ha hj'
      | false =>
        rw [hflow] at hj
        refine ih j ⟨?_, hj'⟩ hj'
        exact Digraph.mem_successors.mpr (Digraph.mem_predecessors.mp hj)
  cases hk : E.widens w k with
  | true => exact settles_of_widens hL hT hmono hw ha hk
  | false => exact hkey k hk

/-- Only keys that wait at first or that some arc leads to are ever visited. -/
theorem visits_confined (g : Digraph κ) (hflow : E.flow = g.flow) (n : Nat) :
    (∀ k ∈ (E.visits w a n).pending.pending, k ∈ a.pending.pending ++ g.arcs.map Prod.snd) ∧
      (E.visits w a n).values.default = a.values.default ∧
      ∀ k, k ∉ a.pending.pending ++ g.arcs.map Prod.snd →
        (E.visits w a n).values.get k = a.values.get k := by
  induction n with
  | zero => exact ⟨fun k hk => List.mem_append_left _ hk, rfl, fun _ _ => rfl⟩
  | succ n ih =>
    obtain ⟨hin, hdefault, hout⟩ := ih
    rcases visits_succ hL hT hmono hw ha n with ⟨-, hsame⟩ | ⟨j, rest, hpop, hv⟩
    · rw [hsame]
      exact ⟨hin, hdefault, hout⟩
    · rw [hpop] at hin
      have hj := hin j (List.mem_cons_self ..)
      have hrest : ∀ k ∈ rest, k ∈ a.pending.pending ++ g.arcs.map Prod.snd :=
        fun k hk => hin k (List.mem_cons_of_mem _ hk)
      cases hv with
      | unchanged hy hvalues hpending =>
        rw [hvalues, hpending]
        exact ⟨hrest, hdefault, hout⟩
      | changed y z hy hne hz hvalues hpending =>
        rw [hvalues, hpending, TotalMap.default_set]
        refine ⟨fun k hk => ?_, hdefault, fun k hk => ?_⟩
        · -- a reader is the target of an arc
          rcases Worklist.mem_pending_addAll.mp hk with hk | hk
          · exact hrest k hk
          · rw [hflow] at hk
            exact List.mem_append_right _
              (List.mem_map.mpr ⟨_, Digraph.mem_successors.mp hk, rfl⟩)
        · -- the visited key is one of those that may wait
          have hjk : j ≠ k := by
            rintro rfl
            exact hk hj
          rw [TotalMap.get_set_of_ne _ hjk]
          exact hout k hk

/-- The values settle, all at once, if every cycle of the graph has a back edge. -/
theorem settles_values (g : Digraph κ) (hflow : E.flow = g.flow)
    (hcycle : g.AcyclicWhere fun i j => w.isBackedge i j = false) :
    Settles fun n => (E.visits w a n).values := by
  obtain ⟨N, hN⟩ := exists_common_index (a.pending.pending ++ g.arcs.map Prod.snd)
    fun k _ => settles_get hL hT hmono hw ha g hflow hcycle k
  refine ⟨N, fun n hn => ?_⟩
  obtain ⟨-, hdefault, hout⟩ := visits_confined hL hT hmono hw ha g hflow n
  obtain ⟨-, hdefault', hout'⟩ := visits_confined hL hT hmono hw ha g hflow N
  refine TotalMap.ext_get (hdefault.trans hdefault'.symm) fun k => ?_
  by_cases hk : k ∈ a.pending.pending ++ g.arcs.map Prod.snd
  · exact hN k hk n hn
  · rw [hout k hk, hout' k hk]

/-- A key that waits is visited in its turn. -/
theorem exists_turn {k : κ} : ∀ (before : List κ) {n : Nat} {behind : List κ},
    (E.visits w a n).pending.pending = before ++ k :: behind →
      ∃ i rest, n ≤ i ∧ (E.visits w a i).pending.pending = k :: rest
  | [], n, behind, h => ⟨n, behind, Nat.le_refl n, h⟩
  | j :: before, n, behind, h => by
      rcases visits_succ hL hT hmono hw ha n with ⟨hnil, -⟩ | ⟨j', rest, hpop, hv⟩
      · rw [hnil] at h
        cases h
      rw [h, List.cons_append] at hpop
      obtain ⟨rfl, rfl⟩ := List.cons.inj hpop
      have hnext : ∃ behind', (E.visits w a (n + 1)).pending.pending = before ++ k :: behind' := by
        cases hv with
        | unchanged hy hvalues hpending => exact ⟨behind, congrArg Worklist.pending hpending⟩
        | changed y z hy hne hz hvalues hpending =>
          obtain ⟨added, hadded, -⟩ := Worklist.exists_pending_addAll (E.flow.outgoing j)
            (⟨before ++ k :: behind⟩ : Worklist κ)
          refine ⟨behind ++ added, (congrArg Worklist.pending hpending).trans (hadded.trans ?_)⟩
          rw [List.append_assoc, List.cons_append]
      obtain ⟨behind', h'⟩ := hnext
      obtain ⟨i, rest, hi, hturn⟩ := exists_turn before h'
      exact ⟨i, rest, (Nat.le_succ n).trans hi, hturn⟩

/-- A key that does not wait has what it heads for, from its last visit. -/
theorem target_visits_of_not_mem (hF : E.flow.Coherent)
    (hstart : ∀ k ∈ E.flow.domain, k ∈ a.pending.pending) (n : Nat) :
    ∀ k ∈ E.flow.domain, k ∉ (E.visits w a n).pending.pending →
      E.target w k (E.visits w a n).values = .ok ((E.visits w a n).values.get k) := by
  induction n with
  | zero => exact fun k hk hwait => absurd (hstart k hk) hwait
  | succ n ih =>
    intro k hk hwait
    have hrising := rising_visits hL hT hmono hw ha n
    rcases visits_succ hL hT hmono hw ha n with ⟨-, hsame⟩ | ⟨j, rest, hpop, hv⟩
    · rw [hsame] at hwait ⊢
      exact ih k hk hwait
    · cases hv with
      | unchanged hy hvalues hpending =>
        rw [hpending] at hwait
        rw [hvalues]
        by_cases hkj : k = j
        · rw [hkj]
          exact hrising.target_of_unchanged hy
        · exact ih k hk (by rw [hpop]; simp [hkj, hwait])
      | changed y z hy hne hz hvalues hpending =>
        -- a key that reads `j` waits now, so `k` reads what it read before
        rw [hpending, Worklist.mem_pending_addAll, not_or] at hwait
        have hread : j ∉ E.flow.incoming k := fun hj => hwait.2 (hF.listed k hk j hj)
        rw [hvalues, target, evaluate_set_of_not_mem hread]
        by_cases hkj : k = j
        · subst hkj
          rw [TotalMap.get_set_self]
          have hym := evaluate_mem hL hT.preserves hrising.members hy
          exact (hrising.target_of_changed hL hw hym hy hne hz).1
        · rw [TotalMap.get_set_of_ne _ (Ne.symm hkj)]
          exact ih k hk (by rw [hpop]; simp [hkj, hwait.1])

theorem confined_visits (hF : E.flow.Coherent) (hconf : E.Confined a) (n : Nat) :
    E.Confined (E.visits w a n) := by
  induction n with
  | zero => exact hconf
  | succ n ih =>
    rcases visits_succ hL hT hmono hw ha n with ⟨-, hsame⟩ | ⟨k, rest, hpop, hv⟩
    · rw [hsame]
      exact ih
    · exact ih.visit hF hpop hv

/-- No visit to a key of the domain leads above an assignment that is not left upwards. -/
theorem visits_below (hF : E.flow.Coherent) (hconf : E.Confined a) {t : TotalMap κ α}
    (htm : t.All Member) (hstart : ∀ k, E.lattice.Below (a.values.get k) (t.get k))
    (ht : ∀ k ∈ E.flow.domain, ∃ z, E.target w k t = .ok z ∧ E.lattice.Below z (t.get k))
    (n : Nat) : ∀ k, E.lattice.Below ((E.visits w a n).values.get k) (t.get k) := by
  induction n with
  | zero => exact hstart
  | succ n ih =>
    have hrising := rising_visits hL hT hmono hw ha n
    rcases visits_succ hL hT hmono hw ha n with ⟨-, hsame⟩ | ⟨j, rest, hpop, hv⟩
    · rw [hsame]
      exact ih
    refine hv.below (fun y z hy hne hz => ?_) ih
    have hj : j ∈ E.flow.domain :=
      (confined_visits hL hT hmono hw ha hF hconf n).pending j (by simp [hpop])
    obtain ⟨b, hb, hbt⟩ := ht j hj
    obtain ⟨x, hx, hxm, hbm, hxb⟩ := target_mono hL hT hmono hw hrising.members htm ih hb
    have hym := evaluate_mem hL hT.preserves hrising.members hy
    obtain ⟨htarget, -⟩ := hrising.target_of_changed hL hw hym hy hne hz
    have hxz : Except.ok x = Except.ok z := hx.symm.trans htarget
    cases hxz
    exact hL.below_trans hxm hbm (htm.2 j) hxb hbt

/-- The values that an iteration over the whole domain settles on are the least solution of the
widened equations. -/
theorem leastWidened_visits (hF : E.flow.Coherent) (hconf : E.Confined a)
    (hdomain : ∀ k ∈ E.flow.domain, k ∈ a.pending.pending) (hstart : a.values = E.bottom) {N : Nat}
    (hN : ∀ n, N ≤ n → (E.visits w a n).values = (E.visits w a N).values) :
    E.LeastWidened w Member (E.visits w a N).values := by
  refine ⟨fun k hk => ?_, (confined_visits hL hT hmono hw ha hF hconf N).values, ?_⟩
  · by_cases hwait : k ∈ (E.visits w a N).pending.pending
    · -- the visit in its turn stores where the key heads, and changes nothing
      obtain ⟨before, behind, hsplit⟩ := List.append_of_mem hwait
      obtain ⟨i, rest, hi, hturn⟩ := exists_turn hL hT hmono hw ha before hsplit
      have hrising := rising_visits hL hT hmono hw ha i
      rcases visits_succ hL hT hmono hw ha i with ⟨hnil, -⟩ | ⟨j, rest', hpop, hv⟩
      · rw [hnil] at hturn
        cases hturn
      rw [hturn] at hpop
      obtain ⟨rfl, rfl⟩ := List.cons.inj hpop
      rw [← hN i hi]
      cases hv with
      | unchanged hy hvalues hpending => exact hrising.target_of_unchanged hy
      | changed y z hy hne hz hvalues hpending =>
        have hym := evaluate_mem hL hT.preserves hrising.members hy
        have hkept : (E.visits w a i).values.get k = z := by
          rw [hN i hi, ← hN (i + 1) (hi.trans (Nat.le_succ i)), hvalues, TotalMap.get_set_self]
        rw [hkept]
        exact (hrising.target_of_changed hL hw hym hy hne hz).1
    · -- it has what it heads for since its last visit
      exact target_visits_of_not_mem hL hT hmono hw ha hF hdomain N k hk hwait
  · -- the values started below the assignment and never got above it
    intro t htm ht
    refine visits_below hL hT hmono hw ha hF hconf htm (fun k => ?_) ht N
    rw [hstart, bottom, TotalMap.get_const]
    exact hL.bottom_below (htm.2 k)

end StaticAnalysis.Equations
