import StaticAnalysis.Proofs.Founded
import StaticAnalysis.Proofs.LeastSolution
import StaticAnalysis.Proofs.Widening

/-!
Visits in any order. A worklist only chooses which key is visited next. Here the keys of the domain
are visited in any order and any number of times, from the bottom and without widening, whatever the
worklist holds. A visit overwrites the value of its key, and still no value ever goes down: the
values are founded throughout. They are at most what a step makes of them, and they do not get above
any post-solution.
-/

namespace StaticAnalysis.Equations

variable {κ α : Type} [Ord κ] [Std.TransOrd κ] [DecidableEq κ] [DecidableEq α]

/-- The iterations that visits to keys of the domain lead to. Between two visits anything may be put
on the worklist or taken off it. A visit that meets a fault counts as well. -/
inductive Wandering (E : Equations κ α) : Iteration κ α → Prop
  | start : Wandering E (.start E)
  | requeue {a : Iteration κ α} (pending : Worklist κ) (h : Wandering E a) :
      Wandering E { a with pending := pending }
  | visit {a : Iteration κ α} {k : κ} (hk : k ∈ E.flow.domain) (h : Wandering E a) :
      Wandering E (E.process .never k a).state

variable {E : Equations κ α} {Member : α → Prop} {k : κ} {a b : Iteration κ α} {m t : TotalMap κ α}

/-- Visits to a list of keys, one after the other. -/
theorem Wandering.visits : ∀ (ks : List κ) {a : Iteration κ α}, (∀ k ∈ ks, k ∈ E.flow.domain) →
    E.Wandering a → E.Wandering (ks.foldl (fun a k => (E.process .never k a).state) a)
  | [], _, _, h => h
  | k :: ks, _, hks, h =>
      .visits ks (fun j hj => hks j (List.mem_cons_of_mem _ hj))
        (.visit (hks k (List.mem_cons_self ..)) h)

variable [Std.LawfulEqOrd κ]

/-- What visits to keys of the domain keep: the values are founded, below every post-solution, and
the bottom outside the domain. -/
structure Ascending (E : Equations κ α) (Member : α → Prop) (m : TotalMap κ α) : Prop where
  founded : E.Founded Member m
  lower : E.Lower Member m
  outside : ∀ k, k ∉ E.flow.domain → m.get k = E.lattice.bottom

omit [DecidableEq κ] in
theorem ascending_bottom (hL : E.lattice.Lawful Member) : E.Ascending Member E.bottom where
  founded := founded_bottom hL
  lower := lower_bottom hL
  outside k _ := by rw [bottom, TotalMap.get_const]

section Visits

variable (hL : E.lattice.Lawful Member) (hE : E.Preserves Member) (hmono : E.Monotone Member)

include hL hE hmono

theorem Visit.ascending (hv : E.Visit .never k a b) (hk : k ∈ E.flow.domain)
    (h : E.Ascending Member a.values) : E.Ascending Member b.values := by
  refine ⟨(hv.founded hL hE hmono h.founded).1, hv.lower hL hE hmono hk h.lower, fun j hj => ?_⟩
  rw [hv.get_of_ne (ne_of_mem_of_not_mem hk hj)]
  exact h.outside j hj

/-- Processing a key of the domain keeps this also if it meets a fault. -/
theorem Ascending.process (h : E.Ascending Member a.values) (hk : k ∈ E.flow.domain) :
    E.Ascending Member (E.process .never k a).state.values := by
  rcases E.process_cases .never k a with ⟨b, hb, hv⟩ | ⟨fault, b, hb, hvalues, -⟩
  · rw [hb]
    exact hv.ascending hL hE hmono hk h
  · rw [hb]
    show E.Ascending Member b.values
    rw [hvalues]
    exact h

/-- Processing a key lowers no value. -/
theorem Ascending.below_process (h : E.Ascending Member a.values) (hk : k ∈ E.flow.domain) :
    E.assignments.Below a.values (E.process .never k a).state.values := by
  have hnext := h.process hL hE hmono hk
  rw [below_assignments_iff, h.founded.default, hnext.founded.default]
  refine ⟨hL.below_refl hL.bottom_mem, fun j => ?_⟩
  rcases E.process_cases .never k a with ⟨b, hb, hv⟩ | ⟨fault, b, hb, hvalues, -⟩
  · rw [hb]
    exact (hv.founded hL hE hmono h.founded).2 j
  · rw [hb]
    show E.lattice.Below (a.values.get j) (b.values.get j)
    rw [hvalues]
    exact hL.below_refl (h.founded.members.2 j)

omit [DecidableEq κ] in
/-- A step lowers no value. -/
theorem Ascending.below_step (h : E.Ascending Member m) (ht : E.step m = .ok t) :
    E.assignments.Below m t := by
  obtain ⟨hdefault, hin, hout⟩ := step_eq_ok_iff.mp ht
  rw [below_assignments_iff, h.founded.default, hdefault]
  refine ⟨hL.below_refl hL.bottom_mem, fun k => ?_⟩
  by_cases hk : k ∈ E.flow.domain
  · exact h.founded.below_evaluate hL hE hmono (hin k hk)
  · rw [h.outside k hk, hout k hk]
    exact hL.below_refl hL.bottom_mem

theorem Wandering.ascending (h : E.Wandering a) : E.Ascending Member a.values := by
  induction h with
  | start => exact ascending_bottom hL
  | requeue pending _ ih => exact ih
  | visit hk _ ih => exact ih.process hL hE hmono hk

end Visits

/-- Chaotic iteration ascends and never overshoots. With monotone transfer functions over a lawful
lattice, along any flow, let keys of the domain have been visited from the bottom in any order. The
next visit to a key of the domain lowers no value, no value is above what a step makes of it, and the
values are below every post-solution. If the transfer functions are total, every visit succeeds and
so does the step. -/
theorem process_ascends (hL : E.lattice.Lawful Member) (hE : E.Preserves Member)
    (hmono : E.Monotone Member) (ha : E.Wandering a) :
    (∀ k ∈ E.flow.domain, E.assignments.Below a.values (E.process .never k a).state.values) ∧
    (∀ t, E.step a.values = .ok t → E.assignments.Below a.values t) ∧
    (∀ t, t.All Member → E.PostSolution t → E.assignments.Below a.values t) ∧
    (E.Total Member →
      (∀ k, ∃ b, E.process .never k a = .finished b) ∧ ∃ t, E.step a.values = .ok t) := by
  have h := ha.ascending hL hE hmono
  refine ⟨fun k hk => h.below_process hL hE hmono hk, fun t ht => h.below_step hL hE hmono ht,
    fun t htm ht => h.lower.below_assignments hL htm ht, fun hT => ⟨fun k => ?_, ?_⟩⟩
  · exact process_total hL hT (fun _ => ⟨_, rfl⟩) h.founded.members k
  · exact (step_total hL hT h.founded.members).imp fun _ ht => ht.1

/-- The ring after visits that no worklist would make: its reader first, then a key of the ring, the
source twice, and the other key of the ring, with a key outside the graph left waiting. -/
def ringDetour : Iteration Nat (Flat Nat) :=
  let a := [3, 2, 0, 0, 1].foldl (fun a k => (ring.process .never k a).state) (.start ring)
  { a with pending := ⟨[9]⟩ }

theorem wandering_ringDetour : ring.Wandering ringDetour :=
  .requeue _ (.visits [3, 2, 0, 0, 1] (by decide) .start)

/-- One more visit raises a value, and what is reached is still below the solution. -/
theorem process_ringDetour_ascends :
    ring.Monotone (fun _ => True) ∧ ring.Wandering ringDetour ∧
      (∃ b, ring.process .never 2 ringDetour = .finished b ∧
        ringDetour.values ≠ Iteration.values b ∧
        ring.assignments.Below ringDetour.values (Iteration.values b)) ∧
      (∃ t, ring.step ringDetour.values = .ok t ∧ ring.assignments.Below ringDetour.values t) ∧
      ∀ t, ring.PostSolution t → ring.assignments.Below ringDetour.values t := by
  obtain ⟨hvisit, hstep, hpost, htotal⟩ := process_ascends Flat.lattice_lawful
    (fun _ _ _ _ _ => trivial) monotone_ring wandering_ringDetour
  obtain ⟨hfinished, t, ht⟩ := htotal fun _ _ _ => ⟨_, rfl, trivial⟩
  obtain ⟨b, hb⟩ := hfinished 2
  have hbelow := hvisit 2 (by decide)
  have hne : ringDetour.values ≠ (ring.process .never 2 ringDetour).state.values := by decide
  rw [hb] at hbelow hne
  exact ⟨monotone_ring, wandering_ringDetour, ⟨b, hb, hne, hbelow⟩, ⟨t, ht, hstep t ht⟩,
    fun t ht => hpost t ⟨trivial, fun _ => trivial⟩ ht⟩

end StaticAnalysis.Equations
