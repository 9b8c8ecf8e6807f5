import Mathlib.Data.Fintype.Card
import Mathlib.Data.Set.Finite.List
import Mathlib.Logic.Relation
import StaticAnalysis.Digraph

/-!
Flows whose two directions agree. A solver that evaluates a key again only when something it reads
has changed relies on the readers being listed; a solver that starts from the domain relies on the
readers being keys themselves. The flow along the arcs of a graph has both properties.

Whether an iteration ends often depends on the cycles of the graph, or on those among them that keep
to arcs of some kind. `Digraph.AcyclicWhere` says that there are none.
-/

namespace StaticAnalysis

/-- A relation without cycles whose left sides are all in one list is well founded. -/
theorem wellFounded_of_acyclic {κ : Type} {r : κ → κ → Prop} {ks : List κ}
    (hks : ∀ a b, r a b → a ∈ ks) (hacyclic : ∀ k, ¬ Relation.TransGen r k k) :
    WellFounded r := by
  let path (a b : { k // k ∈ ks }) : Prop := Relation.TransGen r a.1 b.1
  have hfinite : Finite { k // k ∈ ks } := ks.finite_toSet
  have htrans : IsTrans _ path := ⟨fun _ _ _ => Relation.TransGen.trans⟩
  have hirrefl : Std.Irrefl path := ⟨fun a => hacyclic a.1⟩
  have hwf : WellFounded path := Finite.wellFounded_of_trans_of_irrefl path
  -- first the listed keys, by induction along paths, then all others, which have listed ones below
  have hlisted : ∀ a : { k // k ∈ ks }, Acc r a.1 := by
    intro a
    induction a using hwf.induction with
    | _ a ih => exact .intro _ fun b hb => ih ⟨b, hks b a.1 hb⟩ (.single hb)
  exact ⟨fun k => .intro _ fun b hb => hlisted ⟨b, hks b k hb⟩⟩

/-- The readers of a key of the domain are in the domain, and a key of the domain is listed as a
reader of every key that it reads. -/
structure Flow.Coherent {κ : Type} (F : Flow κ) : Prop where
  closed : ∀ k ∈ F.domain, ∀ j ∈ F.outgoing k, j ∈ F.domain
  listed : ∀ k ∈ F.domain, ∀ j ∈ F.incoming k, k ∈ F.outgoing j

/-- The two directions list the same dependencies, also outside the domain. -/
def Flow.Mutual {κ : Type} (F : Flow κ) : Prop := ∀ i j, i ∈ F.incoming j ↔ j ∈ F.outgoing i

namespace Digraph

variable {κ : Type} [DecidableEq κ]

/-- The graphs that can be built: from the empty one by adding nodes and arcs and by turning all
arcs around. -/
inductive Built : Digraph κ → Prop where
  | empty : Built .empty
  | addNode {g : Digraph κ} (k : κ) : Built g → Built (g.addNode k)
  | addArc {g : Digraph κ} (source target : κ) : Built g → Built (g.addArc source target)
  | reverse {g : Digraph κ} : Built g → Built g.reverse

theorem mem_nodes_addNode {g : Digraph κ} {k j : κ} :
    j ∈ (g.addNode k).nodes ↔ j ∈ g.nodes ∨ j = k := by
  unfold addNode
  split
  · next h => exact ⟨Or.inl, fun hj => hj.elim id fun e => e ▸ h⟩
  · simp

theorem arcs_addNode (g : Digraph κ) (k : κ) : (g.addNode k).arcs = g.arcs := by
  unfold addNode
  split <;> rfl

theorem nodes_addArc (g : Digraph κ) (source target : κ) :
    (g.addArc source target).nodes = ((g.addNode source).addNode target).nodes := by
  unfold addArc
  dsimp only
  split <;> rfl

theorem mem_arcs_addArc {g : Digraph κ} {source target : κ} {e : κ × κ} :
    e ∈ (g.addArc source target).arcs ↔ e ∈ g.arcs ∨ e = (source, target) := by
  unfold addArc
  dsimp only
  rw [arcs_addNode, arcs_addNode]
  split
  · next h =>
    rw [arcs_addNode, arcs_addNode]
    exact ⟨Or.inl, fun he => he.elim id fun e => e ▸ h⟩
  · simp

theorem Built.addArcs : ∀ (arcs : List (κ × κ)) {g : Digraph κ}, g.Built → (g.addArcs arcs).Built
  | [], _, h => h
  | a :: arcs, _, h => addArcs arcs (h.addArc a.1 a.2)

theorem built_ofArcs (arcs : List (κ × κ)) : (ofArcs arcs).Built := .addArcs arcs .empty

/-- Both ends of an arc are nodes. -/
theorem Built.ends_mem {g : Digraph κ} (h : g.Built) :
    ∀ e ∈ g.arcs, e.1 ∈ g.nodes ∧ e.2 ∈ g.nodes := by
  induction h with
  | empty => intro e he; simp [Digraph.empty] at he
  | addNode k _ ih =>
    intro e he
    rw [arcs_addNode] at he
    rw [mem_nodes_addNode, mem_nodes_addNode]
    exact ⟨Or.inl (ih e he).1, Or.inl (ih e he).2⟩
  | addArc source target _ ih =>
    intro e he
    simp only [nodes_addArc, mem_nodes_addNode]
    rcases mem_arcs_addArc.mp he with he | rfl
    · exact ⟨Or.inl (Or.inl (ih e he).1), Or.inl (Or.inl (ih e he).2)⟩
    · exact ⟨Or.inl (Or.inr rfl), Or.inr rfl⟩
  | reverse _ ih =>
    intro e he
    obtain ⟨e', he', rfl⟩ := List.mem_map.mp he
    exact ⟨(ih e' he').2, (ih e' he').1⟩

theorem Built.coherent {g : Digraph κ} (h : g.Built) : g.flow.Coherent where
  closed _ _ _ hj := (h.ends_mem _ (mem_successors.mp hj)).2
  listed _ _ _ hj := mem_successors.mpr (mem_predecessors.mp hj)

/-- The flow of a graph that can be built is coherent. -/
theorem coherent_of_flow {F : Flow κ} (hF : (∃ g : Digraph κ, g.Built ∧ F = g.flow) ∨ F.Coherent) :
    F.Coherent := by
  rcases hF with ⟨g, hg, rfl⟩ | hF
  · exact hg.coherent
  · exact hF

theorem mutual_flow (g : Digraph κ) : g.flow.Mutual :=
  fun _ _ => mem_predecessors.trans mem_successors.symm

/-! ### Cycles -/

/-- An arc for which a condition on its ends holds. -/
def ArcWhere (g : Digraph κ) (r : κ → κ → Prop) (i j : κ) : Prop := j ∈ g.successors i ∧ r i j

/-- The arcs for which a condition holds form no cycle. -/
def AcyclicWhere (g : Digraph κ) (r : κ → κ → Prop) : Prop :=
  ∀ k, ¬ Relation.TransGen (g.ArcWhere r) k k

variable {g : Digraph κ} {r : κ → κ → Prop}

theorem AcyclicWhere.mono (h : g.AcyclicWhere r) {r' : κ → κ → Prop}
    (hr : ∀ i, ∀ j ∈ g.successors i, r' i j → r i j) : g.AcyclicWhere r' :=
  fun k hk => h k (Relation.TransGen.mono (fun i j hij => ⟨hij.1, hr i j hij.1 hij.2⟩) k k hk)

theorem AcyclicWhere.wellFounded (h : g.AcyclicWhere r) : WellFounded (g.ArcWhere r) := by
  have hsources : ∀ i j, g.ArcWhere r i j → i ∈ g.arcs.map Prod.fst :=
    fun i j hij => List.mem_map.mpr ⟨_, mem_successors.mp hij.1, rfl⟩
  exact wellFounded_of_acyclic hsources h

theorem AcyclicWhere.wellFounded_swap (h : g.AcyclicWhere r) :
    WellFounded fun j i => g.ArcWhere r i j := by
  have htargets : ∀ j i, g.ArcWhere r i j → j ∈ g.arcs.map Prod.snd :=
    fun j i hij => List.mem_map.mpr ⟨_, mem_successors.mp hij.1, rfl⟩
  exact wellFounded_of_acyclic htargets fun k hk => h k (Relation.transGen_swap.mp hk)

/-- Arcs that go up in a ranking of the nodes form no cycle. -/
theorem acyclicWhere_of_ranked (rank : κ → Nat)
    (h : ∀ e ∈ g.arcs, r e.1 e.2 → rank e.1 < rank e.2) : g.AcyclicWhere r := by
  intro k hk
  have hrank : Relation.TransGen (· < ·) (rank k) (rank k) :=
    hk.lift rank fun i j hij => h (i, j) (mem_successors.mp hij.1) hij.2
  rw [Relation.transGen_eq_self] at hrank
  exact lt_irrefl _ hrank

end Digraph

end StaticAnalysis
