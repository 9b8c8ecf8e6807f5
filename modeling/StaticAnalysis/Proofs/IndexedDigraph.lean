import Mathlib.Data.List.Nodup
import StaticAnalysis.Digraph.Indexed
import StaticAnalysis.Proofs.Flow

/-!
Neighbour tables as they are built. Both maps know exactly the nodes, and they list the same arcs,
each once and from its two ends. That the second map never gets an arc twice rests on this agreement,
as only the first one is asked; and since turning a graph around exchanges the maps, the agreement has
to hold both ways. It holds of the empty graph and is kept by adding nodes and arcs and by turning all
arcs around. What the arcs grouped by their sources look like, and how many there are, follows from it.

Under the same calls, a graph with tables goes through the same nodes and neighbours as a plain graph,
which keeps one list of arcs. What is proved of the flow along a plain graph holds of it as well.
-/

namespace StaticAnalysis

variable {κ : Type} [DecidableEq κ]

/-! ### Plain graphs -/

namespace Digraph

variable {d : Digraph κ}

theorem successors_reverse (d : Digraph κ) (k : κ) : d.reverse.successors k = d.predecessors k := by
  simp [successors, predecessors, reverse, List.filter_map, Function.comp_def]

theorem predecessors_reverse (d : Digraph κ) (k : κ) :
    d.reverse.predecessors k = d.successors k := by
  simp [successors, predecessors, reverse, List.filter_map, Function.comp_def]

theorem successors_addNode (d : Digraph κ) (k j : κ) :
    (d.addNode k).successors j = d.successors j := by
  rw [successors, arcs_addNode, successors]

theorem predecessors_addNode (d : Digraph κ) (k j : κ) :
    (d.addNode k).predecessors j = d.predecessors j := by
  rw [predecessors, arcs_addNode, predecessors]

theorem arcs_addArc (d : Digraph κ) (a b : κ) :
    (d.addArc a b).arcs = if (a, b) ∈ d.arcs then d.arcs else d.arcs ++ [(a, b)] := by
  unfold addArc
  dsimp only
  rw [arcs_addNode, arcs_addNode]
  split
  · rw [arcs_addNode, arcs_addNode]
  · rfl

theorem successors_addArc (d : Digraph κ) (a b k : κ) : (d.addArc a b).successors k =
    if k = a ∧ b ∉ d.successors a then d.successors k ++ [b] else d.successors k := by
  simp only [mem_successors]
  rw [successors, arcs_addArc]
  by_cases hab : (a, b) ∈ d.arcs
  · simp [hab, successors]
  · by_cases hk : k = a
    · simp [hab, hk, successors]
    · simp [hab, hk, Ne.symm hk, successors]

theorem predecessors_addArc (d : Digraph κ) (a b k : κ) : (d.addArc a b).predecessors k =
    if k = b ∧ b ∉ d.successors a then d.predecessors k ++ [a] else d.predecessors k := by
  simp only [mem_successors]
  rw [predecessors, arcs_addArc]
  by_cases hab : (a, b) ∈ d.arcs
  · simp [hab, predecessors]
  · by_cases hk : k = b
    · simp [hab, hk, predecessors]
    · simp [hab, hk, Ne.symm hk, predecessors]

theorem Built.nodup_arcs (h : d.Built) : d.arcs.Nodup := by
  induction h with
  | empty => exact .nil
  | addNode k _ ih => rwa [arcs_addNode]
  | addArc a b _ ih =>
    rw [arcs_addArc]
    split
    · exact ih
    · next hab => exact ih.append (List.nodup_singleton _) (by simpa using hab)
  | reverse _ ih => exact ih.map Prod.swap_injective

end Digraph

namespace IndexedDigraph

variable [Hashable κ] {g : IndexedDigraph κ}

/-- The graphs that can be built: from the empty one by adding nodes and arcs and by turning all
arcs around. -/
inductive Built : IndexedDigraph κ → Prop where
  | empty : Built .empty
  | addNode {g : IndexedDigraph κ} (k : κ) : Built g → Built (g.addNode k)
  | addArc {g : IndexedDigraph κ} (source target : κ) : Built g → Built (g.addArc source target)
  | reverse {g : IndexedDigraph κ} : Built g → Built g.reverse

/-! ### What is kept while a graph is built -/

/-- The node list and the two maps agree. -/
structure Consistent (g : IndexedDigraph κ) : Prop where
  /-- No node is listed twice. -/
  nodup_nodes : g.nodes.Nodup
  /-- The first map has the nodes as its keys. -/
  mem_targetsOf : ∀ k, k ∈ g.targetsOf ↔ k ∈ g.nodes
  /-- The second map has the nodes as its keys. -/
  mem_sourcesOf : ∀ k, k ∈ g.sourcesOf ↔ k ∈ g.nodes
  /-- No successor is listed twice. -/
  nodup_successors : ∀ k, (g.successors k).Nodup
  /-- No predecessor is listed twice. -/
  nodup_predecessors : ∀ k, (g.predecessors k).Nodup
  /-- The two maps list the same arcs. -/
  dual : ∀ a b, b ∈ g.successors a ↔ a ∈ g.predecessors b

theorem Consistent.contains_iff (h : g.Consistent) (k : κ) : g.contains k = true ↔ k ∈ g.nodes :=
  Std.HashMap.contains_iff_mem.trans (h.mem_targetsOf k)

theorem consistent_empty : (empty : IndexedDigraph κ).Consistent where
  nodup_nodes := .nil
  mem_targetsOf _ := by simp [empty]
  mem_sourcesOf _ := by simp [empty]
  nodup_successors k := by simp [successors_empty]
  nodup_predecessors k := by simp [predecessors_empty]
  dual a b := by simp [successors_empty, predecessors_empty]

theorem Consistent.reverse (h : g.Consistent) : g.reverse.Consistent where
  nodup_nodes := h.nodup_nodes
  mem_targetsOf := h.mem_sourcesOf
  mem_sourcesOf := h.mem_targetsOf
  nodup_successors := h.nodup_predecessors
  nodup_predecessors := h.nodup_successors
  dual a b := (h.dual b a).symm

theorem Consistent.nodes_addNode (h : g.Consistent) (k : κ) :
    (g.addNode k).nodes = if k ∈ g.nodes then g.nodes else g.nodes ++ [k] := by
  unfold addNode
  simp only [h.contains_iff]
  split <;> rfl

theorem Consistent.mem_nodes_addNode (h : g.Consistent) {k j : κ} :
    j ∈ (g.addNode k).nodes ↔ j ∈ g.nodes ∨ j = k := by
  rw [h.nodes_addNode]
  split
  · next hk => exact ⟨Or.inl, fun hj => hj.elim id fun e => e ▸ hk⟩
  · simp

/-- A new node is no key of the second map either, though that one is not asked. -/
theorem Consistent.predecessors_addNode (h : g.Consistent) (k j : κ) :
    (g.addNode k).predecessors j = g.predecessors j := by
  unfold addNode
  split
  · rfl
  · next hk =>
    rw [h.contains_iff, ← h.mem_sourcesOf] at hk
    exact getD_insert_nil hk j

theorem Consistent.addNode (h : g.Consistent) (k : κ) : (g.addNode k).Consistent := by
  by_cases hk : k ∈ g.nodes
  · rwa [IndexedDigraph.addNode, if_pos ((h.contains_iff k).mpr hk)]
  · have hnew : g.addNode k = ⟨g.nodes ++ [k], g.targetsOf.insert k [], g.sourcesOf.insert k []⟩ :=
      if_neg (mt (h.contains_iff k).mp hk)
    exact
      { nodup_nodes := by
          rw [hnew]
          exact h.nodup_nodes.append (List.nodup_singleton k) (by simpa using hk)
        mem_targetsOf := fun j => by
          rw [hnew, Std.HashMap.mem_insert, beq_iff_eq, List.mem_append, List.mem_singleton,
            h.mem_targetsOf, or_comm, eq_comm]
        mem_sourcesOf := fun j => by
          rw [hnew, Std.HashMap.mem_insert, beq_iff_eq, List.mem_append, List.mem_singleton,
            h.mem_sourcesOf, or_comm, eq_comm]
        nodup_successors := fun j => by
          rw [successors_addNode]
          exact h.nodup_successors j
        nodup_predecessors := fun j => by
          rw [h.predecessors_addNode]
          exact h.nodup_predecessors j
        dual := fun a b => by
          rw [successors_addNode, h.predecessors_addNode]
          exact h.dual a b }

/-- Entering a list for a key of a map adds no key. -/
theorem mem_insert_of_mem {m : Std.HashMap κ (List κ)} {a k : κ} (ha : a ∈ m) (ts : List κ) :
    k ∈ m.insert a ts ↔ k ∈ m := by
  rw [Std.HashMap.mem_insert, beq_iff_eq]
  exact ⟨fun hk => hk.elim (fun e => e ▸ ha) id, Or.inr⟩

theorem mem_targetsOf_link {a b k : κ} (ha : a ∈ g.targetsOf) :
    k ∈ (g.link a b).targetsOf ↔ k ∈ g.targetsOf := by
  unfold link
  split
  · rfl
  · exact mem_insert_of_mem ha _

theorem mem_sourcesOf_link {a b k : κ} (hb : b ∈ g.sourcesOf) :
    k ∈ (g.link a b).sourcesOf ↔ k ∈ g.sourcesOf := by
  unfold link
  split
  · rfl
  · exact mem_insert_of_mem hb _

theorem mem_successors_link {a b k j : κ} :
    j ∈ (g.link a b).successors k ↔ j ∈ g.successors k ∨ k = a ∧ j = b := by
  rw [successors_link]
  split
  · next h => simp [h.1]
  · next h =>
    -- nothing was entered: the arc is another one, or it was listed before
    refine ⟨Or.inl, fun hj => hj.elim id ?_⟩
    rintro ⟨rfl, rfl⟩
    exact not_not.mp fun hj => h ⟨rfl, hj⟩

theorem Consistent.mem_predecessors_link (h : g.Consistent) {a b k j : κ} :
    j ∈ (g.link a b).predecessors k ↔ j ∈ g.predecessors k ∨ k = b ∧ j = a := by
  rw [predecessors_link]
  split
  · next hk => simp [hk.1]
  · next hk =>
    -- the same, but that it was listed before is known of the first map only
    refine ⟨Or.inl, fun hj => hj.elim id ?_⟩
    rintro ⟨rfl, rfl⟩
    exact (h.dual _ _).mp (not_not.mp fun hj => hk ⟨rfl, hj⟩)

theorem Consistent.link (h : g.Consistent) {a b : κ} (ha : a ∈ g.nodes) (hb : b ∈ g.nodes) :
    (g.link a b).Consistent where
  nodup_nodes := by
    rw [nodes_link]
    exact h.nodup_nodes
  mem_targetsOf k := by
    rw [nodes_link, mem_targetsOf_link ((h.mem_targetsOf a).mpr ha)]
    exact h.mem_targetsOf k
  mem_sourcesOf k := by
    rw [nodes_link, mem_sourcesOf_link ((h.mem_sourcesOf b).mpr hb)]
    exact h.mem_sourcesOf k
  nodup_successors k := by
    rw [successors_link]
    split
    · next hk =>
      exact (h.nodup_successors k).append (List.nodup_singleton b) (by simpa [hk.1] using hk.2)
    · exact h.nodup_successors k
  nodup_predecessors k := by
    rw [predecessors_link]
    split
    · next hk =>
      -- the target is not listed for the source, so the source is not listed for the target
      have hnew : a ∉ g.predecessors k := by
        rw [hk.1, ← h.dual]
        exact hk.2
      exact (h.nodup_predecessors k).append (List.nodup_singleton a) (by simpa using hnew)
    · exact h.nodup_predecessors k
  dual i j := by
    rw [mem_successors_link, h.mem_predecessors_link, h.dual, and_comm]

theorem Consistent.addArc (h : g.Consistent) (a b : κ) : (g.addArc a b).Consistent := by
  have ha := h.addNode a
  refine (ha.addNode b).link ?_ ?_
  · exact ha.mem_nodes_addNode.mpr (Or.inl (h.mem_nodes_addNode.mpr (Or.inr rfl)))
  · exact ha.mem_nodes_addNode.mpr (Or.inr rfl)

theorem Built.consistent (hg : g.Built) : g.Consistent := by
  induction hg with
  | empty => exact consistent_empty
  | addNode k _ ih => exact ih.addNode k
  | addArc a b _ ih => exact ih.addArc a b
  | reverse _ ih => exact ih.reverse

/-- A new arc makes its source the last predecessor of its target. -/
theorem Consistent.predecessors_addArc (h : g.Consistent) (a b k : κ) :
    (g.addArc a b).predecessors k =
      if k = b ∧ b ∉ g.successors a then g.predecessors k ++ [a] else g.predecessors k := by
  simp only [IndexedDigraph.addArc, predecessors_link, successors_addNode,
    (h.addNode a).predecessors_addNode, h.predecessors_addNode]

/-! ### All arcs -/

theorem Consistent.mem_nodes_of_successors (h : g.Consistent) {a b : κ} (hab : b ∈ g.successors a) :
    a ∈ g.nodes := by
  rw [← h.mem_targetsOf]
  by_contra ha
  rw [successors, Std.HashMap.getD_eq_fallback ha] at hab
  exact List.not_mem_nil hab

theorem Consistent.mem_nodes_of_predecessors (h : g.Consistent) {a b : κ}
    (hab : a ∈ g.predecessors b) : b ∈ g.nodes :=
  h.reverse.mem_nodes_of_successors hab

theorem Consistent.mem_arcList (h : g.Consistent) (a b : κ) :
    (a, b) ∈ g.arcList ↔ b ∈ g.successors a := by
  simpa [arcList] using h.mem_nodes_of_successors

theorem Consistent.nodup_arcList (h : g.Consistent) : g.arcList.Nodup := by
  refine List.nodup_flatMap.mpr ⟨fun k _ => ?_, h.nodup_nodes.imp fun {j k} hjk => ?_⟩
  · exact (h.nodup_successors k).map (Prod.mk_right_injective k)
  · -- arcs of different sources are different
    intro e hj hk
    simp only [List.mem_map] at hj hk
    obtain ⟨_, -, rfl⟩ := hj
    obtain ⟨_, -, he⟩ := hk
    exact hjk (congrArg Prod.fst he).symm

/-- The first map holds one row for every node. -/
theorem Consistent.perm_rows (h : g.Consistent) :
    g.targetsOf.toList.Perm (g.nodes.map fun k => (k, g.successors k)) := by
  have hrows : g.targetsOf.toList.Nodup :=
    Std.HashMap.distinct_keys_toList.imp fun {r s} hrs e => by simp [e] at hrs
  have hnodes : (g.nodes.map fun k => (k, g.successors k)).Nodup :=
    h.nodup_nodes.map fun _ _ e => congrArg Prod.fst e
  refine (List.perm_ext_iff_of_nodup hrows hnodes).mpr ?_
  rintro ⟨k, ts⟩
  rw [Std.HashMap.mem_toList_iff_getElem?_eq_some]
  simp only [List.mem_map, Prod.mk.injEq, ← h.mem_targetsOf, successors,
    Std.HashMap.getD_eq_getD_getElem?]
  constructor
  · intro hk
    exact ⟨k, Std.HashMap.mem_iff_isSome_getElem?.mpr (by simp [hk]), rfl, by simp [hk]⟩
  · rintro ⟨k, hk, rfl, rfl⟩
    rw [Std.HashMap.getElem?_eq_some_getElem hk]
    rfl

theorem Consistent.length_arcList (h : g.Consistent) : g.arcList.length = g.numArcs := by
  have hlengths : g.numArcs = (g.targetsOf.toList.map fun row => row.2.length).sum := by
    rw [numArcs, Std.HashMap.fold_eq_foldl_toList, List.sum_eq_foldl, List.foldl_map]
  have hrows := (h.perm_rows.map fun row => row.2.length).sum_eq
  rw [hlengths, hrows, arcList, List.length_flatMap, List.map_map]
  simp [Function.comp_def]

/-! ### Turning a graph around -/

/-- Two graphs whose neighbour lists are exchanged stay so when an arc is added to one and the arc
turned around to the other: each asks its own successors whether the arc is new, and by the agreement
of the two maps of the first graph they give the same answer. -/
theorem Consistent.opposite_addArc (h : g.Consistent) {g' : IndexedDigraph κ} (h' : g'.Consistent)
    (hs : g.successors = g'.predecessors) (hp : g.predecessors = g'.successors) (a b : κ) :
    (g.addArc a b).successors = (g'.addArc b a).predecessors ∧
      (g.addArc a b).predecessors = (g'.addArc b a).successors := by
  have hnew : b ∈ g.successors a ↔ a ∈ g'.successors b := by rw [h.dual, hp]
  constructor
  · funext k
    simp only [successors_addArc, h'.predecessors_addArc, hnew, congrFun hs k]
  · funext k
    simp only [h.predecessors_addArc, successors_addArc, hnew, congrFun hp k]

theorem Consistent.opposite_addArcs (arcs : List (κ × κ)) (h : g.Consistent)
    {g' : IndexedDigraph κ} (h' : g'.Consistent) (hs : g.successors = g'.predecessors)
    (hp : g.predecessors = g'.successors) :
    (g.addArcs arcs).successors = (g'.addArcs (arcs.map Prod.swap)).predecessors ∧
      (g.addArcs arcs).predecessors = (g'.addArcs (arcs.map Prod.swap)).successors := by
  induction arcs generalizing g g' with
  | nil => exact ⟨hs, hp⟩
  | cons a arcs ih =>
    obtain ⟨hs', hp'⟩ := h.opposite_addArc h' hs hp a.1 a.2
    rw [List.map_cons, addArcs_cons, addArcs_cons]
    exact ih (h.addArc a.1 a.2) (h'.addArc a.2 a.1) hs' hp'

theorem Built.addArcs (hg : g.Built) (arcs : List (κ × κ)) : (g.addArcs arcs).Built := by
  induction arcs generalizing g with
  | nil => exact hg
  | cons a arcs ih =>
    rw [addArcs_cons]
    exact ih (hg.addArc a.1 a.2)

theorem built_ofArcs (arcs : List (κ × κ)) : (ofArcs arcs).Built := .addArcs .empty arcs

/-! ### The plain graph -/

/-- The same nodes and neighbour lists as a plain graph. -/
structure Represents (g : IndexedDigraph κ) (d : Digraph κ) : Prop where
  nodes : g.nodes = d.nodes
  successors : ∀ k, g.successors k = d.successors k
  predecessors : ∀ k, g.predecessors k = d.predecessors k

variable {d : Digraph κ}

theorem represents_empty : (empty : IndexedDigraph κ).Represents .empty :=
  ⟨rfl, successors_empty, predecessors_empty⟩

theorem Represents.addNode (h : g.Represents d) (hg : g.Consistent) (k : κ) :
    (g.addNode k).Represents (d.addNode k) where
  nodes := by
    rw [hg.nodes_addNode, h.nodes, Digraph.addNode]
    split <;> rfl
  successors j := by rw [successors_addNode, Digraph.successors_addNode, h.successors]
  predecessors j := by rw [hg.predecessors_addNode, Digraph.predecessors_addNode, h.predecessors]

theorem Represents.addArc (h : g.Represents d) (hg : g.Consistent) (a b : κ) :
    (g.addArc a b).Represents (d.addArc a b) where
  nodes := by
    rw [IndexedDigraph.addArc, nodes_link, Digraph.nodes_addArc]
    exact ((h.addNode hg a).addNode (hg.addNode a) b).nodes
  successors k := by rw [successors_addArc, Digraph.successors_addArc, h.successors, h.successors]
  predecessors k := by
    rw [hg.predecessors_addArc, Digraph.predecessors_addArc, h.predecessors, h.successors]

theorem Represents.reverse (h : g.Represents d) : g.reverse.Represents d.reverse where
  nodes := h.nodes
  successors k := by rw [successors_reverse, Digraph.successors_reverse, h.predecessors]
  predecessors k := by rw [predecessors_reverse, Digraph.predecessors_reverse, h.successors]

theorem Represents.addArcs (h : g.Represents d) (hg : g.Consistent) (arcs : List (κ × κ)) :
    (g.addArcs arcs).Represents (d.addArcs arcs) := by
  induction arcs generalizing g d with
  | nil => exact h
  | cons a arcs ih =>
    rw [addArcs_cons]
    exact ih (h.addArc hg a.1 a.2) (hg.addArc a.1 a.2)

theorem represents_ofArcs (arcs : List (κ × κ)) : (ofArcs arcs).Represents (Digraph.ofArcs arcs) :=
  represents_empty.addArcs consistent_empty arcs

/-- The calls that build the graph with tables build the plain graph that it stands for. -/
theorem Built.exists_represents (hg : g.Built) : ∃ d : Digraph κ, d.Built ∧ g.Represents d := by
  induction hg with
  | empty => exact ⟨_, .empty, represents_empty⟩
  | addNode k hg ih =>
    obtain ⟨d, hd, h⟩ := ih
    exact ⟨_, hd.addNode k, h.addNode hg.consistent k⟩
  | addArc a b hg ih =>
    obtain ⟨d, hd, h⟩ := ih
    exact ⟨_, hd.addArc a b, h.addArc hg.consistent a b⟩
  | reverse _ ih =>
    obtain ⟨d, hd, h⟩ := ih
    exact ⟨_, hd.reverse, h.reverse⟩

theorem Represents.flow_eq (h : g.Represents d) : g.flow = d.flow := by
  rw [flow, Digraph.flow, h.nodes, funext h.successors, funext h.predecessors]

theorem Represents.numArcs_eq (h : g.Represents d) (hg : g.Consistent) (hd : d.Built) :
    g.numArcs = d.numArcs := by
  rw [← hg.length_arcList]
  refine ((List.perm_ext_iff_of_nodup hg.nodup_arcList hd.nodup_arcs).mpr ?_).length_eq
  rintro ⟨a, b⟩
  rw [hg.mem_arcList, h.successors, Digraph.mem_successors]

/-- What holds of the flow along plain graphs holds of the flow along graphs with tables. -/
theorem Built.exists_flow_eq (hg : g.Built) :
    ∃ d : Digraph κ, d.Built ∧ g.flow = d.flow ∧ g.numArcs = d.numArcs := by
  obtain ⟨d, hd, h⟩ := hg.exists_represents
  exact ⟨d, hd, h.flow_eq, h.numArcs_eq hg.consistent hd⟩

/-! ### The invariant -/

/-- What holds of the parts of a graph. -/
structure WellFormed (g : IndexedDigraph κ) : Prop extends g.Consistent where
  /-- A key is a node if it is listed. -/
  contains_iff : ∀ k, g.contains k = true ↔ k ∈ g.nodes
  /-- All neighbours are nodes. -/
  neighbours_mem : ∀ k, (∀ j ∈ g.successors k, j ∈ g.nodes) ∧ ∀ j ∈ g.predecessors k, j ∈ g.nodes
  /-- Every arc is listed once. -/
  nodup_arcList : g.arcList.Nodup
  /-- The arcs are those along the successors. -/
  mem_arcList : ∀ a b, (a, b) ∈ g.arcList ↔ b ∈ g.successors a
  /-- The arcs are counted right. -/
  length_arcList : g.arcList.length = g.numArcs
  /-- Turning all arcs around twice changes nothing. -/
  reverse_reverse : g.reverse.reverse = g

theorem Consistent.wellFormed (h : g.Consistent) : g.WellFormed where
  toConsistent := h
  contains_iff := h.contains_iff
  neighbours_mem _ :=
    ⟨fun _ hj => h.mem_nodes_of_predecessors ((h.dual _ _).mp hj),
      fun _ hj => h.mem_nodes_of_successors ((h.dual _ _).mpr hj)⟩
  nodup_arcList := h.nodup_arcList
  mem_arcList := h.mem_arcList
  length_arcList := h.length_arcList
  reverse_reverse := rfl

/-- A graph is well-formed however it was built. Another arc is put at the end of the neighbour lists
of its ends, unless its target is among the successors of its source already. The graph of a list of
arcs can be built, and once it is turned around it has the neighbour lists of the graph of the arcs
turned around. A plain graph that can be built has the same flow and as many arcs. -/
theorem wellFormed_of_built (g : IndexedDigraph κ) (hg : g.Built) :
    g.WellFormed ∧
      (∀ a b k,
        (g.addArc a b).successors k =
          (if k = a ∧ b ∉ g.successors a then g.successors k ++ [b] else g.successors k) ∧
        (g.addArc a b).predecessors k =
          if k = b ∧ b ∉ g.successors a then g.predecessors k ++ [a] else g.predecessors k) ∧
      (∀ arcs : List (κ × κ), (ofArcs arcs).Built ∧ ∀ k,
        (ofArcs arcs).reverse.successors k = (ofArcs (arcs.map Prod.swap)).successors k ∧
        (ofArcs arcs).reverse.predecessors k = (ofArcs (arcs.map Prod.swap)).predecessors k) ∧
      ∃ d : Digraph κ, d.Built ∧ g.flow = d.flow ∧ g.numArcs = d.numArcs := by
  have h := hg.consistent
  refine ⟨h.wellFormed, fun a b k => ⟨successors_addArc g a b k, h.predecessors_addArc a b k⟩,
    fun arcs => ⟨built_ofArcs arcs, fun k => ?_⟩, hg.exists_flow_eq⟩
  -- both graphs start empty, and the empty graph turned around is itself
  obtain ⟨hs, hp⟩ := consistent_empty.opposite_addArcs arcs consistent_empty
    (funext fun _ => rfl) (funext fun _ => rfl)
  exact ⟨congrFun hp k, congrFun hs k⟩

/-- An example: the arcs of a triangle, one of them twice. -/
def triangleArcs : List (Nat × Nat) := [(1, 2), (1, 3), (2, 3), (1, 2)]

/-- The triangle turned around, and to it an arc that is there already and one that is not. -/
def turnedTriangle : IndexedDigraph Nat := ((ofArcs triangleArcs).reverse.addArc 3 1).addArc 1 3

theorem wellFormed_turnedTriangle :
    turnedTriangle.Built ∧ turnedTriangle.nodes = [1, 2, 3] ∧
      turnedTriangle.successors 3 = [1, 2] ∧ turnedTriangle.predecessors 1 = [2, 3] ∧
      turnedTriangle.WellFormed := by
  have harcs : (ofArcs triangleArcs).Built := built_ofArcs triangleArcs
  have hbuilt : turnedTriangle.Built := (harcs.reverse.addArc 3 1).addArc 1 3
  have hreversed := (represents_ofArcs triangleArcs).reverse
  have hplain := (hreversed.addArc harcs.reverse.consistent 3 1).addArc
    (harcs.reverse.addArc 3 1).consistent 1 3
  refine ⟨hbuilt, ?_, ?_, ?_, (wellFormed_of_built turnedTriangle hbuilt).1⟩
  · exact hplain.nodes.trans (by decide)
  · exact (hplain.successors 3).trans (by decide)
  · exact (hplain.predecessors 1).trans (by decide)

end IndexedDigraph

end StaticAnalysis
