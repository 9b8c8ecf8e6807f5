import Std.Data.HashMap
import StaticAnalysis.Digraph

/-!
Directed graphs with neighbour tables. Beside the list of nodes stand two hash maps, one with the
targets of the arcs out of each node and one with the sources of the arcs into it. A key is a node
if the first map has it, and an arc is new if the first map does not list it; the second map is never
asked. Turning a graph around exchanges the two maps.
-/

namespace StaticAnalysis

/-- A list of nodes, oldest first, and the neighbours of each node in both directions. -/
structure IndexedDigraph (κ : Type) [DecidableEq κ] [Hashable κ] where
  nodes : List κ := []
  targetsOf : Std.HashMap κ (List κ) := ∅
  sourcesOf : Std.HashMap κ (List κ) := ∅

namespace IndexedDigraph

variable {κ : Type} [DecidableEq κ] [Hashable κ]

/-- The graph without nodes. -/
def empty : IndexedDigraph κ := {}

/-- Whether a key is a node. -/
def contains (g : IndexedDigraph κ) (k : κ) : Bool := g.targetsOf.contains k

/-- The targets of the arcs out of a node. -/
def successors (g : IndexedDigraph κ) (k : κ) : List κ := g.targetsOf.getD k []

/-- The sources of the arcs into a node. -/
def predecessors (g : IndexedDigraph κ) (k : κ) : List κ := g.sourcesOf.getD k []

/-- Adds a node without neighbours, unless it is there already. -/
def addNode (g : IndexedDigraph κ) (k : κ) : IndexedDigraph κ :=
  if g.contains k then g
  else
    { nodes := g.nodes ++ [k]
      targetsOf := g.targetsOf.insert k []
      sourcesOf := g.sourcesOf.insert k [] }

/-- Enters an arc into both maps, unless its target is listed for its source already. -/
def link (g : IndexedDigraph κ) (source target : κ) : IndexedDigraph κ :=
  if target ∈ g.successors source then g
  else
    { g with
      targetsOf := g.targetsOf.insert source (g.successors source ++ [target])
      sourcesOf := g.sourcesOf.insert target (g.predecessors target ++ [source]) }

/-- Adds an arc and its ends, unless they are there already. -/
def addArc (g : IndexedDigraph κ) (source target : κ) : IndexedDigraph κ :=
  ((g.addNode source).addNode target).link source target

/-- Adds arcs one after the other. -/
def addArcs (g : IndexedDigraph κ) (arcs : List (κ × κ)) : IndexedDigraph κ :=
  arcs.foldl (fun g a => g.addArc a.1 a.2) g

/-- The graph of a list of arcs. -/
def ofArcs (arcs : List (κ × κ)) : IndexedDigraph κ := empty.addArcs arcs

/-- All arcs, grouped by source in the order of the nodes. -/
def arcList (g : IndexedDigraph κ) : List (κ × κ) :=
  g.nodes.flatMap fun k => (g.successors k).map fun t => (k, t)

/-- The number of arcs: the lengths of all lists of targets, added up. -/
def numArcs (g : IndexedDigraph κ) : Nat :=
  g.targetsOf.fold (fun count _ targets => count + targets.length) 0

/-- The same nodes with every arc turned around. -/
def reverse (g : IndexedDigraph κ) : IndexedDigraph κ :=
  { nodes := g.nodes, targetsOf := g.sourcesOf, sourcesOf := g.targetsOf }

/-- The flow along the arcs. -/
def flow (g : IndexedDigraph κ) : Flow κ where
  domain := g.nodes
  incoming := g.predecessors
  outgoing := g.successors

/-- One line for every node, with its successors. -/
def display [ToString κ] (g : IndexedDigraph κ) : String :=
  String.join <| g.nodes.map fun k =>
    toString k ++ " ->" ++ String.join ((g.successors k).map fun t => " " ++ toString t) ++ "\n"

instance [ToString κ] : ToString (IndexedDigraph κ) := ⟨display⟩

theorem addArcs_cons (g : IndexedDigraph κ) (a : κ × κ) (arcs : List (κ × κ)) :
    g.addArcs (a :: arcs) = (g.addArc a.1 a.2).addArcs arcs := rfl

theorem successors_reverse (g : IndexedDigraph κ) : g.reverse.successors = g.predecessors := rfl

theorem predecessors_reverse (g : IndexedDigraph κ) : g.reverse.predecessors = g.successors := rfl

theorem successors_empty (k : κ) : (empty : IndexedDigraph κ).successors k = [] :=
  Std.HashMap.getD_empty

theorem predecessors_empty (k : κ) : (empty : IndexedDigraph κ).predecessors k = [] :=
  Std.HashMap.getD_empty

/-- An empty list for a key without a list changes no list. -/
theorem getD_insert_nil {m : Std.HashMap κ (List κ)} {k : κ} (hk : k ∉ m) (j : κ) :
    (m.insert k []).getD j [] = m.getD j [] := by
  simp only [Std.HashMap.getD_insert, beq_iff_eq]
  split
  · next h => rw [← h, Std.HashMap.getD_eq_fallback hk]
  · rfl

/-- Puts one more element at the end of the list of one key. -/
theorem getD_insert_concat (m : Std.HashMap κ (List κ)) (a b k : κ) :
    (m.insert a (m.getD a [] ++ [b])).getD k [] =
      if k = a then m.getD k [] ++ [b] else m.getD k [] := by
  rw [Std.HashMap.getD_insert]
  by_cases hk : k = a
  · simp [hk]
  · simp [hk, Ne.symm hk]

theorem successors_addNode (g : IndexedDigraph κ) (k j : κ) :
    (g.addNode k).successors j = g.successors j := by
  unfold addNode
  split
  · rfl
  · next hk => exact getD_insert_nil (mt Std.HashMap.contains_iff_mem.mpr hk) j

theorem nodes_link (g : IndexedDigraph κ) (a b : κ) : (g.link a b).nodes = g.nodes := by
  unfold link
  split <;> rfl

theorem successors_link (g : IndexedDigraph κ) (a b k : κ) : (g.link a b).successors k =
    if k = a ∧ b ∉ g.successors a then g.successors k ++ [b] else g.successors k := by
  unfold link
  split
  · next hab => rw [if_neg fun h => h.2 hab]
  · next hab =>
    simp only [and_iff_left hab]
    exact getD_insert_concat g.targetsOf a b k

/-- That the arc is new is seen from the successors. -/
theorem predecessors_link (g : IndexedDigraph κ) (a b k : κ) : (g.link a b).predecessors k =
    if k = b ∧ b ∉ g.successors a then g.predecessors k ++ [a] else g.predecessors k := by
  unfold link
  split
  · next hab => rw [if_neg fun h => h.2 hab]
  · next hab =>
    simp only [and_iff_left hab]
    exact getD_insert_concat g.sourcesOf b a k

/-- A new arc makes its target the last successor of its source. -/
theorem successors_addArc (g : IndexedDigraph κ) (a b k : κ) : (g.addArc a b).successors k =
    if k = a ∧ b ∉ g.successors a then g.successors k ++ [b] else g.successors k := by
  simp only [addArc, successors_link, successors_addNode]

end IndexedDigraph

end StaticAnalysis
