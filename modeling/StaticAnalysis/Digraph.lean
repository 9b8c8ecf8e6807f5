import StaticAnalysis.Flow

/-!
Directed graphs that remember the order in which their nodes and arcs came. Nodes are listed by
first appearance, the neighbours of a node by the age of the arc that made them neighbours. An arc
brings its ends along and is counted once, however often it is added.

These graphs keep one list of arcs and read both directions off it. `IndexedDigraph` keeps a map for
each direction instead and goes through the same nodes and neighbours.
-/

namespace StaticAnalysis

/-- A finite directed graph. -/
structure Digraph (κ : Type) where
  /-- The nodes, oldest first. -/
  nodes : List κ := []
  /-- The arcs, oldest first. -/
  arcs : List (κ × κ) := []
  deriving DecidableEq

namespace Digraph

variable {κ : Type}

/-- The graph without nodes. -/
def empty : Digraph κ := {}

/-- The number of arcs. -/
def numArcs (g : Digraph κ) : Nat := g.arcs.length

/-- The same nodes with every arc turned around. -/
def reverse (g : Digraph κ) : Digraph κ := { g with arcs := g.arcs.map Prod.swap }

variable [DecidableEq κ]

/-- Adds a node, unless it is there already. -/
def addNode (g : Digraph κ) (k : κ) : Digraph κ :=
  if k ∈ g.nodes then g else { g with nodes := g.nodes ++ [k] }

/-- Adds an arc and its ends, unless they are there already. -/
def addArc (g : Digraph κ) (source target : κ) : Digraph κ :=
  let g := (g.addNode source).addNode target
  if (source, target) ∈ g.arcs then g else { g with arcs := g.arcs ++ [(source, target)] }

/-- Adds arcs one after the other. -/
def addArcs (g : Digraph κ) (arcs : List (κ × κ)) : Digraph κ :=
  arcs.foldl (fun g a => g.addArc a.1 a.2) g

/-- The graph of a list of arcs. -/
def ofArcs (arcs : List (κ × κ)) : Digraph κ := empty.addArcs arcs

/-- The targets of the arcs out of a node. -/
def successors (g : Digraph κ) (k : κ) : List κ :=
  (g.arcs.filter fun a => a.1 = k).map Prod.snd

/-- The sources of the arcs into a node. -/
def predecessors (g : Digraph κ) (k : κ) : List κ :=
  (g.arcs.filter fun a => a.2 = k).map Prod.fst

theorem mem_successors {g : Digraph κ} {a b : κ} : b ∈ g.successors a ↔ (a, b) ∈ g.arcs := by
  simp [successors]

theorem mem_predecessors {g : Digraph κ} {a b : κ} : a ∈ g.predecessors b ↔ (a, b) ∈ g.arcs := by
  simp [predecessors]

/-- The flow along the arcs. -/
def flow (g : Digraph κ) : Flow κ where
  domain := g.nodes
  incoming := g.predecessors
  outgoing := g.successors

end Digraph

end StaticAnalysis
