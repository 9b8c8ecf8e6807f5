import StaticAnalysis.Agenda
import StaticAnalysis.Atom
import StaticAnalysis.Atom.Operation
import StaticAnalysis.Digraph
import StaticAnalysis.Digraph.Indexed
import StaticAnalysis.Fault
import StaticAnalysis.Fixpoint.Ascent
import StaticAnalysis.Fixpoint.Chaotic
import StaticAnalysis.Fixpoint.Equations
import StaticAnalysis.Fixpoint.Widening
import StaticAnalysis.Flow
import StaticAnalysis.Journal
import StaticAnalysis.Lattice.Basic
import StaticAnalysis.Lattice.Composite
import StaticAnalysis.Lattice.Extent
import StaticAnalysis.Lattice.Flat
import StaticAnalysis.Lattice.Powerset
import StaticAnalysis.Numbering
import StaticAnalysis.OperatorTable
import StaticAnalysis.Outcome
import StaticAnalysis.Proofs.Agenda
import StaticAnalysis.Proofs.AnyOrder
import StaticAnalysis.Proofs.CanonicalMap
import StaticAnalysis.Proofs.Capture
import StaticAnalysis.Proofs.Chaotic
import StaticAnalysis.Proofs.CompositeLattice
import StaticAnalysis.Proofs.Containment
import StaticAnalysis.Proofs.Equations
import StaticAnalysis.Proofs.Expansion
import StaticAnalysis.Proofs.FiniteHeight
import StaticAnalysis.Proofs.Flow
import StaticAnalysis.Proofs.Forest
import StaticAnalysis.Proofs.Founded
import StaticAnalysis.Proofs.IndexedDigraph
import StaticAnalysis.Proofs.KleeneIteration
import StaticAnalysis.Proofs.Lattice
import StaticAnalysis.Proofs.LatticeOrder
import StaticAnalysis.Proofs.LeastSolution
import StaticAnalysis.Proofs.MostGeneral
import StaticAnalysis.Proofs.Narrowing
import StaticAnalysis.Proofs.NestedLattice
import StaticAnalysis.Proofs.OperatorTable
import StaticAnalysis.Proofs.PartialSeed
import StaticAnalysis.Proofs.PathCompression
import StaticAnalysis.Proofs.PointwiseMap
import StaticAnalysis.Proofs.Refusal
import StaticAnalysis.Proofs.Safety
import StaticAnalysis.Proofs.Scoping
import StaticAnalysis.Proofs.SeedOrder
import StaticAnalysis.Proofs.SeenVariables
import StaticAnalysis.Proofs.Settling
import StaticAnalysis.Proofs.SignAnalysis
import StaticAnalysis.Proofs.SignMonotone
import StaticAnalysis.Proofs.SolutionOrder
import StaticAnalysis.Proofs.SolutionShape
import StaticAnalysis.Proofs.Stability
import StaticAnalysis.Proofs.Substitution
import StaticAnalysis.Proofs.TermTree
import StaticAnalysis.Proofs.TotalMap
import StaticAnalysis.Proofs.Tree
import StaticAnalysis.Proofs.Unfolding
import StaticAnalysis.Proofs.UnificationClosure
import StaticAnalysis.Proofs.UnificationDepth
import StaticAnalysis.Proofs.UnificationTermination
import StaticAnalysis.Proofs.Unifier
import StaticAnalysis.Proofs.UnifierForest
import StaticAnalysis.Proofs.Widening
import StaticAnalysis.Proofs.WideningTermination
import StaticAnalysis.Proofs.WorklistHistory
import StaticAnalysis.Shape
import StaticAnalysis.Sign.Basic
import StaticAnalysis.Sign.Expr
import StaticAnalysis.Term
import StaticAnalysis.Text
import StaticAnalysis.Text.Extender
import StaticAnalysis.Text.Unprinted
import StaticAnalysis.TotalMap
import StaticAnalysis.Transfer
import StaticAnalysis.Unification.Forest
import StaticAnalysis.Unification.Solution
import StaticAnalysis.Unification.Unifier
import StaticAnalysis.Worklist
import StaticAnalysis.Worklist.Indexed
