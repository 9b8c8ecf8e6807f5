import StaticAnalysis.Term

/-!
Forests of terms: a partition of the terms seen so far into classes, each with a representative.
Every term points to a parent, representatives point to themselves, and following parents from any
term leads to the representative of its class. A term that was never seen is alone in its class.

Following parents is bounded by the number of terms seen; a chain of parents never visits a term
twice, so the bound is not reached before the representative is.
-/

namespace StaticAnalysis

/-- What a forest knows about a term. -/
structure ForestNode (ν : Type) where
  /-- The next term on the way to the representative; the term itself if it is one. -/
  parent : Term ν
  /-- A bound on the length of the parent chains that end here. -/
  rank : Nat
  deriving DecidableEq

/-- The terms seen so far, oldest first, each with its parent and rank. -/
structure Forest (ν : Type) where
  nodes : List (Term ν × ForestNode ν) := []
  deriving DecidableEq

namespace Forest

variable {ν : Type}

/-- The forest that has seen no term. -/
def empty : Forest ν := {}

/-- The terms seen so far. -/
def terms (f : Forest ν) : List (Term ν) := f.nodes.map Prod.fst

/-- The variables seen so far. -/
def vars (f : Forest ν) : List (Var ν) := f.terms.filterMap Term.var?

variable [DecidableEq ν]

/-- What is known about a term. -/
def node? (f : Forest ν) (t : Term ν) : Option (ForestNode ν) := f.nodes.lookup t

/-- The parent of a term; a term not seen is its own. -/
def parent (f : Forest ν) (t : Term ν) : Term ν := ((f.node? t).map ForestNode.parent).getD t

/-- The rank of a term; a term not seen has rank zero. -/
def rank (f : Forest ν) (t : Term ν) : Nat := ((f.node? t).map ForestNode.rank).getD 0

/-- Follows parents, at most the given number of times, up to a term that is its own parent. -/
def climb (f : Forest ν) : Nat → Term ν → Term ν
  | 0, t => t
  | steps + 1, t => if f.parent t = t then t else f.climb steps (f.parent t)

/-- The representative of a term's class. -/
def find (f : Forest ν) (t : Term ν) : Term ν := f.climb f.nodes.length t

/-- The terms that `climb` passes on its way, the last one excluded. -/
def trail (f : Forest ν) : Nat → Term ν → List (Term ν)
  | 0, _ => []
  | steps + 1, t => if f.parent t = t then [] else t :: f.trail steps (f.parent t)

/-- Adds a term as a class of its own, unless it was seen before. -/
def insert (f : Forest ν) (t : Term ν) : Forest ν :=
  match f.node? t with
  | some _ => f
  | none => ⟨f.nodes ++ [(t, ⟨t, 0⟩)]⟩

/-- Changes what is known about a term that was seen. -/
def modify (f : Forest ν) (t : Term ν) (change : ForestNode ν → ForestNode ν) : Forest ν :=
  ⟨f.nodes.map fun e => if e.1 = t then (e.1, change e.2) else e⟩

/-- Gives a term another parent. -/
def setParent (f : Forest ν) (t p : Term ν) : Forest ν := f.modify t fun n => { n with parent := p }

/-- Gives a term another rank. -/
def setRank (f : Forest ν) (t : Term ν) (rank : Nat) : Forest ν :=
  f.modify t fun n => { n with rank := rank }

/-- The representative of a term, which counts as seen from now on. All terms on the way to the
representative become its children. -/
def root (f : Forest ν) (t : Term ν) : Forest ν × Term ν :=
  let f := f.insert t
  let r := f.find t
  ((f.trail f.nodes.length t).foldl (fun g s => g.setParent s r) f, r)

/-- How to merge the classes of two representatives: the one that goes under the other, the one
that stays, and the rank of the latter. A variable goes under a term that is none; otherwise the
lower rank goes under the higher one, and between equal ranks the left one stays. -/
def merger (f : Forest ν) (a b : Term ν) : Term ν × Term ν × Nat :=
  match a.isVar, b.isVar with
  | true, false => (a, b, max (f.rank b) (f.rank a + 1))
  | false, true => (b, a, max (f.rank a) (f.rank b + 1))
  | _, _ =>
    if f.rank a < f.rank b then (a, b, f.rank b)
    else if f.rank b < f.rank a then (b, a, f.rank a)
    else (b, a, f.rank a + 1)

/-- Puts one representative under another. -/
def link (f : Forest ν) (child root : Term ν) (rank : Nat) : Forest ν :=
  (f.setRank root rank).setParent child root

theorem climb_of_node?_eq_none {f : Forest ν} {t : Term ν} (h : f.node? t = none) (steps : Nat) :
    f.climb steps t = t := by
  cases steps <;> simp [climb, parent, h]

/-- Only a term that was seen can have another representative than itself. -/
theorem mem_terms_of_find_ne {f : Forest ν} {t : Term ν} (h : f.find t ≠ t) : t ∈ f.terms := by
  by_cases hn : f.node? t = none
  · exact absurd (climb_of_node?_eq_none hn _) h
  · obtain ⟨n, hn⟩ := Option.ne_none_iff_exists'.mp hn
    obtain ⟨s, rest, hs, -⟩ := List.lookup_eq_some_iff.mp hn
    simp [terms, hs]

end Forest

end StaticAnalysis
