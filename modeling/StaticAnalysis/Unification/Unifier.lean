import StaticAnalysis.Journal
import StaticAnalysis.Unification.Forest

/-!
Unification of terms over regular trees. A unifier collects equations between terms in a forest:
two terms are in one class when the equations so far force them to be equal. Equal applications of
a constructor force their arguments to be equal; there is no occurs check, because an equation
such as `x = f(x)` has an infinite regular solution.

Every equation between two applications merges two classes before it goes on to the arguments, and
all terms it can meet are parts of terms already seen. The number of those parts therefore bounds
the depth of the recursion.
-/

namespace StaticAnalysis

/-- Two terms that were forced to be equal and cannot be. -/
structure Clash (ν : Type) where
  /-- The representative on the left. -/
  left : Term ν
  /-- The representative on the right. -/
  right : Term ν
  deriving DecidableEq

/-- The wording of a clash. -/
def Clash.message {ν : Type} [ToString ν] (c : Clash ν) : String :=
  "cannot unify terms: " ++ toString c.left ++ ", " ++ toString c.right

/-- What happened during unification. -/
inductive UnifierEvent (ν : Type) where
  /-- A representative was put under another one. -/
  | linked (child root : Term ν)
  /-- Two applications differ in name or number of arguments. -/
  | constructorClash (clash : Clash ν)
  /-- Two terms differ in kind, or are different binders. -/
  | shapeClash (clash : Clash ν)
  /-- Solutions were worked out for this many variables. -/
  | solved (count : Nat)
  deriving DecidableEq

/-- An event as a record of a journal. -/
def UnifierEvent.record {ν : Type} [Describe ν] : UnifierEvent ν → Record
  | .linked child root => ⟨.trace, "union: " ++ describe child ++ " -> " ++ describe root⟩
  | .constructorClash c =>
    ⟨.debug, "unify: constructor clash " ++ describe c.left ++ " vs " ++ describe c.right⟩
  | .shapeClash c =>
    ⟨.debug, "unify: shape clash " ++ describe c.left ++ " vs " ++ describe c.right⟩
  | .solved n => ⟨.debug, "calculate_solution: " ++ toString n ++ " variables"⟩

/-- The equations so far. -/
structure Unifier (ν : Type) where
  /-- The classes of terms that are forced to be equal. -/
  forest : Forest ν := .empty
  /-- What happened so far, latest first. -/
  events : List (UnifierEvent ν) := []
  deriving DecidableEq

/-- How an equation was received. -/
inductive Verdict (ν : Type) where
  /-- The equation holds from now on. -/
  | unified
  /-- The equation forces two terms to be equal that cannot be. -/
  | clash (clash : Clash ν)
  /-- The budget was spent before the equation was worked through. -/
  | exhausted
  deriving DecidableEq

namespace Unifier

variable {ν : Type}

/-- The unifier without equations. -/
def empty : Unifier ν := {}

/-- What happened so far, in order, as a journal. -/
def journal [Describe ν] (u : Unifier ν) : List Record := u.events.reverse.map UnifierEvent.record

/-- Notes an event. -/
def note (u : Unifier ν) (e : UnifierEvent ν) : Unifier ν := { u with events := e :: u.events }

/-- The variables seen so far. -/
def vars (u : Unifier ν) : List (Var ν) := u.forest.vars

/-- Works through equations one after the other, up to the first that does not hold. -/
def unifyEach (unify : Unifier ν → Term ν → Term ν → Unifier ν × Verdict ν) :
    List (Term ν × Term ν) → Unifier ν → Unifier ν × Verdict ν
  | [], u => (u, .unified)
  | (s, t) :: rest, u =>
    match unify u s t with
    | (u, .unified) => unifyEach unify rest u
    | stopped => stopped

variable [DecidableEq ν]

/-- The representative of a term. -/
def find (u : Unifier ν) (t : Term ν) : Term ν := u.forest.find t

/-- The representative of a term, which counts as seen from now on. -/
def root (u : Unifier ν) (t : Term ν) : Unifier ν × Term ν :=
  let (forest, r) := u.forest.root t
  ({ u with forest := forest }, r)

/-- Merges the classes of two different representatives. -/
def union (u : Unifier ν) (a b : Term ν) : Unifier ν :=
  let (child, root, rank) := u.forest.merger a b
  { u with forest := u.forest.link child root rank }.note (.linked child root)

/-- Adds an equation, with a bound on the depth of nested equations. What was merged before a clash
stays merged. -/
def unifyWithin : Nat → Unifier ν → Term ν → Term ν → Unifier ν × Verdict ν
  | 0, u, _, _ => (u, .exhausted)
  | depth + 1, u, lhs, rhs =>
    let (u, l) := u.root lhs
    let (u, r) := u.root rhs
    if l = r then (u, .unified)
    else
      match l, r with
      | .app f ss, .app g ts =>
        if f = g ∧ ss.length = ts.length then
          unifyEach (unifyWithin depth) (ss.zip ts) (u.union l r)
        else
          (u.note (.constructorClash ⟨l, r⟩), .clash ⟨l, r⟩)
      | .var _, _ | _, .var _ => (u.union l r, .unified)
      | _, _ => (u.note (.shapeClash ⟨l, r⟩), .clash ⟨l, r⟩)

/-- A bound on the depth of nested equations: the number of parts of all terms involved. -/
def depthBound (u : Unifier ν) (lhs rhs : Term ν) : Nat :=
  Term.sizeAll u.forest.terms + lhs.size + rhs.size + 1

/-- Adds an equation. -/
def unify (u : Unifier ν) (lhs rhs : Term ν) : Unifier ν × Verdict ν :=
  u.unifyWithin (u.depthBound lhs rhs) lhs rhs

end Unifier

end StaticAnalysis
