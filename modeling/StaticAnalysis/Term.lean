import StaticAnalysis.Text

/-!
Terms: variables, applications of a constructor to arguments, and recursive binders. A binder
`μ'x. t` stands for the infinite tree in which every bound `'x` of `t` is the whole term again, so
finite terms denote regular trees.

A variable is free or bound by spelling: `'x` is another variable than `x`, and a binder for `x`
binds `'x` only. Terms are compared by structure.
-/

namespace StaticAnalysis

/-- A variable of a term, with names from `ν`. -/
inductive Var (ν : Type) where
  /-- An ordinary unknown. -/
  | free (name : ν)
  /-- A variable that refers to a binder. -/
  | bound (name : ν)
  deriving DecidableEq

namespace Var

variable {ν : Type}

/-- The name of a variable. -/
def name : Var ν → ν
  | .free x => x
  | .bound x => x

/-- Whether a variable refers to a binder. -/
def isBound : Var ν → Bool
  | .free _ => false
  | .bound _ => true

/-- The variable of the same name that refers to a binder. -/
def toBound (v : Var ν) : Var ν := .bound v.name

/-- The unknown of the same name. -/
def toFree (v : Var ν) : Var ν := .free v.name

/-- Free variables come before bound ones; within a kind the names decide. -/
instance [Ord ν] : Ord (Var ν) where
  compare
    | .free x, .free y => compare x y
    | .free _, .bound _ => .lt
    | .bound _, .free _ => .gt
    | .bound x, .bound y => compare x y

instance [ToString ν] : ToString (Var ν) where
  toString
    | .free x => toString x
    | .bound x => "'" ++ toString x

instance [Describe ν] : Describe (Var ν) where
  describe
    | .free x => "Free(" ++ describe x ++ ")"
    | .bound x => "Bound(" ++ describe x ++ ")"

end Var

/-- A term over variables with names from `ν`. -/
inductive Term (ν : Type) where
  /-- A variable. -/
  | var (v : Var ν)
  /-- A constructor with its arguments. -/
  | app (name : String) (args : List (Term ν))
  /-- A recursive binder: `bound param` refers to the whole term. -/
  | mu (param : ν) (body : Term ν)

namespace Term

variable {ν : Type}

mutual

/-- Decides whether two terms are the same. -/
def decEq [DecidableEq ν] : (s t : Term ν) → Decidable (s = t)
  | .var v, .var w =>
    if h : v = w then isTrue (by rw [h]) else isFalse (by simpa using h)
  | .app f ss, .app g ts =>
    if h : f = g then
      match decEqArgs ss ts with
      | isTrue hs => isTrue (by rw [h, hs])
      | isFalse hs => isFalse (by simp [hs])
    else isFalse (by simp [h])
  | .mu x s, .mu y t =>
    if h : x = y then
      match decEq s t with
      | isTrue hs => isTrue (by rw [h, hs])
      | isFalse hs => isFalse (by simp [hs])
    else isFalse (by simp [h])
  | .var _, .app _ _ | .var _, .mu _ _ | .app _ _, .var _ | .app _ _, .mu _ _ | .mu _ _, .var _
  | .mu _ _, .app _ _ => isFalse (by simp)

/-- Decides whether two argument lists are the same. -/
def decEqArgs [DecidableEq ν] : (ss ts : List (Term ν)) → Decidable (ss = ts)
  | [], [] => isTrue rfl
  | s :: ss, t :: ts =>
    match decEq s t with
    | isTrue h =>
      match decEqArgs ss ts with
      | isTrue hs => isTrue (by rw [h, hs])
      | isFalse hs => isFalse (by simp [hs])
    | isFalse h => isFalse (by simp [h])
  | [], _ :: _ | _ :: _, [] => isFalse (by simp)

end

instance [DecidableEq ν] : DecidableEq (Term ν) := decEq

/-- Whether a term is a variable. -/
def isVar : Term ν → Bool
  | .var _ => true
  | _ => false

/-- The variable that a term is. -/
def var? : Term ν → Option (Var ν)
  | .var v => some v
  | _ => none

mutual

/-- The number of variables, constructors and binders in a term. -/
def size : Term ν → Nat
  | .var _ => 1
  | .app _ args => sizeAll args + 1
  | .mu _ body => body.size + 1

/-- The sizes of a list of terms together. -/
def sizeAll : List (Term ν) → Nat
  | [] => 0
  | t :: ts => t.size + sizeAll ts

end

section Binding

variable [DecidableEq ν]

mutual

/-- The free occurrences of variables in a term, from left to right: those that no binder around
them binds. -/
def occurrences : Term ν → List (Var ν)
  | .var v => [v]
  | .app _ args => occurrencesAll args
  | .mu param body => body.occurrences.filter fun v => v ≠ .bound param

/-- The free occurrences of variables in a list of terms. -/
def occurrencesAll : List (Term ν) → List (Var ν)
  | [] => []
  | t :: ts => t.occurrences ++ occurrencesAll ts

end

/-- The free variables of a term, each once, by first occurrence. -/
def freeVars (t : Term ν) : List (Var ν) := t.occurrences.eraseDups

mutual

/-- Puts the term `s` in place of every free occurrence of the variable `v`. A binder for `v` keeps
its body as it is. A binder for a variable of `s` does not, so that one can be captured. -/
def subst (t : Term ν) (v : Var ν) (s : Term ν) : Term ν :=
  match t with
  | .var w => if w = v then s else .var w
  | .app name args => .app name (substAll args v s)
  | .mu param body => if .bound param = v then .mu param body else .mu param (body.subst v s)

/-- Puts a term in place of a variable in a list of terms. -/
def substAll (ts : List (Term ν)) (v : Var ν) (s : Term ν) : List (Term ν) :=
  match ts with
  | [] => []
  | t :: ts => t.subst v s :: substAll ts v s

end

/-- One unfolding: the body of a binder with the whole term for the bound variable; any other term
is itself. -/
def unfold (t : Term ν) : Term ν :=
  match t with
  | .mu param body => body.subst (.bound param) t
  | _ => t

end Binding

mutual

/-- The text of a term. -/
def display [ToString ν] : Term ν → String
  | .var v => toString v
  | .app name [] => name
  | .app name (t :: ts) => name ++ "(" ++ Text.commaSeparated (t.display :: displayAll ts) ++ ")"
  | .mu param body => "μ" ++ toString (Var.bound param) ++ "." ++ body.display

/-- The texts of a list of terms. -/
def displayAll [ToString ν] : List (Term ν) → List String
  | [] => []
  | t :: ts => t.display :: displayAll ts

end

instance [ToString ν] : ToString (Term ν) := ⟨display⟩

mutual

/-- The diagnostic text of a term. -/
def diagnostic [Describe ν] : Term ν → String
  | .var v => "Var(" ++ describe v ++ ")"
  | .app name args =>
    "App \x7b name: " ++ describe name ++ ", args: [" ++
      Text.commaSeparated (diagnosticAll args) ++ "] \x7d"
  | .mu param body =>
    "Mu \x7b param: " ++ describe param ++ ", body: " ++ body.diagnostic ++ " \x7d"

/-- The diagnostic texts of a list of terms. -/
def diagnosticAll [Describe ν] : List (Term ν) → List String
  | [] => []
  | t :: ts => t.diagnostic :: diagnosticAll ts

end

instance [Describe ν] : Describe (Term ν) := ⟨diagnostic⟩

end Term

end StaticAnalysis
