/-!
Flows: which keys a system of equations is about and how they depend on each other. A flow lists
its keys, for every key the keys it reads from, and for every key the keys to look at again when
it changes. Nothing forces the two directions to agree; solvers that rely on it say so.
-/

namespace StaticAnalysis

/-- Keys and their dependencies. -/
structure Flow (κ : Type) where
  /-- The keys, in order. -/
  domain : List κ
  /-- The keys whose values a key reads. -/
  incoming : κ → List κ
  /-- The keys that read the value of a key. -/
  outgoing : κ → List κ

/-- The flow given by rows of neighbours; of several rows for a key the first counts, and a key
without a row has no neighbours. -/
def Flow.ofRows {κ : Type} [DecidableEq κ] (domain : List κ)
    (incoming outgoing : List (κ × List κ)) : Flow κ where
  domain := domain
  incoming k := (incoming.lookup k).getD []
  outgoing k := (outgoing.lookup k).getD []

end StaticAnalysis
