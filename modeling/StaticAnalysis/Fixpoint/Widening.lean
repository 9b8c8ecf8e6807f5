import StaticAnalysis.Fault

/-!
Widenings: how to jump ahead along back edges, so that an ascent ends in a lattice without finite
height.
-/

namespace StaticAnalysis

/-- A jump and the edges along which to make it. -/
structure Widening (κ α : Type) where
  /-- The jump. -/
  widen : α → Except Fault α
  /-- Whether the edge from one key to another closes a cycle. -/
  isBackedge : κ → κ → Bool

namespace Widening

variable {κ α : Type}

/-- No jump along any edge. -/
def never : Widening κ α where
  widen := .ok
  isBackedge _ _ := false

/-- A jump along the listed edges. -/
def along [DecidableEq κ] (backedges : List (κ × κ)) (widen : α → Except Fault α) :
    Widening κ α where
  widen := widen
  isBackedge source target := backedges.contains (source, target)

end Widening

end StaticAnalysis
