/-!
Worklists: queues in which a key waits at most once. Keys leave in the order in which they came,
and a key that is already waiting keeps its place when it is added again.
-/

namespace StaticAnalysis

/-- The keys that wait to be processed, oldest first. -/
structure Worklist (κ : Type) where
  pending : List κ := []
  deriving DecidableEq

namespace Worklist

variable {κ : Type}

/-- The worklist on which nothing waits. -/
def empty : Worklist κ := {}

/-- The number of waiting keys. -/
def length (w : Worklist κ) : Nat := w.pending.length

/-- Whether nothing waits. -/
def isEmpty (w : Worklist κ) : Bool := w.pending.isEmpty

/-- The oldest key with the rest of the worklist. -/
def pop? (w : Worklist κ) : Option (κ × Worklist κ) :=
  match w.pending with
  | [] => none
  | k :: rest => some (k, ⟨rest⟩)

variable [DecidableEq κ]

/-- Whether a key waits. -/
def contains (w : Worklist κ) (k : κ) : Bool := k ∈ w.pending

/-- Puts a key at the end, unless it waits already. -/
def add (w : Worklist κ) (k : κ) : Worklist κ :=
  if k ∈ w.pending then w else ⟨w.pending ++ [k]⟩

/-- Adds keys one after the other. -/
def addAll (w : Worklist κ) (ks : List κ) : Worklist κ := ks.foldl add w

theorem mem_pending_add {w : Worklist κ} {k j : κ} :
    j ∈ (w.add k).pending ↔ j ∈ w.pending ∨ j = k := by
  unfold add
  split
  · next h => exact ⟨Or.inl, fun hj => hj.elim id fun e => e ▸ h⟩
  · simp

end Worklist

end StaticAnalysis
