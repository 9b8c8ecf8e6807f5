import Std.Data.HashSet
import StaticAnalysis.Worklist

/-!
Worklists with an index. Beside the queue stands the hash set of the keys in it, which answers
whether a key waits without a search of the queue. Every operation updates the two on its own.

`WorklistOp` names the operations that change a worklist, so that whole histories of calls can be
replayed, on an indexed worklist and on a plain one.
-/

namespace StaticAnalysis

/-- A queue of keys, oldest first, and an index of the keys in it. -/
structure IndexedWorklist (κ : Type) [DecidableEq κ] [Hashable κ] where
  queue : List κ := []
  index : Std.HashSet κ := ∅

/-- The operations that change a worklist. -/
inductive WorklistOp (κ : Type) where
  | add (k : κ)
  | addAll (ks : List κ)
  | extend (ks : List κ)
  | pop
  | clear

namespace IndexedWorklist

variable {κ : Type} [DecidableEq κ] [Hashable κ]

/-- The worklist on which nothing waits. -/
def empty : IndexedWorklist κ := {}

/-- The number of waiting keys. -/
def length (w : IndexedWorklist κ) : Nat := w.queue.length

/-- Whether nothing waits. -/
def isEmpty (w : IndexedWorklist κ) : Bool := w.queue.isEmpty

/-- Whether a key waits. -/
def contains (w : IndexedWorklist κ) (k : κ) : Bool := w.index.contains k

/-- Enters a key into the index and puts it at the end, unless the index had it. -/
def add (w : IndexedWorklist κ) (k : κ) : IndexedWorklist κ :=
  let (known, index) := w.index.containsThenInsert k
  { queue := if known then w.queue else w.queue ++ [k], index }

/-- Adds keys one after the other. -/
def addAll (w : IndexedWorklist κ) (ks : List κ) : IndexedWorklist κ := ks.foldl add w

/-- The oldest key with the rest of the worklist. -/
def pop? (w : IndexedWorklist κ) : Option (κ × IndexedWorklist κ) :=
  match w.queue with
  | [] => none
  | k :: rest => some (k, { queue := rest, index := w.index.erase k })

theorem queue_add (w : IndexedWorklist κ) (k : κ) :
    (w.add k).queue = if w.contains k then w.queue else w.queue ++ [k] := by
  simp [add, contains]

theorem mem_index_add {w : IndexedWorklist κ} {k j : κ} :
    j ∈ (w.add k).index ↔ j ∈ w.index ∨ j = k := by
  rw [eq_comm, or_comm]
  simp [add]

theorem pop?_eq_some_iff {w rest : IndexedWorklist κ} {k : κ} :
    w.pop? = some (k, rest) ↔ w.queue = k :: rest.queue ∧ rest.index = w.index.erase k := by
  obtain ⟨queue, index⟩ := w
  obtain ⟨rest, fewer⟩ := rest
  cases queue with
  | nil => simp [pop?]
  | cons j queue =>
    simp only [pop?, Option.some.injEq, Prod.mk.injEq, mk.injEq, List.cons.injEq, and_assoc]
    constructor
    · rintro ⟨rfl, rfl, rfl⟩
      exact ⟨rfl, rfl, rfl⟩
    · rintro ⟨rfl, rfl, rfl⟩
      exact ⟨rfl, rfl, rfl⟩

/-- Carries out an operation; a `pop` answers with the key that it took. -/
def perform (w : IndexedWorklist κ) : WorklistOp κ → IndexedWorklist κ × Option κ
  | .add k => (w.add k, none)
  | .addAll ks | .extend ks => (w.addAll ks, none)
  | .pop =>
    match w.pop? with
    | none => (w, none)
    | some (k, rest) => (rest, some k)
  | .clear => (empty, none)

end IndexedWorklist

/-- Carries out an operation on a plain worklist. -/
def Worklist.perform {κ : Type} [DecidableEq κ] (w : Worklist κ) :
    WorklistOp κ → Worklist κ × Option κ
  | .add k => (w.add k, none)
  | .addAll ks | .extend ks => (w.addAll ks, none)
  | .pop =>
    match w.pop? with
    | none => (w, none)
    | some (k, rest) => (rest, some k)
  | .clear => (.empty, none)

namespace WorklistOp

/-- Carries out operations one after the other and collects their answers. -/
def replay {κ σ : Type} (perform : σ → WorklistOp κ → σ × Option κ) (s : σ) :
    List (WorklistOp κ) → σ × List (Option κ)
  | [] => (s, [])
  | op :: ops =>
    let (next, answer) := perform s op
    let (last, answers) := replay perform next ops
    (last, answer :: answers)

end WorklistOp

end StaticAnalysis
