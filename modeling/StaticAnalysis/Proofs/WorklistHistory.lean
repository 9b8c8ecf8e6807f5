import Mathlib.Data.List.Perm.Basic
import Mathlib.Data.List.Nodup
import StaticAnalysis.Worklist.Indexed

/-!
Histories of a worklist. From the calls made since the worklist was new or last cleared, and from
their answers, a ledger tells which keys were let in and which were taken out. The queue of an
indexed worklist is always what the ledger has let in and not yet taken out, in that order and
without repeats; the index knows exactly the keys of the queue; and a plain worklist with the same
calls gives the same answers.
-/

namespace StaticAnalysis

/-- The keys let in and the keys taken out, each oldest first. -/
structure Ledger (κ : Type) where
  admitted : List κ := []
  popped : List κ := []

namespace Ledger

variable {κ : Type} [DecidableEq κ]

/-- A key waits while it was let in more often than it was taken out. -/
def Waits (l : Ledger κ) (k : κ) : Prop := l.popped.count k < l.admitted.count k

instance (l : Ledger κ) (k : κ) : Decidable (l.Waits k) := inferInstanceAs (Decidable (_ < _))

/-- Lets a key in, unless it waits. -/
def letIn (l : Ledger κ) (k : κ) : Ledger κ :=
  if l.Waits k then l else { l with admitted := l.admitted ++ [k] }

/-- Enters a call with its answer. -/
def enter (l : Ledger κ) : WorklistOp κ → Option κ → Ledger κ
  | .add k, _ => l.letIn k
  | .addAll ks, _ | .extend ks, _ => ks.foldl letIn l
  | .pop, none => l
  | .pop, some k => { l with popped := l.popped ++ [k] }
  | .clear, _ => {}

/-- Enters calls with their answers, in order. -/
def enterAll (l : Ledger κ) (ops : List (WorklistOp κ)) (answers : List (Option κ)) : Ledger κ :=
  (ops.zip answers).foldl (fun l call => l.enter call.1 call.2) l

variable [Hashable κ] {l : Ledger κ} {w : IndexedWorklist κ}

/-- The ledger accounts for the queue, and the index agrees with the queue. -/
structure Tracks (l : Ledger κ) (w : IndexedWorklist κ) : Prop where
  order : l.popped ++ w.queue = l.admitted
  nodup : w.queue.Nodup
  index : ∀ k, k ∈ w.index ↔ k ∈ w.queue

theorem Tracks.contains_iff (h : l.Tracks w) (k : κ) : w.contains k = true ↔ k ∈ w.queue :=
  Std.HashSet.contains_iff_mem.trans (h.index k)

/-- A key waits by the ledger just if it is in the queue: of the times that it was let in, all but
those in the queue have been matched by a `pop`. -/
theorem Tracks.waits_iff (h : l.Tracks w) (k : κ) : l.Waits k ↔ k ∈ w.queue := by
  have hcount : l.admitted.count k = l.popped.count k + w.queue.count k := by
    rw [← h.order, List.count_append]
  rw [Waits, hcount, Nat.lt_add_right_iff_pos, List.count_pos_iff]

theorem tracks_empty : ({} : Ledger κ).Tracks .empty :=
  ⟨rfl, List.nodup_nil, by simp [IndexedWorklist.empty]⟩

/-- One call of `add`: the index refuses the key just when the ledger does. -/
theorem Tracks.add (h : l.Tracks w) (k : κ) : (l.letIn k).Tracks (w.add k) := by
  by_cases hk : k ∈ w.queue
  · -- the key waits: neither the ledger nor the queue takes it
    have hqueue : (w.add k).queue = w.queue := by
      rw [IndexedWorklist.queue_add, if_pos ((h.contains_iff k).mpr hk)]
    rw [letIn, if_pos ((h.waits_iff k).mpr hk)]
    refine ⟨by rw [hqueue, h.order], by rw [hqueue]; exact h.nodup, fun j => ?_⟩
    rw [hqueue, IndexedWorklist.mem_index_add, h.index]
    exact ⟨fun hj => hj.elim id fun e => e ▸ hk, Or.inl⟩
  · -- the key is new: both take it, and so does the index
    have hqueue : (w.add k).queue = w.queue ++ [k] := by
      rw [IndexedWorklist.queue_add, if_neg (mt (h.contains_iff k).mp hk)]
    rw [letIn, if_neg (mt (h.waits_iff k).mp hk)]
    refine ⟨?_, ?_, fun j => ?_⟩
    · rw [hqueue, ← h.order, List.append_assoc]
    · rw [hqueue, ← List.concat_eq_append]
      exact h.nodup.concat hk
    · simp [hqueue, IndexedWorklist.mem_index_add, h.index]

theorem Tracks.addAll : ∀ (ks : List κ) {l : Ledger κ} {w : IndexedWorklist κ}, l.Tracks w →
    (ks.foldl letIn l).Tracks (w.addAll ks)
  | [], _, _, h => h
  | k :: ks, _, _, h => Tracks.addAll ks (h.add k)

/-- One call of `pop` that takes a key. The key leaves the index with its only place in the
queue. -/
theorem Tracks.pop (h : l.Tracks w) {k : κ} {rest : IndexedWorklist κ}
    (hpop : w.pop? = some (k, rest)) : { l with popped := l.popped ++ [k] : Ledger κ }.Tracks rest := by
  obtain ⟨hqueue, hindex⟩ := IndexedWorklist.pop?_eq_some_iff.mp hpop
  have hnodup := h.nodup
  rw [hqueue, List.nodup_cons] at hnodup
  refine ⟨?_, hnodup.2, fun j => ?_⟩
  · -- the key moves from the queue to those taken out
    rw [← h.order, hqueue, List.append_assoc, List.singleton_append]
  · -- the index loses it, and it is in the queue no more
    rw [hindex, Std.HashSet.mem_erase, h.index, hqueue, List.mem_cons]
    constructor
    · rintro ⟨hne, rfl | hj⟩
      · simp at hne
      · exact hj
    · intro hj
      refine ⟨?_, Or.inr hj⟩
      rw [beq_eq_false_iff_ne]
      rintro rfl
      exact hnodup.1 hj

theorem Tracks.perform (h : l.Tracks w) (op : WorklistOp κ) :
    (l.enter op (w.perform op).2).Tracks (w.perform op).1 := by
  cases op with
  | add k => exact h.add k
  | addAll ks => exact Tracks.addAll ks h
  | extend ks => exact Tracks.addAll ks h
  | pop =>
    cases hpop : w.pop? with
    | none => simpa only [IndexedWorklist.perform, hpop, enter] using h
    | some taken =>
      obtain ⟨k, rest⟩ := taken
      simpa only [IndexedWorklist.perform, hpop, enter] using h.pop hpop
  | clear => exact tracks_empty

/-- After any calls, the ledger of the calls accounts for the queue. -/
theorem Tracks.replay : ∀ (ops : List (WorklistOp κ)) {l : Ledger κ} {w : IndexedWorklist κ},
    l.Tracks w → (l.enterAll ops (WorklistOp.replay IndexedWorklist.perform w ops).2).Tracks
      (WorklistOp.replay IndexedWorklist.perform w ops).1
  | [], _, _, h => h
  | op :: ops, _, _, h => Tracks.replay ops (h.perform op)

end Ledger

namespace IndexedWorklist

variable {κ : Type} [DecidableEq κ] [Hashable κ] {l : Ledger κ} {w : IndexedWorklist κ}

/-- The worklist without its index. -/
def plain (w : IndexedWorklist κ) : Worklist κ := ⟨w.queue⟩

theorem plain_add (h : l.Tracks w) (k : κ) : (w.add k).plain = w.plain.add k := by
  by_cases hk : k ∈ w.queue <;> simp [plain, Worklist.add, queue_add, h.contains_iff, hk]

theorem plain_addAll : ∀ (ks : List κ) {l : Ledger κ} {w : IndexedWorklist κ}, l.Tracks w →
    (w.addAll ks).plain = w.plain.addAll ks
  | [], _, _, _ => rfl
  | k :: ks, _, w, h => by
      have ih : ((w.add k).addAll ks).plain = (w.add k).plain.addAll ks :=
        plain_addAll ks (h.add k)
      rw [plain_add h] at ih
      exact ih

/-- Without its index, a worklist answers a call in the same way and ends in the same queue. -/
theorem plain_perform (h : l.Tracks w) (op : WorklistOp κ) :
    w.plain.perform op = ((w.perform op).1.plain, (w.perform op).2) := by
  cases op with
  | add k => simp only [perform, Worklist.perform, plain_add h]
  | addAll ks => simp only [perform, Worklist.perform, plain_addAll ks h]
  | extend ks => simp only [perform, Worklist.perform, plain_addAll ks h]
  | pop =>
    obtain ⟨queue, index⟩ := w
    cases queue <;> rfl
  | clear => rfl

theorem plain_replay : ∀ (ops : List (WorklistOp κ)) {l : Ledger κ} {w : IndexedWorklist κ},
    l.Tracks w → WorklistOp.replay Worklist.perform w.plain ops =
      ((WorklistOp.replay perform w ops).1.plain, (WorklistOp.replay perform w ops).2)
  | [], _, _, _ => rfl
  | op :: ops, _, w, h => by
      have ih := plain_replay ops (h.perform op)
      simp only [WorklistOp.replay, plain_perform h, ih]

/-- The index has as many keys as the queue has places. -/
theorem size_index (h : l.Tracks w) : w.index.size = w.length := by
  have hnodup : w.index.toList.Nodup := by
    refine Std.HashSet.distinct_toList.imp ?_
    intro a b hab
    simpa using hab
  have hperm : w.index.toList.Perm w.queue :=
    (List.perm_ext_iff_of_nodup hnodup h.nodup).mpr fun k =>
      Std.HashSet.mem_toList.trans (h.index k)
  rw [← Std.HashSet.length_toList, hperm.length_eq, length]

theorem isEmpty_iff (h : l.Tracks w) : w.isEmpty = true ↔ ∀ k, w.contains k = false := by
  rw [isEmpty, List.isEmpty_iff, List.eq_nil_iff_forall_not_mem]
  refine forall_congr' fun k => ?_
  rw [← h.contains_iff, Bool.not_eq_true]

/-- The next `pop` takes the oldest key that was let in and not taken out. -/
theorem pop?_map_fst (h : l.Tracks w) :
    w.pop?.map Prod.fst = l.admitted[l.popped.length]? := by
  rw [← h.order, List.getElem?_append_right (Nat.le_refl _), Nat.sub_self]
  obtain ⟨queue, index⟩ := w
  cases queue <;> rfl

/-- Whatever is called on a new worklist: no key is queued twice; `contains` tells what is in the
queue, which is what waits by the ledger of the calls; the length and the test for emptiness are
those of the set of these keys; the keys taken out and then the queue are the keys let in, in that
order, and the next `pop` takes the first key of the queue; and a worklist without an index gives
the same answers and has the same queue. -/
theorem replay_fifo (ops : List (WorklistOp κ)) :
    let w := (WorklistOp.replay perform (empty : IndexedWorklist κ) ops).1
    let answers := (WorklistOp.replay perform (empty : IndexedWorklist κ) ops).2
    let l := ({} : Ledger κ).enterAll ops answers
    w.queue.Nodup ∧
      (∀ k, (w.contains k = true ↔ k ∈ w.queue) ∧ (k ∈ w.queue ↔ l.Waits k)) ∧
      w.length = w.index.size ∧ (w.isEmpty = true ↔ ∀ k, w.contains k = false) ∧
      l.popped ++ w.queue = l.admitted ∧
      w.pop?.map Prod.fst = l.admitted[l.popped.length]? ∧
      WorklistOp.replay Worklist.perform .empty ops = (w.plain, answers) := by
  intro w answers l
  have h : l.Tracks w := Ledger.tracks_empty.replay ops
  exact ⟨h.nodup, fun k => ⟨h.contains_iff k, (h.waits_iff k).symm⟩, (size_index h).symm,
    isEmpty_iff h, h.order, pop?_map_fst h, plain_replay ops Ledger.tracks_empty⟩

/-- A key that was taken out comes in again behind the others, a key that waits keeps its place. -/
example : WorklistOp.replay Worklist.perform (.empty : Worklist Nat)
    [.addAll [1, 2, 1], .pop, .extend [2, 1], .pop, .pop, .pop] =
      (.empty, [none, some 1, none, some 2, some 1, none]) := by decide

end IndexedWorklist

end StaticAnalysis
