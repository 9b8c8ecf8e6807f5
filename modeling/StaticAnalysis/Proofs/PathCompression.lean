import Mathlib.Logic.Function.Iterate
import StaticAnalysis.Proofs.UnificationTermination

/-!
Path compression. Looking up the representative of a term puts all terms on the way directly under
it. The way is read off the parents as they were, so every term on it ends up there, however long it
was, and no other term gets a new parent.

Main statement: in every state that a unifier goes through, also in the middle of an equation, no
representative and no rank shows that a term was looked up. All that can be seen is that the term is
known from then on, as a class of its own if it was new.
-/

namespace StaticAnalysis

variable {ν : Type} [DecidableEq ν]

/-- The values that come from a point by repeating a function are the point itself and those that
come from its image. -/
theorem exists_iterate_iff {α : Type} {g : α → α} {x y : α} :
    (∃ n, g^[n] x = y) ↔ x = y ∨ ∃ n, g^[n] (g x) = y := by
  constructor
  · rintro ⟨_ | n, h⟩
    · exact Or.inl h
    · exact Or.inr ⟨n, h⟩
  · rintro (h | ⟨n, h⟩)
    · exact ⟨0, h⟩
    · exact ⟨n + 1, h⟩

namespace Forest

variable {f : Forest ν} {r s t : Term ν}

/-! ### The way to the representative -/

/-- Following parents far enough leads to the representative. -/
theorem Sound.exists_iterate_eq_find (hf : f.Sound) (t : Term ν) :
    ∃ n, f.parent^[n] t = f.find t := by
  induction t using hf.parent_induction with
  | root t h => exact ⟨0, (find_of_parent_eq h).symm⟩
  | child t h ih =>
    rw [hf.find_parent] at ih
    exact exists_iterate_iff.mpr (Or.inr ih)

/-- The trail consists of the terms on the way that have another parent than themselves. -/
theorem Sound.mem_trail_iff (hf : f.Sound) : ∀ (n : Nat) (t : Term ν), f.above t ≤ n →
    (s ∈ f.trail n t ↔ (∃ i, f.parent^[i] t = s) ∧ f.parent s ≠ s) := by
  have hroot : ∀ {t}, f.parent t = t → ¬ ((∃ i, f.parent^[i] t = s) ∧ f.parent s ≠ s) := by
    rintro t ht ⟨⟨i, rfl⟩, hne⟩
    rw [Function.iterate_fixed ht i] at hne
    exact hne ht
  intro n
  induction n with
  | zero =>
    intro t hn
    -- nothing is above the term, so it is a root
    have ht : f.parent t = t := by
      by_contra hne
      have hlt := hf.above_parent_lt hne
      omega
    simp [trail, hroot ht]
  | succ n ih =>
    intro t hn
    rw [trail]
    by_cases ht : f.parent t = t
    · simp [ht, hroot ht]
    · -- the trail is the term itself and the trail of its parent
      have hlt := hf.above_parent_lt ht
      rw [if_neg ht, List.mem_cons, ih _ (by omega), exists_iterate_iff (x := t)]
      constructor
      · rintro (rfl | ⟨hway, hne⟩)
        · exact ⟨Or.inl rfl, ht⟩
        · exact ⟨Or.inr hway, hne⟩
      · rintro ⟨rfl | hway, hne⟩
        · exact Or.inl rfl
        · exact Or.inr ⟨hway, hne⟩

/-! ### Giving many terms one parent -/

theorem terms_foldl_setParent (l : List (Term ν)) (f : Forest ν) :
    (l.foldl (fun g s => g.setParent s r) f).terms = f.terms := by
  induction l generalizing f with
  | nil => rfl
  | cons s l ih => exact (ih _).trans (terms_modify ..)

theorem rank_foldl_setParent (l : List (Term ν)) (f : Forest ν) (t : Term ν) :
    (l.foldl (fun g s => g.setParent s r) f).rank t = f.rank t := by
  induction l generalizing f with
  | nil => rfl
  | cons s l ih => exact (ih _).trans (rank_setParent f s r t)

theorem parent_foldl_setParent (l : List (Term ν)) (f : Forest ν) (h : ∀ s ∈ l, s ∈ f.terms)
    (t : Term ν) :
    (l.foldl (fun g s => g.setParent s r) f).parent t = if t ∈ l then r else f.parent t := by
  induction l generalizing f with
  | nil => rfl
  | cons s l ih =>
    have hrest : ∀ a ∈ l, a ∈ (f.setParent s r).terms := by
      intro a ha
      rw [setParent, terms_modify]
      exact h a (List.mem_cons_of_mem _ ha)
    rw [List.foldl_cons, ih _ hrest, parent_setParent (h s (List.mem_cons_self ..))]
    by_cases hts : t = s <;> by_cases htl : t ∈ l <;> simp [hts, htl]

/-! ### Looking up a term -/

theorem terms_root (f : Forest ν) (t : Term ν) :
    (f.root t).1.terms = if t ∈ f.terms then f.terms else f.terms ++ [t] := by
  have hroot : (f.root t).1.terms = (f.insert t).terms := terms_foldl_setParent ..
  rw [hroot]
  split
  · next h => rw [insert_of_mem h]
  · next h => simp [insert_of_not_mem h, terms]

theorem rank_root (f : Forest ν) (t s : Term ν) : (f.root t).1.rank s = f.rank s :=
  (rank_foldl_setParent ..).trans (rank_insert f t s)

open Classical in
/-- The terms on the way that are not the representative get it as their parent. -/
theorem Sound.parent_root (hf : f.Sound) (t s : Term ν) :
    (f.root t).1.parent s =
      if (∃ n, f.parent^[n] t = s) ∧ f.parent s ≠ s then f.find t else f.parent s := by
  have hi := hf.insert t
  have hparent : (f.insert t).parent = f.parent := funext (parent_insert f t)
  have htrail : ∀ s, s ∈ (f.insert t).trail (f.insert t).nodes.length t ↔
      (∃ n, f.parent^[n] t = s) ∧ f.parent s ≠ s := by
    intro s
    rw [hi.mem_trail_iff _ t ((f.insert t).above_le_length t), hparent]
  have hseen : ∀ s ∈ (f.insert t).trail (f.insert t).nodes.length t, s ∈ (f.insert t).terms := by
    intro s hs
    exact mem_terms_insert.mpr (Or.inl (mem_of_parent_ne ((htrail s).mp hs).2))
  have hroot : (f.root t).1.parent s = if s ∈ (f.insert t).trail (f.insert t).nodes.length t then
      (f.root t).2 else (f.insert t).parent s := parent_foldl_setParent _ _ hseen s
  rw [hroot, hf.root_snd, hparent]
  exact if_congr (htrail s) rfl rfl

/-- So every term on the way has the representative as its parent, which is its own. -/
theorem Sound.parent_root_iterate (hf : f.Sound) (t : Term ν) (n : Nat) :
    (f.root t).1.parent (f.parent^[n] t) = f.find t := by
  rw [hf.parent_root]
  split
  · rfl
  · next h =>
    have htop : f.parent (f.parent^[n] t) = f.parent^[n] t := by
      by_contra hne
      exact h ⟨⟨n, rfl⟩, hne⟩
    have hsame : ∀ m, f.find (f.parent^[m] t) = f.find t := by
      intro m
      induction m with
      | zero => rfl
      | succ m ih => rw [Function.iterate_succ_apply', hf.find_parent, ih]
    rw [htop, ← hsame n, find_of_parent_eq htop]

end Forest

namespace Unifier

variable {u v : Unifier ν} {lhs rhs l r : Term ν}

/-! ### The states that a unifier goes through -/

/-- A state that a unifier can be in, between two equations or in the middle of one. Terms are looked
up, representatives that do not conflict are merged, and what happens is noted. -/
inductive Reached : Unifier ν → Prop where
  | empty : Reached .empty
  | lookup {u : Unifier ν} (h : Reached u) (t : Term ν) : Reached (u.root t).1
  | merge {u : Unifier ν} {a b : Term ν} (h : Reached u) (hne : a ≠ b) (ha : u.find a = a)
      (hb : u.find b = b) (hmema : a ∈ u.forest.terms) (hmemb : b ∈ u.forest.terms)
      (hlike : a.isVar = false → b.isVar = false → a.Alike b) : Reached (u.union a b)
  | note {u : Unifier ν} (h : Reached u) (e : UnifierEvent ν) : Reached (u.note e)

theorem Reached.sound (hu : u.Reached) : u.Sound := by
  induction hu with
  | empty => exact sound_empty
  | lookup _ t ih => exact (ih.root t).1
  | merge _ hne ha hb hmema hmemb hlike ih => exact (ih.union hne ha hb hmema hmemb hlike).sound
  | note _ e ih => exact ⟨ih.forest, ih.shape⟩

/-- After both sides of an equation have been looked up, their representatives can be merged. -/
theorem LooksUp.reached (h : u.LooksUp lhs rhs v l r) (hu : u.Reached) :
    v.Reached ∧ (l ≠ r → (l.isVar = false → r.isVar = false → l.Alike r) →
      (v.union l r).Reached) := by
  obtain ⟨hu₁, -, hfind₁, -⟩ := hu.sound.root lhs
  obtain ⟨-, hfind, hmeml, hmemr, -⟩ := hu.sound.root_root lhs rhs
  obtain rfl : u.find lhs = l := h.left.find_eq hu.sound.forest
  obtain rfl : u.find rhs = r := (hfind₁ rhs).symm.trans (h.right.find_eq hu₁.forest)
  obtain rfl : _ = v := congrArg Prod.fst h.roots_eq
  have hv := (hu.lookup lhs).lookup rhs
  have hrep : ∀ t, ((u.root lhs).1.root rhs).1.find (u.find t) = u.find t := by
    intro t
    rw [hfind, hu.sound.find_find]
  exact ⟨hv, fun hne hlike => hv.merge hne (hrep lhs) (hrep rhs) hmeml hmemr hlike⟩

mutual

/-- Whatever an equation does, it goes through such states only. -/
theorem Unifies.reached {u : Unifier ν} {lhs rhs : Term ν} {result : Unifier ν × Verdict ν} :
    Unifies u lhs rhs result → u.Reached → result.1.Reached
  | .same h, hu => (h.reached hu).1
  | .decompose h hne hlen hargs, hu => by
      refine hargs.reached ((h.reached hu).2 (fun heq => hne (Term.app.inj heq).2) fun _ _ => ?_)
      exact Term.alike_app.mpr ⟨rfl, hlen⟩
  | .constructorClash h _, hu => (h.reached hu).1.note _
  | .absorb h hne hvar, hu => by
      refine (h.reached hu).2 hne fun hl hr => ?_
      rw [hl, hr] at hvar
      rcases hvar with hvar | hvar <;> cases hvar
  | .shapeClash h _ _ _ _, hu => (h.reached hu).1.note _

theorem UnifiesEach.reached {u : Unifier ν} {eqs : List (Term ν × Term ν)}
    {result : Unifier ν × Verdict ν} : UnifiesEach eqs u result → u.Reached → result.1.Reached
  | .nil, hu => hu
  | .next h hrest, hu => hrest.reached (h.reached hu)
  | .stop h, hu => h.reached hu

end

theorem reached_after (eqs : List (Term ν × Term ν)) : (after eqs).Reached :=
  after_invariant .empty fun _ _ _ hu => (hu.sound.unifies_iff.mpr rfl).reached hu

/-! ### What can be seen of a lookup -/

/-- The second unifier comes from the first one by looking up a term, with a representative as the
answer. -/
structure Compresses (u : Unifier ν) (t : Term ν) (v : Unifier ν) (r : Term ν) : Prop where
  /-- Following parents from the term ends, and it ends at the answer. -/
  ends : r = u.find t ∧ u.forest.parent r = r ∧ ∃ n, u.forest.parent^[n] t = r
  /-- All terms keep their representatives, whether they have been seen or not. -/
  find : ∀ s, v.find s = u.find s
  /-- All terms keep their ranks. -/
  rank : ∀ s, v.forest.rank s = u.forest.rank s
  /-- No other term counts as seen that did not before. -/
  terms : v.forest.terms =
    if t ∈ u.forest.terms then u.forest.terms else u.forest.terms ++ [t]
  /-- A new term is alone in its class. -/
  alone : t ∉ u.forest.terms → ∀ s, v.find s = t ↔ s = t
  /-- Every term on the old way is directly under the representative. -/
  way : ∀ n, v.forest.parent (u.forest.parent^[n] t) = u.find t
  /-- Every other term keeps its parent. -/
  aside : ∀ s, (∀ n, u.forest.parent^[n] t ≠ s) → v.forest.parent s = u.forest.parent s

/-- Looking up a term is path compression, in every state that a unifier goes through. -/
theorem root_compresses (hu : u.Reached) (t : Term ν) :
    u.Compresses t (u.root t).1 (u.root t).2 := by
  have hf := hu.sound.forest
  obtain ⟨-, -, hfind, hroot⟩ := hu.sound.root t
  refine ⟨⟨hroot, ?_, ?_⟩, hfind, u.forest.rank_root t, u.forest.terms_root t, ?_,
    hf.parent_root_iterate t, ?_⟩
  · -- the result is a root
    rw [hroot]
    exact hf.parent_find t
  · -- it is reached from the term
    rw [hroot]
    exact hf.exists_iterate_eq_find t
  · -- a term that was not seen before is alone in its class
    intro ht s
    rw [hfind]
    exact hf.find_eq_iff_of_not_mem ht
  · -- off the chain all parents are as before
    intro s hs
    refine (hf.parent_root t s).trans (if_neg ?_)
    rintro ⟨⟨n, hn⟩, -⟩
    exact hs n hn

/-- An example: `a = b`, `c = d`, `a = c` and `a = k` put `d` under `c`, `c` under `a` and `a` under
`k`, and `b` under `a`. -/
def twoPairs : List (Term Nat × Term Nat) :=
  [(.var (.free 0), .var (.free 1)), (.var (.free 2), .var (.free 3)),
    (.var (.free 0), .var (.free 2)), (.var (.free 0), .app "k" [])]

/-- Looking up `d` puts `d`, `c` and `a` under `k` and leaves `b` under `a`; looking up `e` makes it
known. -/
theorem root_twoPairs_compresses :
    (after twoPairs).Reached ∧
      (after twoPairs).forest.parent (.var (.free 3)) = .var (.free 2) ∧
      (after twoPairs).forest.parent (.var (.free 2)) = .var (.free 0) ∧
      ((after twoPairs).root (.var (.free 3))).2 = .app "k" [] ∧
      ((after twoPairs).root (.var (.free 3))).1.forest.parent (.var (.free 3)) = .app "k" [] ∧
      ((after twoPairs).root (.var (.free 3))).1.forest.parent (.var (.free 2)) = .app "k" [] ∧
      ((after twoPairs).root (.var (.free 3))).1.forest.parent (.var (.free 0)) = .app "k" [] ∧
      ((after twoPairs).root (.var (.free 3))).1.forest.parent (.var (.free 1)) = .var (.free 0) ∧
      (∀ s, ((after twoPairs).root (.var (.free 3))).1.find s = (after twoPairs).find s) ∧
      .var (.free 4) ∉ (after twoPairs).forest.terms ∧
      ∀ s, ((after twoPairs).root (.var (.free 4))).1.find s = .var (.free 4) ↔
        s = .var (.free 4) := by
  have hfind : (after twoPairs).find (.var (.free 3)) = .app "k" [] := by decide
  have hnew : .var (.free 4) ∉ (after twoPairs).forest.terms := by decide
  have hold := root_compresses (reached_after twoPairs) (.var (.free 3))
  have hway := fun n => (hold.way n).trans hfind
  refine ⟨reached_after twoPairs, by decide, by decide, hold.ends.1.trans hfind, hway 0, hway 1,
    hway 2, by decide, hold.find, hnew, ?_⟩
  exact (root_compresses (reached_after twoPairs) (.var (.free 4))).alone hnew

end Unifier

end StaticAnalysis
