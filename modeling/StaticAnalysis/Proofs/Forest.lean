import Mathlib.Logic.Basic
import StaticAnalysis.Unification.Forest

/-!
The classes of a forest. Ranks rise from a term to its parent, so following parents ends at a term
that is its own parent, and it does so within the bound of `Forest.find`. Looking up a
representative changes the parents but no class; linking two representatives merges their classes
and leaves all others alone.
-/

namespace StaticAnalysis

/-- A condition that holds less often in a list, and fails where the other one holds, is counted
less. -/
theorem countP_lt_countP {α : Type} {p q : α → Bool} {l : List α} {x : α} (hx : x ∈ l)
    (hpq : ∀ y ∈ l, p y = true → q y = true) (hp : p x = false) (hq : q x = true) :
    l.countP p < l.countP q := by
  obtain ⟨before, behind, rfl⟩ := List.append_of_mem hx
  have hbefore : before.countP p ≤ before.countP q :=
    List.countP_mono_left fun y hy => hpq y (List.mem_append_left _ hy)
  have hbehind : behind.countP p ≤ behind.countP q :=
    List.countP_mono_left fun y hy => hpq y (List.mem_append_right _ (List.mem_cons_of_mem _ hy))
  rw [List.countP_append, List.countP_append, List.countP_cons, List.countP_cons, hp, hq]
  simp only [Bool.false_eq_true, if_false, if_true]
  omega

namespace Forest

variable {ν : Type} [DecidableEq ν]

/-- Ranks rise from a term to its parent, and parents have been seen. -/
structure Sound (f : Forest ν) : Prop where
  rank_lt : ∀ {t}, f.parent t ≠ t → f.rank t < f.rank (f.parent t)
  parent_mem : ∀ {t}, f.parent t ≠ t → f.parent t ∈ f.terms

variable {f g : Forest ν} {s t r : Term ν}

theorem mem_terms_iff : t ∈ f.terms ↔ f.node? t ≠ none := by
  rw [node?, ne_eq, List.lookup_eq_none_iff]
  simp [terms]

theorem parent_of_not_mem (h : t ∉ f.terms) : f.parent t = t := by
  rw [mem_terms_iff, not_not] at h
  simp [parent, h]

theorem mem_of_parent_ne (h : f.parent t ≠ t) : t ∈ f.terms :=
  by_contra fun hmem => h (parent_of_not_mem hmem)

/-! ### Following parents -/

theorem climb_of_parent_eq (h : f.parent t = t) : ∀ n, f.climb n t = t
  | 0 => rfl
  | _ + 1 => if_pos h

theorem climb_succ_of_parent_ne (h : f.parent t ≠ t) (n : Nat) :
    f.climb (n + 1) t = f.climb n (f.parent t) := if_neg h

theorem climb_succ : ∀ (n : Nat) (t : Term ν), f.climb (n + 1) t = f.parent (f.climb n t)
  | 0, t => by
      by_cases h : f.parent t = t
      · rw [climb_of_parent_eq h, climb_of_parent_eq h, h]
      · rw [climb_succ_of_parent_ne h]
        rfl
  | n + 1, t => by
      by_cases h : f.parent t = t
      · rw [climb_of_parent_eq h, climb_of_parent_eq h, h]
      · rw [climb_succ_of_parent_ne h, climb_succ_of_parent_ne h, climb_succ n]

/-- The number of terms seen whose rank is not below that of a given term. -/
def above (f : Forest ν) (t : Term ν) : Nat := f.terms.countP fun s => f.rank t ≤ f.rank s

theorem Sound.above_parent_lt (hf : f.Sound) (h : f.parent t ≠ t) :
    f.above (f.parent t) < f.above t := by
  have hrank := hf.rank_lt h
  refine countP_lt_countP (mem_of_parent_ne h) (fun s _ hs => ?_) ?_ ?_
  · simp only [decide_eq_true_eq] at hs ⊢
    omega
  · simp only [decide_eq_false_iff_not]
    omega
  · simp

theorem Sound.parent_climb (hf : f.Sound) : ∀ (n : Nat) (t : Term ν), f.above t ≤ n →
    f.parent (f.climb n t) = f.climb n t
  | 0, t, hn => by
      refine by_contra fun h => ?_
      have hlt := hf.above_parent_lt h
      change f.above (f.parent t) < f.above t at hlt
      omega
  | n + 1, t, hn => by
      by_cases h : f.parent t = t
      · rw [climb_of_parent_eq h, h]
      · have hlt := hf.above_parent_lt h
        rw [climb_succ_of_parent_ne h]
        exact hf.parent_climb n _ (by omega)

theorem above_le_length (f : Forest ν) (t : Term ν) : f.above t ≤ f.nodes.length := by
  have hle : f.above t ≤ f.terms.length := List.countP_le_length
  rwa [terms, List.length_map] at hle

/-- A representative is its own parent. -/
theorem Sound.parent_find (hf : f.Sound) (t : Term ν) : f.parent (f.find t) = f.find t :=
  hf.parent_climb _ t (f.above_le_length t)

theorem find_of_parent_eq (h : f.parent t = t) : f.find t = t := climb_of_parent_eq h _

theorem Sound.find_find (hf : f.Sound) (t : Term ν) : f.find (f.find t) = f.find t :=
  find_of_parent_eq (hf.parent_find t)

/-- A term is in the class of its parent. -/
theorem Sound.find_parent (hf : f.Sound) (t : Term ν) : f.find (f.parent t) = f.find t := by
  by_cases h : f.parent t = t
  · rw [h]
  · calc f.find (f.parent t) = f.climb (f.nodes.length + 1) t :=
          (climb_succ_of_parent_ne h _).symm
      _ = f.parent (f.find t) := climb_succ _ t
      _ = f.find t := hf.parent_find t

/-- Induction from parents to children. -/
theorem Sound.parent_induction (hf : f.Sound) {motive : Term ν → Prop}
    (root : ∀ t, f.parent t = t → motive t)
    (child : ∀ t, f.parent t ≠ t → motive (f.parent t) → motive t) (t : Term ν) : motive t := by
  induction hn : f.above t using Nat.strongRecOn generalizing t with
  | ind n ih =>
    by_cases h : f.parent t = t
    · exact root t h
    · exact child t h (ih _ (hn ▸ hf.above_parent_lt h) _ rfl)

theorem Sound.rank_le_find (hf : f.Sound) (t : Term ν) : f.rank t ≤ f.rank (f.find t) := by
  induction t using hf.parent_induction with
  | root t h => exact Nat.le_of_eq (congrArg _ (find_of_parent_eq h).symm)
  | child t h ih =>
    rw [hf.find_parent] at ih
    exact Nat.le_trans (Nat.le_of_lt (hf.rank_lt h)) ih

theorem Sound.rank_lt_find (hf : f.Sound) (h : f.parent t ≠ t) :
    f.rank t < f.rank (f.find t) := by
  have hparent := hf.rank_le_find (f.parent t)
  rw [hf.find_parent] at hparent
  exact Nat.lt_of_lt_of_le (hf.rank_lt h) hparent

theorem Sound.find_mem (hf : f.Sound) (ht : t ∈ f.terms) : f.find t ∈ f.terms := by
  induction t using hf.parent_induction with
  | root t h => rwa [find_of_parent_eq h]
  | child t h ih => exact hf.find_parent t ▸ ih (hf.parent_mem h)

/-- A term that was not seen is alone in its class. -/
theorem Sound.find_eq_iff_of_not_mem (hf : f.Sound) (ht : t ∉ f.terms) : f.find s = t ↔ s = t := by
  constructor
  · intro hs
    refine by_contra fun hne => ?_
    have hseen : s ∈ f.terms := mem_terms_of_find_ne fun h => hne (h.symm.trans hs)
    exact ht (hs ▸ hf.find_mem hseen)
  · rintro rfl
    exact find_of_parent_eq (parent_of_not_mem ht)

/-! ### Changing what is known about a term -/

theorem node?_modify (f : Forest ν) (t : Term ν) (change : ForestNode ν → ForestNode ν)
    (s : Term ν) : (f.modify t change).node? s =
      if s = t then (f.node? s).map change else f.node? s := by
  obtain ⟨nodes⟩ := f
  simp only [node?, modify]
  induction nodes with
  | nil => simp
  | cons e nodes ih =>
    obtain ⟨k, n⟩ := e
    have hnode : (if k = t then (k, change n) else (k, n)) =
        (k, if k = t then change n else n) := by split <;> rfl
    rw [List.map_cons, hnode, List.lookup_cons, List.lookup_cons, ih]
    by_cases hs : s = k
    · subst hs
      by_cases ht : s = t <;> simp [ht]
    · rw [beq_false_of_ne hs]

theorem terms_modify (f : Forest ν) (t : Term ν) (change : ForestNode ν → ForestNode ν) :
    (f.modify t change).terms = f.terms := by
  simp only [terms, modify, List.map_map]
  refine List.map_congr_left fun e _ => ?_
  by_cases h : e.1 = t <;> simp [h]

theorem parent_setParent (ht : t ∈ f.terms) (p s : Term ν) :
    (f.setParent t p).parent s = if s = t then p else f.parent s := by
  rw [mem_terms_iff] at ht
  obtain ⟨n, hn⟩ := Option.ne_none_iff_exists'.mp ht
  unfold parent setParent
  rw [node?_modify]
  by_cases hs : s = t
  · simp [hs, hn]
  · simp [hs]

theorem rank_setParent (f : Forest ν) (t p s : Term ν) : (f.setParent t p).rank s = f.rank s := by
  unfold rank setParent
  rw [node?_modify]
  split <;> simp [Option.map_map, Function.comp_def]

theorem parent_setRank (f : Forest ν) (t : Term ν) (k : Nat) (s : Term ν) :
    (f.setRank t k).parent s = f.parent s := by
  unfold parent setRank
  rw [node?_modify]
  split <;> simp [Option.map_map, Function.comp_def]

theorem rank_setRank (ht : t ∈ f.terms) (k : Nat) (s : Term ν) :
    (f.setRank t k).rank s = if s = t then k else f.rank s := by
  rw [mem_terms_iff] at ht
  obtain ⟨n, hn⟩ := Option.ne_none_iff_exists'.mp ht
  unfold rank setRank
  rw [node?_modify]
  by_cases hs : s = t
  · simp [hs, hn]
  · simp [hs]

/-! ### Looking up a representative -/

theorem insert_of_mem (h : t ∈ f.terms) : f.insert t = f := by
  obtain ⟨n, hn⟩ := Option.ne_none_iff_exists'.mp (mem_terms_iff.mp h)
  simp [insert, hn]

theorem insert_of_not_mem (h : t ∉ f.terms) : f.insert t = ⟨f.nodes ++ [(t, ⟨t, 0⟩)]⟩ := by
  rw [mem_terms_iff, not_not] at h
  simp [insert, h]

theorem mem_terms_insert : s ∈ (f.insert t).terms ↔ s ∈ f.terms ∨ s = t := by
  by_cases h : t ∈ f.terms
  · rw [insert_of_mem h]
    exact ⟨Or.inl, fun hs => hs.elim id fun e => e ▸ h⟩
  · rw [insert_of_not_mem h]
    simp [terms]

/-- A new term is its own parent and has rank zero, as if it had not been seen. -/
theorem node?_insert (f : Forest ν) (t s : Term ν) :
    (f.insert t).node? s = f.node? s ∨ f.node? s = none ∧ (f.insert t).node? s = some ⟨s, 0⟩ := by
  by_cases h : t ∈ f.terms
  · -- a term that is there is not inserted again
    rw [insert_of_mem h]
    exact Or.inl rfl
  · rw [insert_of_not_mem h]
    unfold node?
    rw [List.lookup_append]
    cases hs : f.nodes.lookup s with
    | some n => exact Or.inl rfl
    | none =>
      -- a new term is found at the end of the list
      by_cases hst : s = t
      · exact Or.inr ⟨rfl, by simp [hst]⟩
      · exact Or.inl (by simp [List.lookup_cons, beq_false_of_ne hst])

theorem parent_insert (f : Forest ν) (t s : Term ν) : (f.insert t).parent s = f.parent s := by
  unfold parent
  rcases node?_insert f t s with h | ⟨hnone, hsome⟩
  · rw [h]
  · rw [hnone, hsome]
    rfl

theorem rank_insert (f : Forest ν) (t s : Term ν) : (f.insert t).rank s = f.rank s := by
  unfold rank
  rcases node?_insert f t s with h | ⟨hnone, hsome⟩
  · rw [h]
  · rw [hnone, hsome]
    rfl

theorem Sound.insert (hf : f.Sound) (t : Term ν) : (f.insert t).Sound where
  rank_lt := by
    intro s hs
    rw [parent_insert] at hs ⊢
    rw [rank_insert, rank_insert]
    exact hf.rank_lt hs
  parent_mem := by
    intro s hs
    rw [parent_insert] at hs ⊢
    exact mem_terms_insert.mpr (Or.inl (hf.parent_mem hs))

/-- Two forests with the same parents have the same representatives. -/
theorem Sound.find_congr (hf : f.Sound) (hg : g.Sound) (h : ∀ t, g.parent t = f.parent t)
    (t : Term ν) : g.find t = f.find t := by
  induction t using hf.parent_induction with
  | root t ht => rw [find_of_parent_eq ht, find_of_parent_eq ((h t).trans ht)]
  | child t ht ih => rw [← hg.find_parent, h, ih, hf.find_parent]

/-- One term may get another parent, and others a higher rank if they are their own parents, as long
as the rank of the new parent is above that of the term. -/
theorem Sound.redirect (hf : f.Sound)
    (hparent : ∀ t, g.parent t = if t = s then r else f.parent t) (hterms : g.terms = f.terms)
    (hr : r ∈ f.terms) (hkept : ∀ t, f.parent t ≠ t → g.rank t = f.rank t)
    (hle : ∀ t, f.rank t ≤ g.rank t) (hlt : g.rank s < g.rank r) : g.Sound where
  rank_lt := by
    intro t ht
    rw [hparent] at ht ⊢
    by_cases hts : t = s
    · -- the redirected term
      rw [if_pos hts, hts]
      exact hlt
    · -- a term below another one keeps its rank, and no rank above it gets smaller
      rw [if_neg hts] at ht ⊢
      rw [hkept t ht]
      exact Nat.lt_of_lt_of_le (hf.rank_lt ht) (hle _)
  parent_mem := by
    intro t ht
    rw [hparent] at ht ⊢
    rw [hterms]
    by_cases hts : t = s
    · rwa [if_pos hts]
    · rw [if_neg hts] at ht ⊢
      exact hf.parent_mem ht

/-- A term may be put directly under its representative. -/
theorem Sound.setParent_find (hf : f.Sound) (hs : f.find s ≠ s) :
    (f.setParent s (f.find s)).Sound ∧ ∀ t, (f.setParent s (f.find s)).find t = f.find t := by
  have hchild : f.parent s ≠ s := fun h => hs (find_of_parent_eq h)
  have hmem := mem_of_parent_ne hchild
  have hparent := parent_setParent hmem (f.find s)
  have hrank := rank_setParent f s (f.find s)
  have hsound : (f.setParent s (f.find s)).Sound := by
    refine hf.redirect hparent (terms_modify ..) (hf.find_mem hmem) (fun t _ => hrank t)
      (fun t => Nat.le_of_eq (hrank t).symm) ?_
    rw [hrank, hrank]
    exact hf.rank_lt_find hchild
  have hroot : (f.setParent s (f.find s)).find (f.find s) = f.find s := by
    refine find_of_parent_eq ?_
    rw [hparent, if_neg hs, hf.parent_find]
  refine ⟨hsound, fun t => ?_⟩
  induction t using hf.parent_induction with
  | root t ht =>
    have hts : t ≠ s := fun h => hchild (h ▸ ht)
    rw [find_of_parent_eq ht, find_of_parent_eq]
    rw [hparent, if_neg hts, ht]
  | child t ht ih =>
    rw [← hsound.find_parent, hparent]
    by_cases hts : t = s
    · rw [if_pos hts, hroot, hts]
    · rw [if_neg hts, ih, hf.find_parent]

theorem Sound.mem_trail (hf : f.Sound) : ∀ (n : Nat) (t : Term ν), s ∈ f.trail n t →
    f.find s = f.find t ∧ f.find s ≠ s
  | 0, t, hs => by cases hs
  | n + 1, t, hs => by
      unfold trail at hs
      split at hs
      · cases hs
      · next ht =>
        rcases List.mem_cons.mp hs with rfl | hs
        · -- the first term of the trail is no root, as its root has a larger rank
          refine ⟨rfl, fun h => ?_⟩
          have hlt := hf.rank_lt_find ht
          rw [h] at hlt
          exact Nat.lt_irrefl _ hlt
        · -- the others are on the trail of its parent
          obtain ⟨heq, hne⟩ := hf.mem_trail n _ hs
          exact ⟨heq.trans (hf.find_parent t), hne⟩

/-- So may all terms of a list, one after the other. -/
theorem Sound.foldl_setParent (hf : f.Sound) (l : List (Term ν))
    (h : ∀ s ∈ l, f.find s = r ∧ s ≠ r) :
    (l.foldl (fun g s => g.setParent s r) f).Sound ∧
      (l.foldl (fun g s => g.setParent s r) f).terms = f.terms ∧
      ∀ t, (l.foldl (fun g s => g.setParent s r) f).find t = f.find t := by
  induction l generalizing f with
  | nil => exact ⟨hf, rfl, fun _ => rfl⟩
  | cons s l ih =>
    obtain ⟨hr, hne⟩ := h s (List.mem_cons_self ..)
    obtain ⟨hsound, hfind⟩ := hf.setParent_find (s := s) fun hs => hne (hs.symm.trans hr)
    rw [hr] at hsound hfind
    obtain ⟨hrest, hterms, hsame⟩ := ih hsound fun a ha => by
      rw [hfind]
      exact h a (List.mem_cons_of_mem _ ha)
    rw [List.foldl_cons]
    exact ⟨hrest, hterms.trans (terms_modify ..), fun t => (hsame t).trans (hfind t)⟩

theorem Sound.root_snd (hf : f.Sound) (t : Term ν) : (f.root t).2 = f.find t :=
  hf.find_congr (hf.insert t) (parent_insert f t) t

/-- Looking up a representative keeps all classes. The term counts as seen afterwards. -/
theorem Sound.root (hf : f.Sound) (t : Term ν) :
    (f.root t).1.Sound ∧ (∀ s, s ∈ (f.root t).1.terms ↔ s ∈ f.terms ∨ s = t) ∧
      ∀ s, (f.root t).1.find s = f.find s := by
  have hi := hf.insert t
  obtain ⟨hsound, hterms, hfind⟩ := hi.foldl_setParent _ fun s hs => by
    obtain ⟨heq, hne⟩ := hi.mem_trail (f.insert t).nodes.length t hs
    exact ⟨heq, fun h => hne (heq.trans h.symm)⟩
  refine ⟨hsound, fun s => ?_, fun s => ?_⟩
  · rw [← mem_terms_insert]
    exact Iff.of_eq (congrArg (s ∈ ·) hterms)
  · exact (hfind s).trans (hf.find_congr hi (parent_insert f t) s)

/-! ### Merging two classes -/

/-- Two representatives and a rank that the second one can have with the first one under it. -/
structure Linkable (f : Forest ν) (child root : Term ν) (k : Nat) : Prop where
  ne : child ≠ root
  child_top : f.parent child = child
  root_top : f.parent root = root
  child_mem : child ∈ f.terms
  root_mem : root ∈ f.terms
  rank_lt : f.rank child < k
  rank_le : f.rank root ≤ k

variable {child root : Term ν} {k : Nat}

theorem Linkable.parent_link (h : f.Linkable child root k) (t : Term ν) :
    (f.link child root k).parent t = if t = child then root else f.parent t := by
  have hmem : child ∈ (f.setRank root k).terms := by
    rw [setRank, terms_modify]
    exact h.child_mem
  rw [link, parent_setParent hmem, parent_setRank]

theorem Linkable.rank_link (h : f.Linkable child root k) (t : Term ν) :
    (f.link child root k).rank t = if t = root then k else f.rank t := by
  rw [link, rank_setParent, rank_setRank h.root_mem]

theorem Linkable.sound (h : f.Linkable child root k) (hf : f.Sound) :
    (f.link child root k).Sound := by
  refine hf.redirect h.parent_link ((terms_modify ..).trans (terms_modify ..)) h.root_mem ?_ ?_ ?_
  · -- a term that has a parent is not the new root, which alone changes its rank
    intro t ht
    have htr : t ≠ root := fun htr => ht (htr ▸ h.root_top)
    rw [h.rank_link, if_neg htr]
  · -- no rank gets smaller
    intro t
    rw [h.rank_link]
    split
    · next htr => exact htr ▸ h.rank_le
    · exact Nat.le_refl _
  · -- the new root ranks above its child
    rw [h.rank_link, h.rank_link, if_neg h.ne, if_pos rfl]
    exact h.rank_lt

/-- Linking a representative under another one moves its class there. -/
theorem Linkable.find_link (h : f.Linkable child root k) (hf : f.Sound) (t : Term ν) :
    (f.link child root k).find t = if f.find t = child then root else f.find t := by
  have hstay : (f.link child root k).find root = root := by
    refine find_of_parent_eq ?_
    rw [h.parent_link, if_neg (Ne.symm h.ne), h.root_top]
  induction t using hf.parent_induction with
  | root t ht =>
    rw [find_of_parent_eq ht]
    by_cases htc : t = child
    · rw [if_pos htc, ← (h.sound hf).find_parent, h.parent_link, if_pos htc, hstay]
    · rw [if_neg htc, find_of_parent_eq]
      rw [h.parent_link, if_neg htc, ht]
  | child t ht ih =>
    have htc : t ≠ child := fun htc => ht (htc ▸ h.child_top)
    rw [← (h.sound hf).find_parent, h.parent_link, if_neg htc, ih, hf.find_parent]

/-- One of two terms goes under the other. A term that is no variable stays or goes under one. -/
theorem merger_spec (f : Forest ν) (a b : Term ν) :
    let m := f.merger a b
    (m.1 = a ∧ m.2.1 = b ∨ m.1 = b ∧ m.2.1 = a) ∧ f.rank m.1 < m.2.2 ∧ f.rank m.2.1 ≤ m.2.2 ∧
      (m.1.isVar = false → m.2.1.isVar = false) := by
  dsimp only
  unfold merger
  split
  · -- only the first is a variable: it goes below the second
    next ha hb =>
    exact ⟨Or.inl ⟨rfl, rfl⟩, by dsimp only; omega, by dsimp only; omega, fun _ => hb⟩
  · -- only the second is a variable: it goes below the first
    next ha hb =>
    exact ⟨Or.inr ⟨rfl, rfl⟩, by dsimp only; omega, by dsimp only; omega, fun _ => ha⟩
  · -- both are variables or neither is: the ranks decide
    next hleft hright =>
    have hkind : a.isVar = b.isVar := by
      cases ha : a.isVar <;> cases hb : b.isVar
      · rfl
      · exact absurd hb (hright ha)
      · exact absurd hb (hleft ha)
      · rfl
    split
    · next hlt => exact ⟨Or.inl ⟨rfl, rfl⟩, hlt, Nat.le_refl _, fun h => hkind ▸ h⟩
    · split
      · next hlt => exact ⟨Or.inr ⟨rfl, rfl⟩, hlt, Nat.le_refl _, fun h => hkind ▸ h⟩
      · exact ⟨Or.inr ⟨rfl, rfl⟩, by dsimp only; omega, Nat.le_succ _, fun h => hkind ▸ h⟩

/-- Two representatives that have been seen can be linked the way `Forest.merger` says. -/
theorem linkable_merger {a b : Term ν} (hne : a ≠ b) (ha : f.parent a = a) (hb : f.parent b = b)
    (hmema : a ∈ f.terms) (hmemb : b ∈ f.terms) :
    f.Linkable (f.merger a b).1 (f.merger a b).2.1 (f.merger a b).2.2 := by
  obtain ⟨hends, hlt, hle, -⟩ := f.merger_spec a b
  rcases hends with ⟨hchild, hroot⟩ | ⟨hchild, hroot⟩
  · rw [hchild] at hlt ⊢
    rw [hroot] at hle ⊢
    exact ⟨hne, ha, hb, hmema, hmemb, hlt, hle⟩
  · rw [hchild] at hlt ⊢
    rw [hroot] at hle ⊢
    exact ⟨Ne.symm hne, hb, ha, hmemb, hmema, hlt, hle⟩

end Forest

end StaticAnalysis
