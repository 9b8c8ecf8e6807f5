import Mathlib.Data.List.Forall2
import StaticAnalysis.Proofs.Forest
import StaticAnalysis.Unification.Unifier

/-!
Single equations in a unifier. Working on an equation looks up the representatives of its sides and
then does one of four things: nothing, if they are the same; give up, if they conflict; merge their
classes, if one of them is a variable; or merge their classes and go on with the arguments.
Everything that holds of a unifier is derived from these cases, first of all that classes only grow.
-/

namespace StaticAnalysis

variable {ν : Type}

namespace Term

/-- Both terms are applications of one constructor to equally many arguments. -/
def Alike (s t : Term ν) : Prop :=
  ∃ name ss ts, s = .app name ss ∧ t = .app name ts ∧ ss.length = ts.length

/-- The terms cannot be equal: they differ, neither is a variable, and they are not alike. -/
def Conflict (s t : Term ν) : Prop :=
  s ≠ t ∧ s.isVar = false ∧ t.isVar = false ∧ ¬ s.Alike t

theorem Alike.symm {s t : Term ν} : s.Alike t → t.Alike s
  | ⟨name, ss, ts, hs, ht, hlen⟩ => ⟨name, ts, ss, ht, hs, hlen.symm⟩

theorem Alike.trans {s t r : Term ν} : s.Alike t → t.Alike r → s.Alike r
  | ⟨name, ss, ts, hs, ht, hlen⟩, ⟨name', ts', rs, ht', hr, hlen'⟩ => by
      rw [ht] at ht'
      obtain ⟨rfl, rfl⟩ := Term.app.inj ht'
      exact ⟨name, ss, rs, hs, hr, hlen.trans hlen'⟩

theorem Alike.isVar {s t : Term ν} : s.Alike t → t.isVar = false
  | ⟨_, _, _, _, ht, _⟩ => by
      rw [ht]
      rfl

theorem alike_app {f g : String} {ss ts : List (Term ν)} :
    (app f ss).Alike (app g ts) ↔ f = g ∧ ss.length = ts.length := by
  constructor
  · rintro ⟨name, ss', ts', hs, ht, hlen⟩
    obtain ⟨rfl, rfl⟩ := Term.app.inj hs
    obtain ⟨rfl, rfl⟩ := Term.app.inj ht
    exact ⟨rfl, hlen⟩
  · rintro ⟨rfl, hlen⟩
    exact ⟨f, ss, ts, rfl, rfl, hlen⟩

theorem isVar_eq_false {t : Term ν} (h : ∀ x, t = var x → False) : t.isVar = false := by
  cases t with
  | var x => exact (h x rfl).elim
  | app => rfl
  | mu => rfl

end Term

namespace Unifier

/-- If every equation of a list keeps a condition on unifiers and ends in a certain way, then so
does working through the list. -/
theorem unifyEach_outcome {unify : Unifier ν → Term ν → Term ν → Unifier ν × Verdict ν}
    {P : Unifier ν → Prop} {Q : Unifier ν × Verdict ν → Prop} (hQ : ∀ u, P u → Q (u, .unified)) :
    ∀ {eqs : List (Term ν × Term ν)} {u : Unifier ν},
      (∀ u, ∀ p ∈ eqs, P u → P (unify u p.1 p.2).1 ∧ Q (unify u p.1 p.2)) → P u →
      Q (unifyEach unify eqs u)
  | [], u, _, hu => hQ u hu
  | (s, t) :: rest, u, h, hu => by
      have hstep := h u (s, t) (List.mem_cons_self ..) hu
      unfold unifyEach
      split
      · next v heq =>
        rw [heq] at hstep
        exact unifyEach_outcome hQ (fun w p hp => h w p (List.mem_cons_of_mem _ hp)) hstep.1
      · exact hstep.2

/-- What every equation of a list keeps is kept by working through the list. -/
theorem unifyEach_invariant {unify : Unifier ν → Term ν → Term ν → Unifier ν × Verdict ν}
    {P : Unifier ν → Prop} {Q : Verdict ν → Prop} (hQ : Q .unified)
    {eqs : List (Term ν × Term ν)} {u : Unifier ν}
    (h : ∀ u, ∀ p ∈ eqs, P u → P (unify u p.1 p.2).1 ∧ Q (unify u p.1 p.2).2) (hu : P u) :
    P (unifyEach unify eqs u).1 ∧ Q (unifyEach unify eqs u).2 :=
  unifyEach_outcome (P := P) (Q := fun result => P result.1 ∧ Q result.2) (fun _ hv => ⟨hv, hQ⟩)
    (fun v p hp hv => ⟨(h v p hp hv).1, h v p hp hv⟩) hu

theorem unifyEach_concat {unify : Unifier ν → Term ν → Term ν → Unifier ν × Verdict ν} :
    ∀ {eqs : List (Term ν × Term ν)} {u v : Unifier ν}, unifyEach unify eqs u = (v, .unified) →
      ∀ l r, unifyEach unify (eqs ++ [(l, r)]) u = unify v l r
  | [], u, v, h, l, r => by
      cases h
      rw [List.nil_append, unifyEach]
      split
      · next w hw => exact hw.symm
      · rfl
  | (s, t) :: rest, u, v, h, l, r => by
      rw [unifyEach] at h
      rw [List.cons_append, unifyEach]
      split at h
      · -- the first equation is accepted, and the rest goes on from there
        exact unifyEach_concat h l r
      · -- it is not, against the hypothesis
        next hstop => exact absurd h (hstop v)

variable [DecidableEq ν]

/-- The forest is sound, and a term that is no variable is like its representative. -/
structure Sound (u : Unifier ν) : Prop where
  forest : u.forest.Sound
  shape : ∀ t : Term ν, t.isVar = true ∨ t = u.find t ∨ t.Alike (u.find t)

/-- Two terms are in one class. -/
def Same (u : Unifier ν) (s t : Term ν) : Prop := u.find s = u.find t

variable {u v w : Unifier ν} {s t a b lhs rhs : Term ν}

theorem Sound.find_find (hu : u.Sound) (t : Term ν) : u.find (u.find t) = u.find t :=
  hu.forest.find_find t

/-- Terms of one class never conflict. -/
theorem Sound.not_conflict (hu : u.Sound) (h : u.Same s t) : ¬ s.Conflict t := by
  rintro ⟨hne, hs, ht, halike⟩
  have hs' := (hu.shape s).resolve_left (by rw [hs]; exact Bool.false_ne_true)
  have ht' := (hu.shape t).resolve_left (by rw [ht]; exact Bool.false_ne_true)
  unfold Same at h
  rcases hs' with hs' | hs' <;> rcases ht' with ht' | ht'
  · -- both represent their class, which is one class: they are equal
    exact hne (hs'.trans (h.trans ht'.symm))
  · -- otherwise they are alike, by way of the representative
    exact halike (by rw [hs', h]; exact ht'.symm)
  · exact halike (by rw [ht', ← h]; exact hs')
  · exact halike (hs'.trans (h ▸ ht'.symm))

theorem sound_empty : (empty : Unifier ν).Sound where
  forest := ⟨fun h => absurd rfl h, fun h => absurd rfl h⟩
  shape _ := Or.inr (Or.inl rfl)

/-- The second unifier has the classes of the first one, except that the classes of two
representatives are one. -/
structure Joins (u v : Unifier ν) (a b : Term ν) : Prop where
  sound : v.Sound
  find : ∃ child root, (child = a ∧ root = b ∨ child = b ∧ root = a) ∧
    ∀ t, v.find t = if u.find t = child then root else u.find t

/-- A class may move to another representative if its terms that are no variables are like that. -/
theorem Sound.shape_of_moved {child root : Term ν} (hu : u.Sound)
    (hfind : ∀ t, v.find t = if u.find t = child then root else u.find t)
    (hlike : child.isVar = false → child.Alike root) (t : Term ν) :
    t.isVar = true ∨ t = v.find t ∨ t.Alike (v.find t) := by
  rw [hfind]
  rcases hu.shape t with ht | ht
  · exact Or.inl ht
  by_cases htc : u.find t = child
  · -- a term of the moved class is like the new representative, by way of the old one
    rw [if_pos htc]
    rw [htc] at ht
    rcases ht with rfl | ht
    · cases hvar : t.isVar
      · exact Or.inr (Or.inr (hlike hvar))
      · exact Or.inl rfl
    · exact Or.inr (Or.inr (ht.trans (hlike ht.isVar)))
  · rw [if_neg htc]
    exact Or.inr ht

theorem Sound.union (hu : u.Sound) (hne : a ≠ b) (ha : u.find a = a) (hb : u.find b = b)
    (hmema : a ∈ u.forest.terms) (hmemb : b ∈ u.forest.terms)
    (hlike : a.isVar = false → b.isVar = false → a.Alike b) : u.Joins (u.union a b) a b := by
  obtain ⟨hends, -, -, hvar⟩ := u.forest.merger_spec a b
  have htop : ∀ t, u.find t = t → u.forest.parent t = t := fun t ht => ht ▸ hu.forest.parent_find t
  have hlink := Forest.linkable_merger hne (htop a ha) (htop b hb) hmema hmemb
  have hfind : ∀ t, (u.union a b).find t =
      if u.find t = (u.forest.merger a b).1 then (u.forest.merger a b).2.1 else u.find t :=
    hlink.find_link hu.forest
  refine ⟨⟨hlink.sound hu.forest, hu.shape_of_moved hfind fun hchild => ?_⟩, _, _, hends, hfind⟩
  have hroot := hvar hchild
  rcases hends with ⟨h₁, h₂⟩ | ⟨h₁, h₂⟩
  · rw [h₁] at hchild ⊢
    rw [h₂] at hroot ⊢
    exact hlike hchild hroot
  · rw [h₁] at hchild ⊢
    rw [h₂] at hroot ⊢
    exact (hlike hroot hchild).symm

theorem Joins.same_iff (h : u.Joins v a b) : v.Same s t ↔
    u.Same s t ∨ u.find s = a ∧ u.find t = b ∨ u.find s = b ∧ u.find t = a := by
  obtain ⟨child, root, hends, hfind⟩ := h.find
  unfold Same
  rw [hfind, hfind]
  rcases hends with ⟨rfl, rfl⟩ | ⟨rfl, rfl⟩ <;> grind

/-! ### One equation -/

/-- The second unifier has seen what the first one has, and the two sides of an equation. -/
def Sees (u v : Unifier ν) (lhs rhs : Term ν) : Prop :=
  ∀ t, t ∈ v.forest.terms ↔ t ∈ u.forest.terms ∨ t = lhs ∨ t = rhs

/-- What working on an equation does; `descend` works on equations between arguments. -/
inductive Turn (descend : List (Term ν × Term ν) → Unifier ν → Unifier ν × Verdict ν)
    (u : Unifier ν) (lhs rhs : Term ν) : Unifier ν × Verdict ν → Prop where
  /-- The sides are in one class already. -/
  | same {v : Unifier ν} (hv : v.Sound) (hfind : ∀ t, v.find t = u.find t)
      (hsame : u.Same lhs rhs) (hseen : u.Sees v lhs rhs) : Turn descend u lhs rhs (v, .unified)
  /-- The representatives of the sides conflict. -/
  | conflict {v : Unifier ν} (hv : v.Sound) (hfind : ∀ t, v.find t = u.find t)
      (hconflict : (u.find lhs).Conflict (u.find rhs)) (hseen : u.Sees v lhs rhs) :
      Turn descend u lhs rhs (v, .clash ⟨u.find lhs, u.find rhs⟩)
  /-- One of the classes consists of variables, and the classes are merged. -/
  | absorb {v : Unifier ν} (hjoin : u.Joins v (u.find lhs) (u.find rhs))
      (hne : ¬ u.Same lhs rhs)
      (hvar : (u.find lhs).isVar = true ∨ (u.find rhs).isVar = true) (hseen : u.Sees v lhs rhs) :
      Turn descend u lhs rhs (v, .unified)
  /-- The classes are merged, and the arguments of their representatives come next. -/
  | decompose {v : Unifier ν} {name : String} {ss ts : List (Term ν)}
      (hjoin : u.Joins v (u.find lhs) (u.find rhs)) (hne : ¬ u.Same lhs rhs)
      (hlhs : u.find lhs = .app name ss) (hrhs : u.find rhs = .app name ts)
      (hlen : ss.length = ts.length) (hseen : u.Sees v lhs rhs) :
      Turn descend u lhs rhs (descend (ss.zip ts) v)

theorem Sound.root (hu : u.Sound) (t : Term ν) :
    (u.root t).1.Sound ∧ (∀ s, s ∈ (u.root t).1.forest.terms ↔ s ∈ u.forest.terms ∨ s = t) ∧
      (∀ s, (u.root t).1.find s = u.find s) ∧ (u.root t).2 = u.find t := by
  obtain ⟨hsound, hterms, hfind⟩ := hu.forest.root t
  refine ⟨⟨hsound, fun s => ?_⟩, hterms, hfind, hu.forest.root_snd t⟩
  rw [show (u.root t).1.find s = u.find s from hfind s]
  exact hu.shape s

/-- Both sides of an equation are looked up, which keeps the classes. -/
theorem Sound.root_root (hu : u.Sound) (lhs rhs : Term ν) :
    let v := ((u.root lhs).1.root rhs).1
    v.Sound ∧ (∀ t, v.find t = u.find t) ∧ u.find lhs ∈ v.forest.terms ∧
      u.find rhs ∈ v.forest.terms ∧ u.Sees v lhs rhs := by
  obtain ⟨hu₁, hterms₁, hfind₁, -⟩ := hu.root lhs
  obtain ⟨hu₂, hterms₂, hfind₂, -⟩ := hu₁.root rhs
  have hfind : ∀ t, ((u.root lhs).1.root rhs).1.find t = u.find t :=
    fun t => (hfind₂ t).trans (hfind₁ t)
  have hlhs : lhs ∈ ((u.root lhs).1.root rhs).1.forest.terms :=
    (hterms₂ lhs).mpr (Or.inl ((hterms₁ lhs).mpr (Or.inr rfl)))
  have hrhs : rhs ∈ ((u.root lhs).1.root rhs).1.forest.terms := (hterms₂ rhs).mpr (Or.inr rfl)
  refine ⟨hu₂, hfind, ?_, ?_, fun t => by rw [hterms₂, hterms₁, or_assoc]⟩
  · rw [← hfind]
    exact hu₂.forest.find_mem hlhs
  · rw [← hfind]
    exact hu₂.forest.find_mem hrhs

/-- A merge sees no new terms. -/
theorem Sees.union (h : u.Sees v lhs rhs) (a b : Term ν) : u.Sees (v.union a b) lhs rhs := by
  intro t
  have hterms : (v.union a b).forest.terms = v.forest.terms :=
    (Forest.terms_modify ..).trans (Forest.terms_modify ..)
  rw [hterms]
  exact h t

/-- Merging the representatives after they have been looked up merges the classes. -/
theorem Sound.joins_union (hu : u.Sound) (hv : v.Sound) (hfind : ∀ t, v.find t = u.find t)
    (hlhs : u.find lhs ∈ v.forest.terms) (hrhs : u.find rhs ∈ v.forest.terms)
    (hne : u.find lhs ≠ u.find rhs)
    (hlike : (u.find lhs).isVar = false → (u.find rhs).isVar = false →
      (u.find lhs).Alike (u.find rhs)) :
    u.Joins (v.union (u.find lhs) (u.find rhs)) (u.find lhs) (u.find rhs) := by
  have hrep : ∀ t, v.find (u.find t) = u.find t := fun t => by rw [hfind, hu.find_find]
  obtain ⟨hsound, hjoined⟩ := hv.union hne (hrep lhs) (hrep rhs) hlhs hrhs hlike
  simp only [hfind] at hjoined
  exact ⟨hsound, hjoined⟩

/-- The cases of an equation are those of `Turn`. -/
theorem turn_unifyWithin (hu : u.Sound) (depth : Nat) (lhs rhs : Term ν) :
    Turn (unifyEach (unifyWithin depth)) u lhs rhs (u.unifyWithin (depth + 1) lhs rhs) := by
  obtain ⟨hu₁, -, hfind₁, hl⟩ := hu.root lhs
  obtain ⟨-, -, -, hr⟩ := hu₁.root rhs
  obtain ⟨hv, hfind, hmeml, hmemr, hseen⟩ := hu.root_root lhs rhs
  rw [unifyWithin]
  dsimp only
  rw [hl, hr, hfind₁]
  generalize ((u.root lhs).1.root rhs).1 = v at *
  have hjoin := hu.joins_union hv hfind hmeml hmemr
  by_cases hsame : u.find lhs = u.find rhs
  · -- one class already
    rw [if_pos hsame]
    exact .same hv hfind hsame hseen
  · rw [if_neg hsame]
    split
    · -- two applications
      next name ss name' ts hlhs hrhs =>
      have hlike : (u.find lhs).Alike (u.find rhs) ↔ name = name' ∧ ss.length = ts.length := by
        rw [hlhs, hrhs, Term.alike_app]
      split
      · -- same constructor and arity: merge the classes, then go on with the arguments
        next h =>
        obtain ⟨rfl, hlen⟩ := h
        exact .decompose (hjoin hsame fun _ _ => hlike.mpr ⟨rfl, hlen⟩) hsame hlhs hrhs hlen
          (hseen.union _ _)
      · -- another constructor or arity: nothing is merged
        next h =>
        refine .conflict ⟨hv.forest, hv.shape⟩ hfind
          ⟨hsame, ?_, ?_, fun hl => h (hlike.mp hl)⟩ hseen
        · rw [hlhs]; rfl
        · rw [hrhs]; rfl
    · -- a variable on the left
      next x hlhs =>
      have hvar : (u.find lhs).isVar = true := by rw [hlhs]; rfl
      exact .absorb (hjoin hsame fun h => by rw [hvar] at h; cases h) hsame (Or.inl hvar)
        (hseen.union _ _)
    · -- a variable on the right
      next x hrhs _ =>
      have hvar : (u.find rhs).isVar = true := by rw [hrhs]; rfl
      exact .absorb (hjoin hsame fun _ h => by rw [hvar] at h; cases h) hsame (Or.inr hvar)
        (hseen.union _ _)
    · -- no variable, and a binder on one side at least
      next hlhs hrhs happ =>
      refine .conflict ⟨hv.forest, hv.shape⟩ hfind ⟨hsame, ?_, ?_, ?_⟩ hseen
      · exact Term.isVar_eq_false hlhs
      · exact Term.isVar_eq_false hrhs
      · rintro ⟨name, ss, ts, hs, ht, -⟩
        exact happ name ss name ts hs ht

theorem turn_unify (hu : u.Sound) (lhs rhs : Term ν) :
    ∃ depth, Turn (unifyEach (unifyWithin depth)) u lhs rhs (u.unify lhs rhs) :=
  ⟨_, turn_unifyWithin hu _ lhs rhs⟩

/-! ### Classes only grow -/

/-- Terms in one class of the first unifier are in one class of the second. -/
structure Extends (u v : Unifier ν) : Prop where
  sound : v.Sound
  mono : ∀ s t, u.Same s t → v.Same s t

theorem Sound.extends_self (hu : u.Sound) : u.Extends u := ⟨hu, fun _ _ h => h⟩

theorem Extends.trans (huv : u.Extends v) (hvw : v.Extends w) : u.Extends w :=
  ⟨hvw.sound, fun s t h => hvw.mono s t (huv.mono s t h)⟩

theorem extends_of_find_eq (hv : v.Sound) (hfind : ∀ t, v.find t = u.find t) : u.Extends v := by
  refine ⟨hv, fun s t h => ?_⟩
  rwa [Same, hfind, hfind]

theorem Joins.extends {a b : Term ν} (h : u.Joins v a b) : u.Extends v :=
  ⟨h.sound, fun _ _ hst => h.same_iff.mpr (Or.inl hst)⟩

theorem unifyEach_extends {unify : Unifier ν → Term ν → Term ν → Unifier ν × Verdict ν}
    (h : ∀ {v : Unifier ν} {lhs rhs}, v.Sound → v.Extends (unify v lhs rhs).1) (hu : u.Sound)
    (eqs : List (Term ν × Term ν)) : u.Extends (unifyEach unify eqs u).1 :=
  (unifyEach_invariant (P := u.Extends) (Q := fun _ => True) trivial
    (fun _ _ _ hv => ⟨hv.trans (h hv.sound), trivial⟩) hu.extends_self).1

/-- Whether an equation is accepted or not, the classes only grow. -/
theorem unifyWithin_extends : ∀ (depth : Nat) {u : Unifier ν} {lhs rhs : Term ν}, u.Sound →
    u.Extends (u.unifyWithin depth lhs rhs).1
  | 0, _, _, _, hu => hu.extends_self
  | depth + 1, u, lhs, rhs, hu => by
      have hturn := turn_unifyWithin hu depth lhs rhs
      generalize u.unifyWithin (depth + 1) lhs rhs = result at hturn
      cases hturn with
      | same hv hfind => exact extends_of_find_eq hv hfind
      | conflict hv hfind => exact extends_of_find_eq hv hfind
      | absorb hjoin => exact hjoin.extends
      | decompose hjoin =>
        exact hjoin.extends.trans (unifyEach_extends (unifyWithin_extends depth) hjoin.sound _)

theorem unify_extends (hu : u.Sound) (lhs rhs : Term ν) : u.Extends (u.unify lhs rhs).1 :=
  unifyWithin_extends _ hu

end Unifier

end StaticAnalysis
