import StaticAnalysis.Proofs.UnificationDepth

/-!
The classes of a unifier are the unification closure of its equations: the least equivalence that
contains them and that equal applications pass on to their arguments. An equation is refused if
and only if the closure with it relates two conflicting terms.

An equation between applications is merged before its arguments are worked on. In between, the
classes are closed only up to the argument equations that are still to come.
-/

namespace StaticAnalysis

variable {ν : Type}

theorem forall₂_trans {α : Type} {R : α → α → Prop} (hR : Equivalence R) :
    ∀ {as bs cs : List α}, List.Forall₂ R as bs → List.Forall₂ R bs cs → List.Forall₂ R as cs
  | [], _, _, .nil, .nil => .nil
  | _ :: _, _, _, .cons hab has, .cons hbc hbs => .cons (hR.trans hab hbc) (forall₂_trans hR has hbs)

theorem forall₂_symm {α : Type} {R : α → α → Prop} (hR : Equivalence R) {as bs : List α}
    (h : List.Forall₂ R as bs) : List.Forall₂ R bs as :=
  (h.imp fun _ _ => hR.symm).flip

namespace Term

/-- An equivalence of terms that equal applications pass on to their arguments. -/
structure Decomposing (R : Term ν → Term ν → Prop) : Prop where
  equiv : Equivalence R
  args : ∀ {name ss ts}, ss.length = ts.length → R (.app name ss) (.app name ts) →
    List.Forall₂ R ss ts

/-- Two terms are equal because of some equations, the laws of equality and the decomposition of
applications. A binder is taken as a whole. -/
inductive Forced (eqs : List (Term ν × Term ν)) : Term ν → Term ν → Prop where
  | equation {s t : Term ν} (h : (s, t) ∈ eqs) : Forced eqs s t
  | refl (t : Term ν) : Forced eqs t t
  | symm {s t : Term ν} (h : Forced eqs s t) : Forced eqs t s
  | trans {r s t : Term ν} (h : Forced eqs r s) (h' : Forced eqs s t) : Forced eqs r t
  | argument {name : String} {ss ts : List (Term ν)} {s t : Term ν} (hlen : ss.length = ts.length)
      (h : Forced eqs (.app name ss) (.app name ts)) (hmem : (s, t) ∈ ss.zip ts) : Forced eqs s t

variable {R : Term ν → Term ν → Prop} {eqs eqs' : List (Term ν × Term ν)} {s t : Term ν}

theorem Forced.decomposing (eqs : List (Term ν × Term ν)) : Decomposing (Forced eqs) where
  equiv := ⟨.refl, .symm, .trans⟩
  args hlen h := List.forall₂_iff_zip.mpr ⟨hlen, fun hmem => .argument hlen h hmem⟩

/-- The closure is the least decomposing relation that contains the equations. -/
theorem Forced.least (hR : Decomposing R) (h : ∀ p ∈ eqs, R p.1 p.2) (hst : Forced eqs s t) :
    R s t := by
  induction hst with
  | equation hmem => exact h _ hmem
  | refl t => exact hR.equiv.refl t
  | symm _ ih => exact hR.equiv.symm ih
  | trans _ _ ih ih' => exact hR.equiv.trans ih ih'
  | argument hlen _ hmem ih => exact List.forall₂_zip (hR.args hlen ih) hmem

/-- The closure does not depend on the order of the equations or of their sides. -/
theorem Forced.of_swap (hswap : ∀ p ∈ eqs, p ∈ eqs' ∨ p.swap ∈ eqs') (h : Forced eqs s t) :
    Forced eqs' s t := by
  refine Forced.least (Forced.decomposing eqs') (fun p hp => ?_) h
  rcases hswap p hp with hp | hp
  · exact .equation hp
  · exact .symm (.equation hp)

end Term

namespace Unifier

variable [DecidableEq ν] {R : Term ν → Term ν → Prop} {u v w : Unifier ν} {lhs rhs : Term ν}

theorem same_equivalence (u : Unifier ν) : Equivalence u.Same :=
  ⟨fun _ => rfl, Eq.symm, Eq.trans⟩

theorem Sound.same_find (hu : u.Sound) (t : Term ν) : u.Same t (u.find t) := (hu.find_find t).symm

/-! ### No merge that is not forced -/

/-- The classes are within a relation. -/
def Respects (u : Unifier ν) (R : Term ν → Term ν → Prop) : Prop :=
  u.Sound ∧ ∀ s t, u.Same s t → R s t

theorem Respects.find (hu : u.Respects R) (hR : Equivalence R) (h : R lhs rhs) :
    R (u.find lhs) (u.find rhs) :=
  hR.trans (hR.symm (hu.2 _ _ (hu.1.same_find lhs))) (hR.trans h (hu.2 _ _ (hu.1.same_find rhs)))

theorem Respects.join (hu : u.Respects R) (hR : Equivalence R) (h : R lhs rhs)
    (hjoin : u.Joins v (u.find lhs) (u.find rhs)) : v.Respects R := by
  refine ⟨hjoin.sound, fun s t hst => ?_⟩
  have hmove : ∀ {s t a b}, R a b → u.find s = u.find a → u.find t = u.find b → R s t :=
    fun hab hs ht => hR.trans (hu.2 _ _ hs) (hR.trans hab (hR.symm (hu.2 _ _ ht)))
  rcases hjoin.same_iff.mp hst with hst | ⟨hs, ht⟩ | ⟨hs, ht⟩
  · exact hu.2 s t hst
  · exact hmove h hs ht
  · exact hmove (hR.symm h) hs ht

/-- A decomposing relation that contains the classes and an equation contains all classes that the
equation leads to, and the clash if there is one. -/
theorem unifyWithin_respects (hR : Term.Decomposing R) : ∀ (depth : Nat) {u : Unifier ν}
    {lhs rhs : Term ν}, u.Respects R → R lhs rhs → (u.unifyWithin depth lhs rhs).1.Respects R ∧
      ∀ c, (u.unifyWithin depth lhs rhs).2 = .clash c → R c.left c.right ∧ c.left.Conflict c.right
  | 0, _, _, _, hu, _ => ⟨hu, fun c hc => by cases hc⟩
  | depth + 1, u, lhs, rhs, hu, h => by
      have hturn := turn_unifyWithin hu.1 depth lhs rhs
      generalize u.unifyWithin (depth + 1) lhs rhs = result at hturn
      cases hturn with
      | same hv hfind hsame =>
        refine ⟨⟨hv, fun s t hst => hu.2 s t ?_⟩, fun c hc => by cases hc⟩
        rwa [Same, hfind, hfind] at hst
      | conflict hv hfind hconflict =>
        refine ⟨⟨hv, fun s t hst => hu.2 s t ?_⟩, ?_⟩
        · rwa [Same, hfind, hfind] at hst
        · rintro c ⟨⟩
          exact ⟨hu.find hR.equiv h, hconflict⟩
      | absorb hjoin hne hvar => exact ⟨hu.join hR.equiv h hjoin, fun c hc => by cases hc⟩
      | decompose hjoin hne hlhs hrhs hlen =>
        have happ := hu.find hR.equiv h
        rw [hlhs, hrhs] at happ
        refine unifyEach_invariant (P := fun v => v.Respects R)
          (Q := fun r => ∀ c, r = .clash c → R c.left c.right ∧ c.left.Conflict c.right)
          (fun c hc => by cases hc) (fun w p hp hw => ?_) (hu.join hR.equiv h hjoin)
        exact unifyWithin_respects hR depth hw (List.forall₂_zip (hR.args hlen happ) hp)

/-! ### No merge that is missing -/

/-- Equal applications have equal arguments, in every equivalence that contains the classes and
some further equations. -/
def ClosedUpTo (u : Unifier ν) (eqs : List (Term ν × Term ν)) : Prop :=
  ∀ ⦃R : Term ν → Term ν → Prop⦄, Equivalence R → (∀ s t, u.Same s t → R s t) →
    (∀ p ∈ eqs, R p.1 p.2) → ∀ ⦃name ss ts⦄, ss.length = ts.length →
    u.Same (.app name ss) (.app name ts) → List.Forall₂ R ss ts

/-- The second unifier has the classes of the first one and some equations, and it has worked these
off: it needs them no more to be closed. -/
structure Gains (u v : Unifier ν) (eqs : List (Term ν × Term ν)) : Prop where
  sound : v.Sound
  mono : ∀ s t, u.Same s t → v.Same s t
  holds : ∀ p ∈ eqs, v.Same p.1 p.2
  closed : ∀ {rest}, u.ClosedUpTo (eqs ++ rest) → v.ClosedUpTo rest

theorem Sound.gains_nil (hu : u.Sound) : u.Gains u [] :=
  ⟨hu, fun _ _ h => h, fun _ hp => absurd hp (List.not_mem_nil), fun h => h⟩

theorem Gains.append {eqs eqs' : List (Term ν × Term ν)} (h : u.Gains v eqs)
    (h' : v.Gains w eqs') : u.Gains w (eqs ++ eqs') where
  sound := h'.sound
  mono s t hst := h'.mono s t (h.mono s t hst)
  holds p hp := (List.mem_append.mp hp).elim (fun hp => h'.mono _ _ (h.holds p hp)) (h'.holds p)
  closed hu := h'.closed (h.closed (by rwa [List.append_assoc] at hu))

/-- Equations that hold already are not needed. -/
theorem ClosedUpTo.discharge {eqs rest : List (Term ν × Term ν)} (hu : u.ClosedUpTo (eqs ++ rest))
    (hholds : ∀ p ∈ eqs, u.Same p.1 p.2) : u.ClosedUpTo rest := by
  intro R hR hsame hrest
  refine hu hR hsame fun p hp => ?_
  rcases List.mem_append.mp hp with hp | hp
  · exact hsame _ _ (hholds p hp)
  · exact hrest p hp

/-- An application has a representative of its own kind. -/
theorem Sound.find_app (hu : u.Sound) (name : String) (ts : List (Term ν)) :
    ∃ ss, u.find (.app name ts) = .app name ss ∧ ts.length = ss.length := by
  rcases hu.shape (.app name ts) with h | h | ⟨name', ts', ss, ht, hs, hlen⟩
  · cases h
  · exact ⟨ts, h.symm, rfl⟩
  · obtain ⟨rfl, rfl⟩ := Term.app.inj ht
    exact ⟨ss, hs, hlen⟩

/-- Merging two classes leaves the arguments of their representatives to be merged. -/
theorem Joins.closedUpTo (hu : u.Sound) (hjoin : u.Joins v (u.find lhs) (u.find rhs))
    {eqs rest : List (Term ν × Term ν)}
    (hargs : ∀ {name ss ts}, u.find lhs = .app name ss → u.find rhs = .app name ts →
      ∀ p ∈ ss.zip ts, p ∈ eqs)
    (hclosed : u.ClosedUpTo rest) : v.ClosedUpTo (eqs ++ rest) := by
  intro R hR hsame hrest name as bs hlen happ
  have hsame' : ∀ s t, u.Same s t → R s t := fun s t h => hsame s t (hjoin.same_iff.mpr (Or.inl h))
  have hup : ∀ {cs : List (Term ν)} {t : Term ν}, u.find (.app name cs) = u.find t →
      ∃ ss, u.find t = .app name ss ∧ cs.length = ss.length ∧ List.Forall₂ R cs ss := by
    intro cs t hcs
    obtain ⟨ss, hss, hlen⟩ := hu.find_app name cs
    refine ⟨ss, hcs ▸ hss, hlen, ?_⟩
    exact hclosed hR hsame' (fun p hp => hrest p (List.mem_append_right _ hp)) hlen
      (hss ▸ hu.same_find _)
  have hacross : ∀ {ss ts : List (Term ν)}, u.find lhs = .app name ss → u.find rhs = .app name ts →
      ss.length = ts.length → List.Forall₂ R ss ts := by
    intro ss ts hss hts hlen
    refine List.forall₂_iff_zip.mpr ⟨hlen, fun {a b} hab => ?_⟩
    exact hrest (a, b) (List.mem_append_left _ (hargs hss hts _ hab))
  rcases hjoin.same_iff.mp happ with hold | ⟨has, hbs⟩ | ⟨has, hbs⟩
  · exact hclosed hR hsame' (fun p hp => hrest p (List.mem_append_right _ hp)) hlen hold
  · obtain ⟨ss, hss, hlens, hsR⟩ := hup has
    obtain ⟨ts, hts, hlent, htR⟩ := hup hbs
    have hmid := hacross hss hts (by omega)
    exact forall₂_trans hR hsR (forall₂_trans hR hmid (forall₂_symm hR htR))
  · obtain ⟨ss, hss, hlens, hsR⟩ := hup has
    obtain ⟨ts, hts, hlent, htR⟩ := hup hbs
    have hmid := forall₂_symm hR (hacross hts hss (by omega))
    exact forall₂_trans hR hsR (forall₂_trans hR hmid (forall₂_symm hR htR))

theorem gains_of_find_eq (hv : v.Sound) (hfind : ∀ t, v.find t = u.find t)
    (hsame : u.Same lhs rhs) : u.Gains v [(lhs, rhs)] := by
  have hiff : ∀ s t, v.Same s t ↔ u.Same s t := by
    intro s t
    rw [Same, hfind, hfind]
    exact Iff.rfl
  refine ⟨hv, fun s t hst => (hiff s t).mpr hst, fun p hp => ?_, fun {rest} hu => ?_⟩
  · rw [List.mem_singleton.mp hp]
    exact (hiff _ _).mpr hsame
  · have hrest : u.ClosedUpTo rest := hu.discharge fun p hp => List.mem_singleton.mp hp ▸ hsame
    intro R hR hR' hrest' name ss ts hlen happ
    exact hrest hR (fun s t h => hR' s t ((hiff s t).mpr h)) hrest' hlen ((hiff _ _).mp happ)

/-- After a merge it remains to work off the arguments of the two representatives. -/
theorem Joins.gains (hu : u.Sound) (hjoin : u.Joins v (u.find lhs) (u.find rhs))
    {eqs : List (Term ν × Term ν)}
    (hargs : ∀ {name ss ts}, u.find lhs = .app name ss → u.find rhs = .app name ts →
      ∀ p ∈ ss.zip ts, p ∈ eqs)
    (hgains : v.Gains w eqs) : u.Gains w [(lhs, rhs)] := by
  have hmono : ∀ s t, u.Same s t → w.Same s t :=
    fun s t hst => hgains.mono s t (hjoin.same_iff.mpr (Or.inl hst))
  have hsides : w.Same lhs rhs :=
    hgains.mono _ _ (hjoin.same_iff.mpr (Or.inr (Or.inl ⟨rfl, rfl⟩)))
  refine ⟨hgains.sound, hmono, fun p hp => List.mem_singleton.mp hp ▸ hsides, fun h => ?_⟩
  exact (hgains.closed (hjoin.closedUpTo hu hargs h)).discharge
    fun p hp => List.mem_singleton.mp hp ▸ hsides

/-- What equations do to a unifier adds up when they are worked through one after the other. -/
structure AddsUp (Does : Unifier ν → Unifier ν → List (Term ν × Term ν) → Prop) : Prop where
  sound : ∀ {u v eqs}, Does u v eqs → v.Sound
  nil : ∀ {u}, u.Sound → Does u u []
  append : ∀ {u v w eqs eqs'}, Does u v eqs → Does v w eqs' → Does u w (eqs ++ eqs')

theorem AddsUp.unifyEach {Does : Unifier ν → Unifier ν → List (Term ν × Term ν) → Prop}
    {unify : Unifier ν → Term ν → Term ν → Unifier ν × Verdict ν} (hDoes : AddsUp Does)
    (h : ∀ {u v lhs rhs}, u.Sound → unify u lhs rhs = (v, .unified) → Does u v [(lhs, rhs)]) :
    ∀ {eqs : List (Term ν × Term ν)} {u v : Unifier ν}, u.Sound →
      unifyEach unify eqs u = (v, .unified) → Does u v eqs
  | [], u, v, hu, heq => by
      cases heq
      exact hDoes.nil hu
  | (s, t) :: rest, u, v, hu, heq => by
      rw [Unifier.unifyEach] at heq
      split at heq
      · next w hw =>
        have hfirst := h hu hw
        exact hDoes.append hfirst (hDoes.unifyEach h (hDoes.sound hfirst) heq)
      · next hstop =>
        exact absurd heq (hstop v)

theorem gains_addsUp : AddsUp (@Gains ν _) := ⟨Gains.sound, Sound.gains_nil, Gains.append⟩

/-- Equations that are worked off one by one are worked off together. -/
theorem unifyEach_gains {unify : Unifier ν → Term ν → Term ν → Unifier ν × Verdict ν}
    (h : ∀ {u v lhs rhs}, u.Sound → unify u lhs rhs = (v, .unified) → u.Gains v [(lhs, rhs)])
    {eqs : List (Term ν × Term ν)} {u v : Unifier ν} (hu : u.Sound)
    (heq : unifyEach unify eqs u = (v, .unified)) : u.Gains v eqs :=
  gains_addsUp.unifyEach h hu heq

theorem unifyWithin_gains : ∀ (depth : Nat) {u v : Unifier ν} {lhs rhs : Term ν}, u.Sound →
    u.unifyWithin depth lhs rhs = (v, .unified) → u.Gains v [(lhs, rhs)]
  | 0, _, _, _, _, _, h => by cases h
  | depth + 1, u, v, lhs, rhs, hu, h => by
      have hturn := turn_unifyWithin hu depth lhs rhs
      rw [h] at hturn
      generalize hresult : (v, Verdict.unified) = result at hturn
      cases hturn with
      | same hv hfind hsame =>
        cases hresult
        exact gains_of_find_eq hv hfind hsame
      | conflict => cases hresult
      | absorb hjoin hne hvar =>
        cases hresult
        refine hjoin.gains hu (fun hl hr => ?_) hjoin.sound.gains_nil
        rw [hl, hr] at hvar
        rcases hvar with hvar | hvar <;> cases hvar
      | decompose hjoin hne hlhs hrhs hlen =>
        refine hjoin.gains hu (fun hl hr p hp => ?_)
          (unifyEach_gains (unifyWithin_gains depth) hjoin.sound hresult.symm)
        rw [hlhs] at hl
        rw [hrhs] at hr
        obtain ⟨-, rfl⟩ := Term.app.inj hl
        obtain ⟨-, rfl⟩ := Term.app.inj hr
        exact hp

/-! ### The closure -/

section Closure

variable {eqs : List (Term ν × Term ν)} {s t : Term ν}

theorem respects_empty (hR : Equivalence R) : (empty : Unifier ν).Respects R :=
  ⟨sound_empty, fun s t hst => (show s = t from hst) ▸ hR.refl s⟩

/-- What is merged, and what is said to clash, is within every decomposing relation that contains
the equations. -/
theorem unifyEach_respects (hR : Term.Decomposing R) (h : ∀ p ∈ eqs, R p.1 p.2)
    (hu : u.Respects R) : (unifyEach unify eqs u).1.Respects R ∧
      (unifyEach unify eqs u).2 ≠ .exhausted ∧
      ∀ c, (unifyEach unify eqs u).2 = .clash c → R c.left c.right ∧ c.left.Conflict c.right := by
  refine unifyEach_invariant (P := fun v => v.Respects R) (Q := fun r => r ≠ .exhausted ∧
    ∀ c, r = .clash c → R c.left c.right ∧ c.left.Conflict c.right) ⟨nofun, nofun⟩ ?_ hu
  intro v p hp hv
  have hstep := unifyWithin_respects hR (v.depthBound p.1 p.2) hv (h p hp)
  exact ⟨hstep.1, unify_ne_exhausted hv.1 p.1 p.2, hstep.2⟩

/-- The classes after equations that were all accepted are passed on to arguments. -/
theorem decomposing_same (h : unifyEach unify eqs .empty = (u, .unified)) :
    Term.Decomposing u.Same := by
  have hgains := unifyEach_gains (unifyWithin_gains _) sound_empty h
  have hclosed : u.ClosedUpTo [] := by
    refine hgains.closed fun R hR _ _ name ss ts _ happ => ?_
    obtain ⟨-, rfl⟩ := Term.app.inj (show Term.app name ss = Term.app name ts from happ)
    exact List.forall₂_same.mpr fun t _ => hR.refl t
  refine ⟨u.same_equivalence, fun hlen happ => ?_⟩
  exact hclosed u.same_equivalence (fun _ _ h => h) nofun hlen happ

/-- They are the closure of the equations. -/
theorem same_iff_forced (h : unifyEach unify eqs .empty = (u, .unified)) :
    u.Same s t ↔ Term.Forced eqs s t := by
  constructor
  · have hrespects := unifyEach_respects (Term.Forced.decomposing eqs) (fun _ hp => .equation hp)
      (respects_empty (Term.Forced.decomposing eqs).equiv)
    rw [h] at hrespects
    exact hrespects.1.2 s t
  · exact Term.Forced.least (decomposing_same h)
      (unifyEach_gains (unifyWithin_gains _) sound_empty h).holds

/-- Equations are accepted if and only if nothing conflicts in their closure. -/
theorem unifyEach_unified_iff : (unifyEach unify eqs .empty).2 = .unified ↔
    ∀ s t, Term.Forced eqs s t → ¬ s.Conflict t := by
  have hclosure := Term.Forced.decomposing eqs
  obtain ⟨-, hdone, hclash⟩ := unifyEach_respects hclosure (fun _ hp => .equation hp)
    (respects_empty hclosure.equiv)
  constructor
  · intro h s t hst
    have hrun : unifyEach unify eqs .empty = ((unifyEach unify eqs .empty).1, .unified) :=
      Prod.ext rfl h
    have hgains := unifyEach_gains (unifyWithin_gains _) sound_empty hrun
    exact hgains.sound.not_conflict ((same_iff_forced hrun).mpr hst)
  · intro h
    cases hverdict : (unifyEach unify eqs .empty).2 with
    | unified => rfl
    | clash c => exact absurd (hclash c hverdict).2 (h _ _ (hclash c hverdict).1)
    | exhausted => exact absurd hverdict hdone

/-- After equations that were all accepted, two terms have the same representative if and only if
they are in the closure of the equations. A further equation is refused if and only if the closure
with it relates two conflicting terms. The equations in another order, and with their sides
exchanged, are accepted as well and lead to the same classes. -/
theorem find_eq_find_iff_forced (h : unifyEach unify eqs .empty = (u, .unified)) :
    (∀ s t, u.find s = u.find t ↔ Term.Forced eqs s t) ∧
      (∀ l r, (u.unify l r).2 = .unified ∨ ∃ c, (u.unify l r).2 = .clash c) ∧
      (∀ l r, (∃ c, (u.unify l r).2 = .clash c) ↔
        ∃ s t, Term.Forced (eqs ++ [(l, r)]) s t ∧ s.Conflict t) ∧
      ∀ eqs', (∀ p, p ∈ eqs' ∨ p.swap ∈ eqs' ↔ p ∈ eqs ∨ p.swap ∈ eqs) →
        ∃ v, unifyEach unify eqs' .empty = (v, .unified) ∧
          ∀ s t, v.find s = v.find t ↔ u.find s = u.find t := by
  have hsame := fun s t => same_iff_forced (s := s) (t := t) h
  have hsound := (unifyEach_gains (unifyWithin_gains _) sound_empty h).sound
  have hverdict : ∀ l r, (u.unify l r).2 = .unified ∨ ∃ c, (u.unify l r).2 = .clash c := by
    intro l r
    have hdone := unify_ne_exhausted hsound l r
    cases hv : (u.unify l r).2 with
    | unified => exact Or.inl rfl
    | clash c => exact Or.inr ⟨c, rfl⟩
    | exhausted => exact absurd hv hdone
  refine ⟨hsame, hverdict, fun l r => ?_, fun eqs' hswap => ?_⟩
  · -- a further equation is accepted if it forces no conflict
    have haccept : (u.unify l r).2 = .unified ↔
        ∀ s t, Term.Forced (eqs ++ [(l, r)]) s t → ¬ s.Conflict t := by
      rw [← unifyEach_concat h l r]
      exact unifyEach_unified_iff
    constructor
    · rintro ⟨c, hc⟩
      refine by_contra fun hnone => ?_
      rw [haccept.mpr fun s t hst hconflict => hnone ⟨s, t, hst, hconflict⟩] at hc
      cases hc
    · rintro ⟨s, t, hst, hconflict⟩
      exact (hverdict l r).resolve_left fun hv => haccept.mp hv s t hst hconflict
  · -- the same equations, in another order or turned around, force the same
    have hforced : ∀ s t, Term.Forced eqs' s t ↔ Term.Forced eqs s t := fun s t =>
      ⟨.of_swap fun p hp => (hswap p).mp (Or.inl hp),
        .of_swap fun p hp => (hswap p).mpr (Or.inl hp)⟩
    have haccept : (unifyEach unify eqs' .empty).2 = .unified := by
      refine unifyEach_unified_iff.mpr fun s t hst => ?_
      exact hsound.not_conflict ((hsame s t).mpr ((hforced s t).mp hst))
    have hrun : unifyEach unify eqs' .empty = ((unifyEach unify eqs' .empty).1, .unified) :=
      Prod.ext rfl haccept
    refine ⟨_, hrun, fun s t => ?_⟩
    exact (same_iff_forced hrun).trans ((hforced s t).trans (hsame s t).symm)

/-- An example: `f(x, y) = f(y, g(x))` forces `x`, `y` and `g(x)` to be equal. -/
def cyclic : List (Term Nat × Term Nat) :=
  let x : Term Nat := .var (.free 0)
  let y : Term Nat := .var (.free 1)
  [(.app "f" [x, y], .app "f" [y, .app "g" [x]])]

theorem find_cyclic_iff_forced :
    ∃ u, unifyEach unify cyclic .empty = (u, .unified) ∧
      Term.Forced cyclic (.app "g" [.var (.free 0)]) (.var (.free 1)) ∧
      ¬ Term.Forced cyclic (.app "g" [.var (.free 1)]) (.var (.free 1)) ∧
      (∃ s t, Term.Forced (cyclic ++ [(.var (.free 0), .mu 0 (.var (.free 1)))]) s t ∧
        s.Conflict t) ∧
      ∃ v, unifyEach unify (cyclic.map Prod.swap) .empty = (v, .unified) := by
  have hrun : unifyEach unify cyclic .empty =
      ((unifyEach unify cyclic .empty).1, .unified) := by decide
  obtain ⟨hsame, -, hrefused, hswap⟩ := find_eq_find_iff_forced hrun
  refine ⟨_, hrun, (hsame _ _).mp (by decide), fun h => ?_, (hrefused _ _).mp ?_, ?_⟩
  · exact absurd ((hsame _ _).mpr h) (by decide)
  · exact ⟨⟨.app "g" [.var (.free 0)], .mu 0 (.var (.free 1))⟩, by decide⟩
  · obtain ⟨v, hv, -⟩ := hswap (cyclic.map Prod.swap) fun ⟨s, t⟩ => by
      simp [or_comm]
    exact ⟨v, hv⟩

end Closure

/-! ### Equations that are received, accepted or not -/

section Received

variable {eqs : List (Term ν × Term ν)}

/-- The unifier that has received equations, whether they hold or not. -/
def after (eqs : List (Term ν × Term ν)) : Unifier ν :=
  eqs.foldl (fun u p => (u.unify p.1 p.2).1) .empty

theorem after_concat (eqs : List (Term ν × Term ν)) (p : Term ν × Term ν) :
    after (eqs ++ [p]) = ((after eqs).unify p.1 p.2).1 :=
  List.foldl_append ..

/-- What every equation keeps holds after all of them. -/
theorem after_invariant {P : Unifier ν → Prop} (hempty : P .empty)
    (hunify : ∀ u, ∀ p ∈ eqs, P u → P (u.unify p.1 p.2).1) : P (after eqs) :=
  List.foldlRecOn (motive := P) eqs _ hempty fun u hu p hp => hunify u p hp hu

theorem respects_after {R : Term ν → Term ν → Prop} (hR : Term.Decomposing R)
    (h : ∀ p ∈ eqs, R p.1 p.2) : (after eqs).Respects R :=
  after_invariant (P := fun u => u.Respects R) (respects_empty hR.equiv)
    fun _ p hp hu => (unifyWithin_respects hR _ hu (h p hp)).1

theorem sound_after (eqs : List (Term ν × Term ν)) : (after eqs).Sound :=
  after_invariant sound_empty fun _ p _ hu => (unify_extends hu p.1 p.2).sound

/-- Further equations keep the classes. -/
theorem after_extends (eqs more : List (Term ν × Term ν)) :
    (after eqs).Extends (after (eqs ++ more)) := by
  have happend : after (eqs ++ more) = more.foldl (fun u p => (u.unify p.1 p.2).1) (after eqs) :=
    List.foldl_append ..
  rw [happend]
  refine List.foldlRecOn (motive := (after eqs).Extends) more _ (sound_after eqs).extends_self ?_
  intro w hw p _
  exact hw.trans (unify_extends hw.sound p.1 p.2)

end Received

end Unifier

end StaticAnalysis
