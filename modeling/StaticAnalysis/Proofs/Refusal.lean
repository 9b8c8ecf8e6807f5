import StaticAnalysis.Proofs.UnificationClosure

/-!
Refused equations. An equation between applications merges their classes before it goes on to the
arguments. A clash in there stops it with some merges made and the other arguments not looked at,
and nothing is undone.

Main statements: every merge that was made is a consequence of the equation, and the clash is
between two representatives that the equation forces to be equal. A refused equation is refused
again, now or later, if and only if the clash was between the representatives of its own sides: a
clash further inside leaves both sides in one class. The two terms that clash are refused ever after.
-/

namespace StaticAnalysis.Unifier

variable {ν : Type} [DecidableEq ν] {u v : Unifier ν} {lhs rhs : Term ν} {c : Clash ν}
  {eqs : List (Term ν × Term ν)}

/-! ### What a clash is about -/

/-- If there is a clash, it is between two representatives. -/
def ClashOfRoots (result : Unifier ν × Verdict ν) : Prop :=
  ∀ c, result.2 = .clash c → result.1.find c.left = c.left ∧ result.1.find c.right = c.right

theorem unifyWithin_clashOfRoots : ∀ (depth : Nat) {u : Unifier ν} {lhs rhs : Term ν}, u.Sound →
    ClashOfRoots (u.unifyWithin depth lhs rhs)
  | 0, _, _, _, _ => nofun
  | depth + 1, u, lhs, rhs, hu => by
      have hturn := turn_unifyWithin hu depth lhs rhs
      generalize u.unifyWithin (depth + 1) lhs rhs = result at hturn
      cases hturn with
      | same => exact nofun
      | conflict hv hfind =>
        rintro c ⟨⟩
        exact ⟨(hfind _).trans (hu.find_find lhs), (hfind _).trans (hu.find_find rhs)⟩
      | absorb => exact nofun
      | decompose hjoin =>
        -- arguments before the clash have changed the classes, those behind it are not looked at
        refine unifyEach_outcome (P := Sound) (Q := ClashOfRoots) (fun _ _ => nofun)
          (fun w p _ hw => ?_) hjoin.sound
        exact ⟨(unifyWithin_extends depth hw).sound, unifyWithin_clashOfRoots depth hw⟩

/-- Two terms are related by every decomposing relation that contains the classes of a unifier and
an equation. This is the least such relation. -/
def Consequence (u : Unifier ν) (lhs rhs s t : Term ν) : Prop :=
  ∀ ⦃R : Term ν → Term ν → Prop⦄, Term.Decomposing R → (∀ a b, u.find a = u.find b → R a b) →
    R lhs rhs → R s t

theorem decomposing_consequence (u : Unifier ν) (lhs rhs : Term ν) :
    Term.Decomposing (u.Consequence lhs rhs) where
  equiv := by
    refine ⟨fun t R hR _ _ => hR.equiv.refl t, fun h R hR hu hlr => ?_, fun h h' R hR hu hlr => ?_⟩
    · exact hR.equiv.symm (h hR hu hlr)
    · exact hR.equiv.trans (h hR hu hlr) (h' hR hu hlr)
  args := by
    intro name ss ts hlen h
    refine List.forall₂_iff_zip.mpr ⟨hlen, fun hmem R hR hu hlr => ?_⟩
    exact List.forall₂_zip (hR.args hlen (h hR hu hlr)) hmem

theorem Sound.respects_consequence (hu : u.Sound) (lhs rhs : Term ν) :
    u.Respects (u.Consequence lhs rhs) :=
  ⟨hu, fun s t hst _ _ hsame _ => hsame s t hst⟩

/-- What a refused equation merges, and what it says to clash, are consequences. -/
theorem Sound.clash_consequence (hu : u.Sound) (h : u.unify lhs rhs = (v, .clash c)) :
    (∀ s t, v.Same s t → u.Consequence lhs rhs s t) ∧ u.Consequence lhs rhs c.left c.right ∧
      c.left.Conflict c.right := by
  have hwithin := unifyWithin_respects (u.decomposing_consequence lhs rhs) (u.depthBound lhs rhs)
    (hu.respects_consequence lhs rhs) fun _ _ _ hlr => hlr
  rw [← unify, h] at hwithin
  exact ⟨hwithin.1.2, hwithin.2 c rfl⟩

/-- What a refused equation leaves behind. The clash is between two representatives that conflict
and that are equal by consequence. No class is split, and nothing is merged but by consequence. -/
theorem unify_clash_effect (h : (after eqs).unify lhs rhs = (v, .clash c)) :
    c.left.Conflict c.right ∧ v.find c.left = c.left ∧ v.find c.right = c.right ∧
      (after eqs).Consequence lhs rhs c.left c.right ∧
      (∀ s t, (after eqs).find s = (after eqs).find t → v.find s = v.find t) ∧
      ∀ s t, v.find s = v.find t → (after eqs).Consequence lhs rhs s t := by
  have hu := sound_after eqs
  obtain ⟨hmerged, hforced, hconflict⟩ := hu.clash_consequence h
  have hroots : ClashOfRoots ((after eqs).unify lhs rhs) := unifyWithin_clashOfRoots _ hu
  have hextends := unify_extends hu lhs rhs
  rw [h] at hroots hextends
  obtain ⟨hleft, hright⟩ := hroots c rfl
  exact ⟨hconflict, hleft, hright, hforced, hextends.mono, hmerged⟩

/-- An example: `x = g(y)` is known, and `x`, `k`, `z` should be `g(j)`, `h`, `w` in turn. -/
def halfway : List (Term Nat × Term Nat) :=
  [(.var (.free 0), .app "g" [.var (.free 1)])]

def halfwayLeft : Term Nat :=
  .app "triple" [.var (.free 0), .app "k" [], .var (.free 2)]

def halfwayRight : Term Nat :=
  .app "triple" [.app "g" [.app "j" []], .app "h" [], .var (.free 3)]

/-- From `x = g(j)` it follows that `y` is `j`, but nothing is said about `z` and `w`, which come
behind the clash of `k` and `h`. -/
theorem unify_halfway_clash_effect :
    ∃ v, (after halfway).unify halfwayLeft halfwayRight =
        (v, .clash ⟨.app "k" [], .app "h" []⟩) ∧
      v.find (.var (.free 1)) = .app "j" [] ∧ v.find (.var (.free 2)) ≠ v.find (.var (.free 3)) ∧
      (Term.app "k" [] : Term Nat).Conflict (.app "h" []) ∧
      v.find (.app "k" []) = .app "k" [] ∧ v.find (.app "h" []) = .app "h" [] ∧
      (after halfway).Consequence halfwayLeft halfwayRight (.app "k" []) (.app "h" []) ∧
      (after halfway).Consequence halfwayLeft halfwayRight (.var (.free 1)) (.app "j" []) ∧
      ∀ s t, (after halfway).find s = (after halfway).find t → v.find s = v.find t := by
  have hrun : (after halfway).unify halfwayLeft halfwayRight =
      (((after halfway).unify halfwayLeft halfwayRight).1, .clash ⟨.app "k" [], .app "h" []⟩) := by
    decide
  obtain ⟨hconflict, hleft, hright, hforced, hkept, hmerged⟩ := unify_clash_effect hrun
  exact ⟨_, hrun, by decide, by decide, hconflict, hleft, hright, hforced, hmerged _ _ (by decide),
    hkept⟩

/-! ### Refused again -/

/-- A clash is between the representatives of the two sides, or it is further inside and the sides
are in one class. -/
theorem Sound.clash_cases (hu : u.Sound) (h : u.unify lhs rhs = (v, .clash c)) :
    c = ⟨u.find lhs, u.find rhs⟩ ∨ (u.find lhs).Alike (u.find rhs) ∧ v.Same lhs rhs := by
  obtain ⟨depth, hturn⟩ := turn_unify hu lhs rhs
  rw [h] at hturn
  generalize hresult : (v, Verdict.clash c) = result at hturn
  cases hturn with
  | same => cases hresult
  | conflict =>
    cases hresult
    exact Or.inl rfl
  | absorb => cases hresult
  | decompose hjoin _ hlhs hrhs hlen =>
    refine Or.inr ⟨⟨_, _, _, hlhs, hrhs, hlen⟩, ?_⟩
    obtain rfl : v = _ := congrArg Prod.fst hresult
    refine Extends.mono (unifyEach_extends (unifyWithin_extends depth) hjoin.sound _) _ _ ?_
    exact hjoin.same_iff.mpr (Or.inr (Or.inl ⟨rfl, rfl⟩))

/-- An equation within one class is accepted. -/
theorem Sound.unify_of_same (hu : u.Sound) (h : u.Same lhs rhs) :
    (u.unify lhs rhs).2 = .unified := by
  obtain ⟨depth, hturn⟩ := turn_unify hu lhs rhs
  generalize u.unify lhs rhs = result at hturn
  cases hturn with
  | same => rfl
  | conflict _ _ hconflict => exact absurd h hconflict.1
  | absorb => rfl
  | decompose _ hne => exact absurd h hne

/-- An equation between the classes of conflicting terms is refused. -/
theorem Sound.exists_clash {s t : Term ν} (hu : u.Sound) (hs : u.Same lhs s) (ht : u.Same rhs t)
    (hst : s.Conflict t) : ∃ d, (u.unify lhs rhs).2 = .clash d := by
  cases hverdict : (u.unify lhs rhs).2 with
  | clash d => exact ⟨d, rfl⟩
  | exhausted => exact absurd hverdict (unify_ne_exhausted hu lhs rhs)
  | unified =>
    have hgains : u.Gains _ [(lhs, rhs)] := unifyWithin_gains _ hu (Prod.ext rfl hverdict)
    have hsides := hgains.holds (lhs, rhs) (List.mem_singleton.mpr rfl)
    refine absurd hst (hgains.sound.not_conflict ?_)
    exact ((hgains.mono _ _ hs).symm.trans hsides).trans (hgains.mono _ _ ht)

/-- A refused equation is refused again after any further equations if and only if the clash was
between the representatives of its two sides; otherwise it is accepted then. An equation between the
two terms that clashed is refused in any case. -/
theorem unify_again_refused_iff (h : ((after eqs).unify lhs rhs).2 = .clash c)
    (more : List (Term ν × Term ν)) :
    ((∃ d, ((after (eqs ++ (lhs, rhs) :: more)).unify lhs rhs).2 = .clash d) ↔
      c = ⟨(after eqs).find lhs, (after eqs).find rhs⟩) ∧
    (c ≠ ⟨(after eqs).find lhs, (after eqs).find rhs⟩ →
      ((after (eqs ++ (lhs, rhs) :: more)).unify lhs rhs).2 = .unified) ∧
    ∃ d, ((after (eqs ++ (lhs, rhs) :: more)).unify c.left c.right).2 = .clash d := by
  have hu := sound_after eqs
  have hrun : (after eqs).unify lhs rhs = (after (eqs ++ [(lhs, rhs)]), .clash c) :=
    Prod.ext (after_concat eqs (lhs, rhs)).symm h
  obtain ⟨-, -, hconflict⟩ := hu.clash_consequence hrun
  rw [List.append_cons]
  have hlater := after_extends (eqs ++ [(lhs, rhs)]) more
  generalize after (eqs ++ [(lhs, rhs)] ++ more) = w at hlater ⊢
  have hagain : ∃ d, (w.unify c.left c.right).2 = .clash d :=
    hlater.sound.exists_clash rfl rfl hconflict
  rcases hu.clash_cases hrun with rfl | ⟨halike, hsame⟩
  · -- the representatives themselves clashed: they stay in conflict
    have hfrom := (after_extends eqs [(lhs, rhs)]).trans hlater
    refine ⟨iff_of_true ?_ rfl, fun hne => absurd rfl hne, hagain⟩
    exact hlater.sound.exists_clash (hfrom.mono _ _ (hu.same_find lhs))
      (hfrom.mono _ _ (hu.same_find rhs)) hconflict
  · -- the clash was among arguments: the two sides are in one class by then
    have haccepted := hlater.sound.unify_of_same (hlater.mono _ _ hsame)
    refine ⟨iff_of_false ?_ ?_, fun _ => haccepted, hagain⟩
    · rintro ⟨d, hd⟩
      rw [haccepted] at hd
      cases hd
    · rintro rfl
      exact hconflict.2.2.2 halike

/-- The clash of `k` and `h` is inside the triples, so these are in one class ever after; the clash
of `g(y)` and `h` is at the top. -/
theorem unify_again_halfway :
    ((after halfway).unify halfwayLeft halfwayRight).2 = .clash ⟨.app "k" [], .app "h" []⟩ ∧
      (∀ more, ((after (halfway ++ (halfwayLeft, halfwayRight) :: more)).unify halfwayLeft
          halfwayRight).2 = .unified ∧
        ∃ d, ((after (halfway ++ (halfwayLeft, halfwayRight) :: more)).unify (.app "k" [])
          (.app "h" [])).2 = .clash d) ∧
      ((after halfway).unify (.var (.free 0)) (.app "h" [])).2 =
        .clash ⟨.app "g" [.var (.free 1)], .app "h" []⟩ ∧
      ∀ more, ∃ d, ((after (halfway ++ (.var (.free 0), .app "h" []) :: more)).unify
        (.var (.free 0)) (.app "h" [])).2 = .clash d := by
  have hinside : ((after halfway).unify halfwayLeft halfwayRight).2 =
      .clash ⟨.app "k" [], .app "h" []⟩ := by decide
  have htop : ((after halfway).unify (.var (.free 0)) (.app "h" [])).2 =
      .clash ⟨.app "g" [.var (.free 1)], .app "h" []⟩ := by decide
  refine ⟨hinside, fun more => ?_, htop, fun more => ?_⟩
  · obtain ⟨-, haccepted, hpair⟩ := unify_again_refused_iff hinside more
    exact ⟨haccepted (by decide), hpair⟩
  · exact (unify_again_refused_iff htop more).1.mpr (by decide)

/-- Not every refused equation is refused again: `f(k) = f(h)` is accepted the second time. -/
theorem unify_again_accepted :
    ((after []).unify (.app "f" [.app "k" []]) (.app "f" [.app "h" []] : Term Nat)).2 =
        .clash ⟨.app "k" [], .app "h" []⟩ ∧
      ((after [(.app "f" [.app "k" []], .app "f" [.app "h" []])]).unify (.app "f" [.app "k" []])
        (.app "f" [.app "h" []] : Term Nat)).2 = .unified := by
  decide

end StaticAnalysis.Unifier
