import StaticAnalysis.Proofs.SignArithmetic

/-!
How the sign of an expression depends on the signs of its variables. Every operator is strict: an
operand without a value leaves the operation without one. Apart from that larger operands have a
larger value, but for one exception. A divisor that may be zero has no quotient at all, so a divisor
that is positive or negative in one environment and can be anything in a larger one takes the value
away.

Main statement: this is the only way in which a larger environment can have a smaller value.
-/

namespace StaticAnalysis

namespace SignOp

/-- Where an operation has no value: an operand has none, or the divisor may be zero. -/
theorem combine_eq_bottom_iff {op : SignOp} {l r : Flat Sign} :
    op.combine l r = .bottom ↔
      l = .bottom ∨ r = .bottom ∨ op = .div ∧ (r = .top ∨ r = .simple .zero) := by
  cases op <;> rcases l with _ | _ | (_ | _ | _) <;> rcases r with _ | _ | (_ | _ | _) <;> decide

/-- Operators are strict. -/
theorem operands_ne_bottom {op : SignOp} {l r : Flat Sign} (h : op.combine l r ≠ .bottom) :
    l ≠ .bottom ∧ r ≠ .bottom := by
  rw [Ne, combine_eq_bottom_iff, not_or, not_or] at h
  exact ⟨h.1, h.2.1⟩

/-- As long as there is a value, larger operands have a larger one. -/
theorem combine_below_of_ne_bottom {op : SignOp} {l l' r r' : Flat Sign}
    (hl : Sign.lattice.Below l l') (hr : Sign.lattice.Below r r')
    (hne : op.combine l' r' ≠ .bottom) :
    Sign.lattice.Below (op.combine l r) (op.combine l' r') := by
  by_cases hop : op = .div
  · subst hop
    rcases Flat.below_iff.mp hr with rfl | rfl | rfl
    · -- no divisor, no quotient
      rw [combine_bottom_right]
      exact Flat.lattice_lawful.bottom_below trivial
    · -- the same divisor
      exact div.combine_mono_left hl r
    · -- a divisor that may be anything gives no quotient, which was excluded
      exact absurd (combine_eq_bottom_iff.mpr (Or.inr (Or.inr ⟨rfl, Or.inl rfl⟩))) hne
  · exact combine_mono hop hl hr

end SignOp

namespace SignExpr

variable {κ : Type} {a b : κ → Flat Sign}

/-- The sign of an expression, worked out with the rules of the operators instead of their tables. -/
def sign (env : κ → Flat Sign) : SignExpr κ → Flat Sign
  | .const n => .simple (Sign.ofInt n)
  | .element s => s
  | .var name => env name
  | .binary op l r => op.combine (l.sign env) (r.sign env)

theorem eval_eq_sign (env : κ → Flat Sign) : ∀ e : SignExpr κ, e.eval env = .ok (e.sign env)
  | .const _ | .element _ | .var _ => rfl
  | .binary _ l r => eval_binary (eval_eq_sign env l) (eval_eq_sign env r)

/-- As long as an expression has a value in the larger environment, it is the larger one. -/
theorem sign_below_of_ne_bottom (hab : ∀ name, Sign.lattice.Below (a name) (b name)) :
    ∀ {e : SignExpr κ}, e.sign b ≠ .bottom → Sign.lattice.Below (e.sign a) (e.sign b)
  | .const _, _ | .element _, _ => Flat.lattice_lawful.below_refl trivial
  | .var name, _ => hab name
  | .binary op l r, hne => by
      obtain ⟨hl, hr⟩ := SignOp.operands_ne_bottom hne
      exact SignOp.combine_below_of_ne_bottom (sign_below_of_ne_bottom hab hl)
        (sign_below_of_ne_bottom hab hr) hne

/-- Somewhere in the expression there is a divisor that is positive or negative in the first
environment and can be anything in the second. -/
def BlursDivisor (a b : κ → Flat Sign) : SignExpr κ → Prop
  | .const _ | .element _ | .var _ => False
  | .binary op l r =>
    (op = .div ∧ (r.eval a = .ok (.simple .neg) ∨ r.eval a = .ok (.simple .pos)) ∧
      r.eval b = .ok .top) ∨ l.BlursDivisor a b ∨ r.BlursDivisor a b

/-- A quotient is lost when its divisor was positive or negative and can now be anything. -/
theorem divisor_lost_iff {l r r' : Flat Sign} (hne : SignOp.div.combine l r ≠ .bottom)
    (hr : Sign.lattice.Below r r') :
    (r' = .top ∨ r' = .simple .zero) ↔ (r = .simple .neg ∨ r = .simple .pos) ∧ r' = .top := by
  have hsign : r = .simple .neg ∨ r = .simple .pos := by
    rw [Ne, SignOp.combine_eq_bottom_iff] at hne
    rcases r with _ | _ | (_ | _ | _) <;> simp_all
  constructor
  · rintro (rfl | rfl)
    · exact ⟨hsign, rfl⟩
    · -- a sign does not become another one
      rcases hsign with rfl | rfl <;> simp [Sign.lattice, Flat.below_iff] at hr
  · exact fun h => Or.inl h.2

/-- What has a value in the smaller environment has none in the larger one if and only if a divisor
is lost on the way. -/
theorem sign_eq_bottom_iff (hab : ∀ name, Sign.lattice.Below (a name) (b name)) :
    ∀ {e : SignExpr κ}, e.sign a ≠ .bottom → (e.sign b = .bottom ↔ e.BlursDivisor a b)
  | .const _, _ => by simp [sign, BlursDivisor]
  | .element _, hne => by simpa [sign, BlursDivisor] using hne
  | .var name, hne => by
      have hb : b name ≠ .bottom :=
        Flat.lattice_lawful.ne_bottom_of_below trivial (hab name) hne
      simpa [sign, BlursDivisor] using hb
  | .binary op l r, hne => by
      obtain ⟨hl, hr⟩ := SignOp.operands_ne_bottom hne
      have ihr := sign_eq_bottom_iff hab hr
      simp only [sign, BlursDivisor, eval_eq_sign, Except.ok.injEq, SignOp.combine_eq_bottom_iff,
        sign_eq_bottom_iff hab hl, ihr]
      by_cases hblur : r.BlursDivisor a b
      · simp [hblur]
      · have hbelow := sign_below_of_ne_bottom hab (mt ihr.mp hblur)
        have hlost : op = .div ∧ (r.sign b = .top ∨ r.sign b = .simple .zero) ↔
            op = .div ∧ (r.sign a = .simple .neg ∨ r.sign a = .simple .pos) ∧ r.sign b = .top := by
          refine and_congr_right ?_
          rintro rfl
          exact divisor_lost_iff hne hbelow
        rw [hlost]
        exact or_assoc.symm.trans or_comm

theorem DivisionFree.not_blursDivisor : ∀ {e : SignExpr κ}, e.DivisionFree → ¬ e.BlursDivisor a b
  | .const _, _ | .element _, _ | .var _, _ => id
  | .binary _ _ _, ⟨hop, hl, hr⟩ => by
      rintro (⟨hdiv, -⟩ | hblur | hblur)
      · exact hop hdiv
      · exact hl.not_blursDivisor hblur
      · exact hr.not_blursDivisor hblur

/-- Let an expression be evaluated in an environment and in a larger one. The value in the larger
environment is the larger one if and only if there is none in the smaller environment, or no divisor
that is positive or negative there can be anything in the larger one. So it always is if the
expression divides nowhere, and where it is not there is no value in the larger environment. -/
theorem eval_below_iff (e : SignExpr κ) (hab : ∀ name, Sign.lattice.Below (a name) (b name)) :
    ∃ x y, e.eval a = .ok x ∧ e.eval b = .ok y ∧
      (Sign.lattice.Below x y ↔ x = .bottom ∨ ¬ e.BlursDivisor a b) ∧
      (e.DivisionFree → Sign.lattice.Below x y) ∧ (Sign.lattice.Below x y ∨ y = .bottom) := by
  have hL : Sign.lattice.Lawful fun _ => True := Flat.lattice_lawful
  have hbelow : Sign.lattice.Below (e.sign a) (e.sign b) ↔
      e.sign a = .bottom ∨ ¬ e.BlursDivisor a b := by
    by_cases ha : e.sign a = .bottom
    · -- the bottom is below everything
      simp only [ha, true_or, iff_true]
      exact hL.bottom_below trivial
    · -- a value that is lost is lost at a blurred divisor
      rw [← sign_eq_bottom_iff hab ha, or_iff_right ha]
      exact ⟨fun h => hL.ne_bottom_of_below trivial h ha, sign_below_of_ne_bottom hab⟩
  refine ⟨e.sign a, e.sign b, eval_eq_sign a e, eval_eq_sign b e, hbelow, fun hdiv => ?_, ?_⟩
  · exact hbelow.mpr (Or.inr hdiv.not_blursDivisor)
  · by_cases hb : e.sign b = .bottom
    · exact Or.inr hb
    · exact Or.inl (sign_below_of_ne_bottom hab hb)

/-- An example: `x / y - 1`. -/
def quotientLessOne : SignExpr Bool :=
  .binary .minus (.binary .div (.var true) (.var false)) (.const 1)

/-- A positive `x` and a negative `y`. -/
def knownOperands (name : Bool) : Flat Sign := .simple (bif name then .pos else .neg)

/-- Any `x` and a negative `y`. -/
def unknownDividend (name : Bool) : Flat Sign := bif name then .top else .simple .neg

/-- Any `x` and any `y`. -/
def unknownOperands (_ : Bool) : Flat Sign := .top

/-- Any dividend will do, as long as the divisor stays negative. -/
theorem eval_unknownDividend_below :
    (∀ name, Sign.lattice.Below (knownOperands name) (unknownDividend name)) ∧
      ¬ quotientLessOne.DivisionFree ∧
      ¬ quotientLessOne.BlursDivisor knownOperands unknownDividend ∧
      ∃ x y, quotientLessOne.eval knownOperands = .ok x ∧
        quotientLessOne.eval unknownDividend = .ok y ∧ x ≠ y ∧ Sign.lattice.Below x y := by
  have hab : ∀ name, Sign.lattice.Below (knownOperands name) (unknownDividend name) := by
    intro name
    exact Flat.below_iff.mpr (Or.inr (by cases name <;> decide))
  have hblur : ¬ quotientLessOne.BlursDivisor knownOperands unknownDividend := by
    simp [quotientLessOne, BlursDivisor, eval_eq_sign, sign, unknownDividend]
  obtain ⟨x, y, hx, hy, hbelow, -⟩ := eval_below_iff quotientLessOne hab
  have hne : x ≠ y := by
    rintro rfl
    exact absurd (hx.trans hy.symm) (by decide)
  exact ⟨hab, by simp [quotientLessOne, DivisionFree], hblur, x, y, hx, hy, hne,
    hbelow.mpr (Or.inr hblur)⟩

/-- Evaluation is not monotone: once the divisor can be anything, the value is gone. -/
theorem eval_unknownOperands_not_below :
    (∀ name, Sign.lattice.Below (knownOperands name) (unknownOperands name)) ∧
      quotientLessOne.eval knownOperands = .ok (.simple .neg) ∧
      quotientLessOne.eval unknownOperands = .ok .bottom ∧
      ¬ Sign.lattice.Below (.simple .neg) .bottom := by
  refine ⟨fun name => Flat.below_iff.mpr (Or.inr (Or.inr rfl)), by decide, by decide, ?_⟩
  rw [Sign.lattice, Flat.below_iff]
  decide

end SignExpr

end StaticAnalysis
