import Mathlib.Algebra.Order.Ring.Int
import StaticAnalysis.Proofs.Lattice
import StaticAnalysis.Proofs.OperatorTable
import StaticAnalysis.Sign.Expr

/-!
What sign arithmetic says about integers. An element of the sign lattice covers the integers it
stands for; the sign of an integer is the least element that covers it. Operators other than division
are monotone and right on the signs of integers, so they are right on all elements that cover their
operands, and an expression evaluates to an element that covers all the values it can have. That is
the bottom only if something in the expression stands for no integer at all.
-/

namespace StaticAnalysis

namespace Sign

theorem mem_elements (x : Flat Sign) : x ∈ elements := by
  match x with
  | .bottom | .top | .simple .neg | .simple .zero | .simple .pos => decide

theorem ofInt_eq_neg_iff {n : Int} : ofInt n = .neg ↔ n < 0 := by
  grind [ofInt]

theorem ofInt_eq_zero_iff {n : Int} : ofInt n = .zero ↔ n = 0 := by
  grind [ofInt]

theorem ofInt_eq_pos_iff {n : Int} : ofInt n = .pos ↔ 0 < n := by
  grind [ofInt]

end Sign

/-- The integers that an element of the sign lattice stands for. -/
def Flat.Covers : Flat Sign → Int → Prop
  | .bottom, _ => False
  | .top, _ => True
  | .simple s, n => Sign.ofInt n = s

/-- The sign of an integer is the least element that covers it. -/
theorem Flat.covers_iff {x : Flat Sign} {n : Int} :
    x.Covers n ↔ Sign.lattice.Below (.simple (Sign.ofInt n)) x := by
  rw [Sign.lattice, Flat.below_iff]
  cases x <;> simp [Covers]

/-- Larger elements cover more. -/
theorem Flat.Covers.mono {x y : Flat Sign} {n : Int} (hx : x.Covers n)
    (hxy : Sign.lattice.Below x y) : y.Covers n :=
  Flat.covers_iff.mpr <|
    Flat.lattice_lawful.below_trans trivial trivial trivial (Flat.covers_iff.mp hx) hxy

theorem Flat.exists_covers {x : Flat Sign} (hx : x ≠ .bottom) : ∃ n, x.Covers n := by
  match x with
  | .bottom => exact absurd rfl hx
  | .top => exact ⟨0, trivial⟩
  | .simple .neg => exact ⟨-1, Sign.ofInt_eq_neg_iff.mpr (by decide)⟩
  | .simple .zero => exact ⟨0, Sign.ofInt_eq_zero_iff.mpr rfl⟩
  | .simple .pos => exact ⟨1, Sign.ofInt_eq_pos_iff.mpr (by decide)⟩

namespace SignOp

/-- The integer value of an operator. Division is left out: sign arithmetic gives a divisor that may
be zero the same quotient as zero, which is none. -/
def value? : SignOp → Int → Int → Option Int
  | .plus, m, n => some (m + n)
  | .minus, m, n => some (m - n)
  | .times, m, n => some (m * n)
  | .div, _, _ => none
  | .equals, m, n => some (if m = n then 1 else 0)
  | .gt, m, n => some (if n < m then 1 else 0)

theorem exists_value? {op : SignOp} (hop : op ≠ .div) (m n : Int) :
    ∃ v, op.value? m n = some v := by
  cases op with
  | div => exact absurd rfl hop
  | plus | minus | times | equals | gt => exact ⟨_, rfl⟩

/-- The tables have an entry for all operands. -/
theorem apply_eq (op : SignOp) (l r : Flat Sign) : op.apply l r = .ok (op.combine l r) :=
  OperatorTable.apply_tabulate op.combine (Sign.mem_elements l) (Sign.mem_elements r)

theorem combine_bottom_left (op : SignOp) (r : Flat Sign) : op.combine .bottom r = .bottom := by
  cases op <;> simp [combine]

theorem combine_bottom_right (op : SignOp) (l : Flat Sign) : op.combine l .bottom = .bottom := by
  cases op <;> cases l <;> simp [combine]

/-- A left operand that can be anything has the largest value. -/
theorem combine_below_top_left (op : SignOp) (l r : Flat Sign) :
    Sign.lattice.Below (op.combine l r) (op.combine .top r) := by
  simp only [Sign.lattice, Flat.below_iff]
  cases op <;> rcases l with _ | _ | (_ | _ | _) <;> rcases r with _ | _ | (_ | _ | _) <;> decide

/-- Division apart, a right operand that can be anything has the largest value. -/
theorem combine_below_top_right {op : SignOp} (hop : op ≠ .div) (l r : Flat Sign) :
    Sign.lattice.Below (op.combine l r) (op.combine l .top) := by
  simp only [Sign.lattice, Flat.below_iff]
  cases op with
  | div => exact absurd rfl hop
  | _ => rcases l with _ | _ | (_ | _ | _) <;> rcases r with _ | _ | (_ | _ | _) <;> decide

/-- A larger left operand has a larger value. -/
theorem combine_mono_left (op : SignOp) {l l' : Flat Sign} (hl : Sign.lattice.Below l l')
    (r : Flat Sign) : Sign.lattice.Below (op.combine l r) (op.combine l' r) := by
  have hL : Sign.lattice.Lawful fun _ => True := Flat.lattice_lawful
  rcases Flat.below_iff.mp hl with rfl | rfl | rfl
  · rw [combine_bottom_left]
    exact hL.bottom_below trivial
  · exact hL.below_refl trivial
  · exact op.combine_below_top_left l r

/-- Division apart, larger operands have a larger value. -/
theorem combine_mono {op : SignOp} (hop : op ≠ .div) {l l' r r' : Flat Sign}
    (hl : Sign.lattice.Below l l') (hr : Sign.lattice.Below r r') :
    Sign.lattice.Below (op.combine l r) (op.combine l' r') := by
  have hL : Sign.lattice.Lawful fun _ => True := Flat.lattice_lawful
  -- one operand after the other: each is the bottom, stays as it is or can become anything
  refine hL.below_trans trivial trivial trivial (op.combine_mono_left hl r) ?_
  rcases Flat.below_iff.mp hr with rfl | rfl | rfl
  · rw [combine_bottom_right]
    exact hL.bottom_below trivial
  · exact hL.below_refl trivial
  · exact combine_below_top_right hop l' r

/-- The product of two signs is the sign of the product. -/
theorem combine_times_ofInt (m n : Int) :
    times.combine (.simple (Sign.ofInt m)) (.simple (Sign.ofInt n)) =
      .simple (Sign.ofInt (m * n)) := by
  cases hm : Sign.ofInt m <;> cases hn : Sign.ofInt n <;> symm <;> refine congrArg Flat.simple ?_ <;>
    simp only [Sign.ofInt_eq_neg_iff, Sign.ofInt_eq_zero_iff, Sign.ofInt_eq_pos_iff] at hm hn ⊢
  -- three cases with a negative left factor, three with zero, three with a positive one
  · exact mul_pos_of_neg_of_neg hm hn
  · rw [hn, mul_zero]
  · exact mul_neg_of_neg_of_pos hm hn
  · rw [hm, zero_mul]
  · rw [hm, zero_mul]
  · rw [hm, zero_mul]
  · exact mul_neg_of_pos_of_neg hm hn
  · rw [hn, mul_zero]
  · exact mul_pos hm hn

/-- On the signs of two integers an operator gives an element that covers its value. -/
theorem covers_combine_ofInt {op : SignOp} {m n v : Int} (hv : op.value? m n = some v) :
    (op.combine (.simple (Sign.ofInt m)) (.simple (Sign.ofInt n))).Covers v := by
  cases op with
  | times =>
    cases hv
    rw [combine_times_ofInt]
    rfl
  | div => cases hv
  | plus | minus | equals | gt =>
    cases hv
    -- the table entry is the top or a sign, and what is known about the operands gives the sign
    cases hm : Sign.ofInt m <;> cases hn : Sign.ofInt n <;>
      simp only [Sign.ofInt_eq_neg_iff, Sign.ofInt_eq_zero_iff, Sign.ofInt_eq_pos_iff] at hm hn <;>
      simp only [combine, Flat.Covers, Sign.ofInt_eq_neg_iff, Sign.ofInt_eq_zero_iff,
        Sign.ofInt_eq_pos_iff, reduceCtorEq, if_true, if_false] <;>
      grind

/-- Operands that are covered have a value that is covered. -/
theorem covers_combine {op : SignOp} {l r : Flat Sign} {m n v : Int} (hl : l.Covers m)
    (hr : r.Covers n) (hv : op.value? m n = some v) : (op.combine l r).Covers v := by
  have hop : op ≠ .div := by
    rintro rfl
    simp [value?] at hv
  exact (covers_combine_ofInt hv).mono
    (combine_mono hop (Flat.covers_iff.mp hl) (Flat.covers_iff.mp hr))

end SignOp

namespace SignExpr

variable {κ : Type}

/-- An integer is a value of an expression, if the variables have the values of a store. Nothing is
a value of an expression with a variable that has none. -/
inductive HasValue (store : κ → Option Int) : SignExpr κ → Int → Prop where
  | const (n : Int) : HasValue store (.const n) n
  | element {s : Flat Sign} {n : Int} (h : s.Covers n) : HasValue store (.element s) n
  | var {name : κ} {n : Int} (h : store name = some n) : HasValue store (.var name) n
  | binary {op : SignOp} {l r : SignExpr κ} {m n v : Int} (hl : HasValue store l m)
      (hr : HasValue store r n) (hv : op.value? m n = some v) : HasValue store (.binary op l r) v

/-- The signs cover all variables that have a value. -/
def CoversStore (env : κ → Flat Sign) (store : κ → Option Int) : Prop :=
  ∀ name n, store name = some n → (env name).Covers n

theorem eval_binary {env : κ → Flat Sign} {op : SignOp} {l r : SignExpr κ} {x y : Flat Sign}
    (hl : l.eval env = .ok x) (hr : r.eval env = .ok y) :
    (binary op l r).eval env = .ok (op.combine x y) := by
  rw [eval, hl, hr]
  exact op.apply_eq x y

/-- An expression evaluates to an element that covers all its values. -/
theorem HasValue.covers_eval {env : κ → Flat Sign} {store : κ → Option Int}
    (henv : CoversStore env store) {e : SignExpr κ} {n : Int} (h : e.HasValue store n) :
    ∃ s, e.eval env = .ok s ∧ s.Covers n := by
  induction h with
  | const n => exact ⟨_, rfl, rfl⟩
  | element h => exact ⟨_, rfl, h⟩
  | var h => exact ⟨_, rfl, henv _ _ h⟩
  | @binary op l r m n v _ _ hv ihl ihr =>
    obtain ⟨x, hx, hxm⟩ := ihl
    obtain ⟨y, hy, hyn⟩ := ihr
    exact ⟨op.combine x y, eval_binary hx hy, SignOp.covers_combine hxm hyn hv⟩

/-! ### All values of an expression -/

/-- The expression divides nowhere. -/
def DivisionFree : SignExpr κ → Prop
  | .const _ | .element _ | .var _ => True
  | .binary op l r => op ≠ .div ∧ l.DivisionFree ∧ r.DivisionFree

/-- Every element that is written in the expression stands for some integer. -/
def Populated : SignExpr κ → Prop
  | .const _ | .var _ => True
  | .element s => s ≠ .bottom
  | .binary _ l r => l.Populated ∧ r.Populated

/-- Evaluation looks up nothing that is not in the tables. -/
theorem eval_total (env : κ → Flat Sign) : ∀ e : SignExpr κ, ∃ s, e.eval env = .ok s
  | .const n => ⟨_, rfl⟩
  | .element s => ⟨s, rfl⟩
  | .var name => ⟨_, rfl⟩
  | .binary op l r => by
      obtain ⟨x, hx⟩ := eval_total env l
      obtain ⟨y, hy⟩ := eval_total env r
      exact ⟨op.combine x y, eval_binary hx hy⟩

/-- An element that stands for nothing leaves the whole expression without a value. -/
theorem eval_of_not_populated {env : κ → Flat Sign} : ∀ {e : SignExpr κ}, ¬ e.Populated →
    e.eval env = .ok .bottom
  | .const _, h => absurd trivial h
  | .var _, h => absurd trivial h
  | .element s, h => congrArg Except.ok (not_not.mp h)
  | .binary op l r, h => by
      obtain ⟨x, hx⟩ := eval_total env l
      obtain ⟨y, hy⟩ := eval_total env r
      refine (eval_binary hx hy).trans (congrArg Except.ok ?_)
      rcases not_and_or.mp h with hl | hr
      · rw [eval_of_not_populated hl] at hx
        cases hx
        exact op.combine_bottom_left y
      · rw [eval_of_not_populated hr] at hy
        cases hy
        exact op.combine_bottom_right x

theorem HasValue.populated {store : κ → Option Int} {e : SignExpr κ} {n : Int}
    (h : e.HasValue store n) : e.Populated := by
  induction h with
  | const => trivial
  | var => trivial
  | element h =>
    rintro rfl
    exact h
  | binary _ _ _ ihl ihr => exact ⟨ihl, ihr⟩

/-- If all variables have a value, so has an expression without division. -/
theorem exists_hasValue (ρ : κ → Int) : ∀ {e : SignExpr κ}, e.DivisionFree → e.Populated →
    ∃ n, e.HasValue (fun name => some (ρ name)) n
  | .const n, _, _ => ⟨n, .const n⟩
  | .var name, _, _ => ⟨ρ name, .var rfl⟩
  | .element s, _, hs => by
      obtain ⟨n, hn⟩ := Flat.exists_covers hs
      exact ⟨n, .element hn⟩
  | .binary op l r, hdiv, hpop => by
      obtain ⟨m, hm⟩ := exists_hasValue ρ hdiv.2.1 hpop.1
      obtain ⟨n, hn⟩ := exists_hasValue ρ hdiv.2.2 hpop.2
      obtain ⟨v, hv⟩ := SignOp.exists_value? hdiv.1 m n
      exact ⟨v, .binary hm hn hv⟩

/-- Let an expression without division be given, and integers for the variables that are covered by
signs for them. Evaluation with the signs ends without a fault, in an element that covers all values
that the expression has with these integers. It has a value, and the element is not the bottom, as
long as every element written in the expression stands for some integer. -/
theorem eval_sound (e : SignExpr κ) (hdiv : e.DivisionFree) (env : κ → Flat Sign) (ρ : κ → Int)
    (hρ : ∀ name, (env name).Covers (ρ name)) :
    ∃ s, e.eval env = .ok s ∧
      (∀ n, e.HasValue (fun name => some (ρ name)) n → s.Covers n ∧ s ≠ .bottom) ∧
      (s = .bottom ↔ ¬ e.Populated) ∧
      (e.Populated ↔ ∃ n, e.HasValue (fun name => some (ρ name)) n) := by
  have henv : CoversStore env fun name => some (ρ name) := by
    intro name n hn
    cases hn
    exact hρ name
  obtain ⟨s, hs⟩ := eval_total env e
  have hcovers : ∀ n, e.HasValue (fun name => some (ρ name)) n → s.Covers n := by
    intro n hn
    obtain ⟨s', hs', hcovers⟩ := hn.covers_eval henv
    rw [hs] at hs'
    cases hs'
    exact hcovers
  have hbottom : ∀ n, e.HasValue (fun name => some (ρ name)) n → s ≠ .bottom := by
    rintro n hn rfl
    exact hcovers n hn
  refine ⟨s, hs, fun n hn => ⟨hcovers n hn, hbottom n hn⟩, ⟨fun hs hpop => ?_, fun hpop => ?_⟩,
    exists_hasValue ρ hdiv, fun ⟨n, hn⟩ => hn.populated⟩
  · obtain ⟨n, hn⟩ := exists_hasValue ρ hdiv hpop
    exact hbottom n hn hs
  · rw [eval_of_not_populated hpop] at hs
    exact (Except.ok.inj hs).symm

/-- An example: `x * (-) + (y > -3)`. -/
def mixedExpr : SignExpr Bool :=
  .binary .plus (.binary .times (.var false) (.element (.simple .neg)))
    (.binary .gt (.var true) (.const (-3)))

/-- A negative `x` and a positive `y`. -/
def mixedSigns (name : Bool) : Flat Sign := bif name then .simple .pos else .simple .neg

def mixedValues (name : Bool) : Int := bif name then 4 else -2

theorem eval_mixedExpr_sound :
    mixedExpr.DivisionFree ∧ (∀ name, (mixedSigns name).Covers (mixedValues name)) ∧
      mixedExpr.HasValue (fun name => some (mixedValues name)) 11 ∧
      ∃ s, mixedExpr.eval mixedSigns = .ok s ∧ s.Covers 11 ∧ s ≠ .bottom := by
  have hdiv : mixedExpr.DivisionFree := by simp [mixedExpr, DivisionFree]
  have hcovers : ∀ name, (mixedSigns name).Covers (mixedValues name) := by
    rintro (_ | _)
    · exact Sign.ofInt_eq_neg_iff.mpr (by decide)
    · exact Sign.ofInt_eq_pos_iff.mpr (by decide)
  have hvalue : mixedExpr.HasValue (fun name => some (mixedValues name)) 11 := by
    have hx : (var false).HasValue (fun name => some (mixedValues name)) (-2) := .var rfl
    have hy : (var true).HasValue (fun name => some (mixedValues name)) 4 := .var rfl
    have hneg : (Flat.simple Sign.neg).Covers (-5) := Sign.ofInt_eq_neg_iff.mpr (by decide)
    exact .binary (.binary hx (.element hneg) rfl) (.binary hy (.const (-3)) rfl) rfl
  obtain ⟨s, hs, hall, -⟩ := eval_sound mixedExpr hdiv mixedSigns mixedValues hcovers
  exact ⟨hdiv, hcovers, hvalue, s, hs, hall 11 hvalue⟩

end SignExpr

end StaticAnalysis
