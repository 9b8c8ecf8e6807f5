import StaticAnalysis.OperatorTable

/-!
Operator tables agree with their operators. An operand is looked up at its first position in the
domain, so it does not matter whether the domain repeats it: the row and the column of that position
were filled for the same element. A table has a row for every position and in every row a value for
every position, so there is something to find wherever a lookup goes.
-/

namespace StaticAnalysis.OperatorTable

variable {α : Type}

theorem cell_tabulate {domain : List α} {op : α → α → α}
    (i j : Fin (tabulate domain op).domain.length) :
    (tabulate domain op).cell i j =
      op ((tabulate domain op).domain.get i) ((tabulate domain op).domain.get j) := by
  simp only [cell, tabulate, List.get_eq_getElem, List.getElem_map]
  rfl

/-- The cell of two positions is inside the table. -/
theorem exists_row (t : OperatorTable α) (i j : Fin t.domain.length) :
    ∃ row, t.rows[i.val]? = some row ∧ row[j.val]? = some (t.cell i j) := by
  have hi : i.val < t.rows.length := Nat.lt_of_lt_of_eq i.isLt t.length_rows.symm
  have hj : j.val < (t.rows.get ⟨i, hi⟩).length :=
    Nat.lt_of_lt_of_eq j.isLt (t.length_of_mem_rows _ (List.get_mem ..)).symm
  exact ⟨t.rows.get ⟨i, hi⟩, List.getElem?_eq_getElem hi, List.getElem?_eq_getElem hj⟩

variable [DecidableEq α] [Describe α] {t : OperatorTable α} {x l r : α}

/-- The position of an operand is the first one at which it stands in the domain. -/
theorem position_eq_ok_iff {i : Fin t.domain.length} :
    t.position x = .ok i ↔ t.domain.get i = x ∧ ∀ j < i, t.domain.get j ≠ x := by
  refine Iff.trans ?_ List.finIdxOf?_eq_some_iff
  unfold position
  cases t.domain.finIdxOf? x with
  | none => simp
  | some i' => simp

theorem exists_position (hx : x ∈ t.domain) : ∃ i, t.position x = .ok i := by
  unfold position
  cases hi : t.domain.finIdxOf? x with
  | none => exact absurd hx (List.finIdxOf?_eq_none_iff.mp hi)
  | some i => exact ⟨i, rfl⟩

theorem position_of_not_mem (hx : x ∉ t.domain) :
    t.position x = .error (.outsideDomain (describe x)) := by
  rw [position, List.finIdxOf?_eq_none_iff.mpr hx]

/-- The left operand is looked up first. -/
theorem apply_of_left_not_mem (hl : l ∉ t.domain) :
    t.apply l r = .error (.outsideDomain (describe l)) := by
  rw [apply, position_of_not_mem hl]
  rfl

/-- Once the left operand is found, all depends on the right one. -/
theorem apply_of_position {i : Fin t.domain.length} (hi : t.position l = .ok i) :
    t.apply l r = (t.position r).map (t.cell i) := by
  rw [apply, hi]
  cases t.position r with
  | error fault => rfl
  | ok j => rfl

theorem apply_of_right_not_mem (hl : l ∈ t.domain) (hr : r ∉ t.domain) :
    t.apply l r = .error (.outsideDomain (describe r)) := by
  obtain ⟨i, hi⟩ := exists_position hl
  rw [apply_of_position hi, position_of_not_mem hr]
  rfl

/-- Looking up two operands of the domain gives the value that was tabulated for them. -/
theorem apply_tabulate {domain : List α} (op : α → α → α) {l r : α} (hl : l ∈ domain)
    (hr : r ∈ domain) : (tabulate domain op).apply l r = .ok (op l r) := by
  obtain ⟨i, hi⟩ := exists_position (t := tabulate domain op) hl
  obtain ⟨j, hj⟩ := exists_position (t := tabulate domain op) hr
  have hcell : (tabulate domain op).cell i j = op l r := by
    rw [cell_tabulate, (position_eq_ok_iff.mp hi).1, (position_eq_ok_iff.mp hj).1]
  rw [apply_of_position hi, hj, ← hcell]
  rfl

/-- A table agrees with its operator. Two operands of the domain have the operator's value; otherwise
the message names the left operand if that is outside the domain, and else the right one. Operands of
the domain are looked up at their first positions, where the table has a row and the row a value. -/
theorem apply_tabulate_agrees (domain : List α) (op : α → α → α) (l r : α) :
    ((tabulate domain op).apply l r).mapError Fault.message =
      (if l ∈ domain then
        if r ∈ domain then .ok (op l r)
        else .error (describe r ++ " is not in the table domain")
      else .error (describe l ++ " is not in the table domain")) ∧
    (l ∈ domain → r ∈ domain → ∃ (i j : Fin domain.length) (row : List α),
      (tabulate domain op).position l = .ok i ∧ (tabulate domain op).position r = .ok j ∧
      (domain.get i = l ∧ ∀ i' < i, domain.get i' ≠ l) ∧
      (domain.get j = r ∧ ∀ j' < j, domain.get j' ≠ r) ∧
      (tabulate domain op).rows[i.val]? = some row ∧ row[j.val]? = some (op l r)) := by
  constructor
  · -- the left operand is looked up first, so it is the one that a fault names
    by_cases hl : l ∈ domain
    · by_cases hr : r ∈ domain
      · rw [apply_tabulate op hl hr, if_pos hl, if_pos hr]
        rfl
      · rw [apply_of_right_not_mem (t := tabulate domain op) hl hr, if_pos hl, if_neg hr]
        rfl
    · rw [apply_of_left_not_mem (t := tabulate domain op) hl, if_neg hl]
      rfl
  · -- the value stands in the row and column of the first positions
    intro hl hr
    obtain ⟨i, hi⟩ := exists_position (t := tabulate domain op) hl
    obtain ⟨j, hj⟩ := exists_position (t := tabulate domain op) hr
    obtain ⟨row, hrow, hvalue⟩ := exists_row (tabulate domain op) i j
    have hfirst := position_eq_ok_iff.mp hi
    have hfirst' := position_eq_ok_iff.mp hj
    rw [cell_tabulate, hfirst.1, hfirst'.1] at hvalue
    exact ⟨i, j, row, hi, hj, hfirst, hfirst', hrow, hvalue⟩

/-- An example: the domain repeats an operand, and the operator is not commutative. -/
def differences : OperatorTable Int := tabulate [3, 1, 3] fun m n => m - n

theorem apply_differences_agrees :
    (differences.apply 1 3).mapError Fault.message = .ok (-2) ∧
      (differences.apply 3 5).mapError Fault.message = .error "5 is not in the table domain" ∧
      (differences.apply 7 5).mapError Fault.message = .error "7 is not in the table domain" ∧
      differences.position 1 = .ok ⟨1, by decide⟩ ∧ differences.position 3 = .ok ⟨0, by decide⟩ ∧
      ∃ row, differences.rows[1]? = some row ∧ row[0]? = some (-2) := by
  have hagrees := apply_tabulate_agrees [3, 1, 3] fun m n : Int => m - n
  obtain ⟨i, j, row, hi, hj, -, -, hrow, hvalue⟩ := (hagrees 1 3).2 (by decide) (by decide)
  obtain rfl : i = 1 := Except.ok.inj (hi.symm.trans rfl)
  obtain rfl : j = 0 := Except.ok.inj (hj.symm.trans rfl)
  exact ⟨(hagrees 1 3).1, (hagrees 3 5).1, (hagrees 7 5).1, hi, hj, row, hrow, hvalue⟩

end StaticAnalysis.OperatorTable
