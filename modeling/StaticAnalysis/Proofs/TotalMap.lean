import StaticAnalysis.Lattice.Composite
import StaticAnalysis.Proofs.Lattice

/-!
Total maps as functions. A total map is determined by its default and by its values, properties of
all values are kept by updates, and the pointwise order of maps is the order at the default and at
every key, although only the explicit entries are compared.
-/

namespace StaticAnalysis

namespace TotalMap

variable {κ α : Type} [Ord κ] [Std.TransOrd κ] {m n : TotalMap κ α} {P : α → Prop}

theorem getElem?_entries (m : TotalMap κ α) (k : κ) :
    m.entries[k]? = some (m.get k) ∨ m.entries[k]? = none ∧ m.get k = m.default := by
  unfold get
  cases hk : m.entries[k]? with
  | none => exact Or.inr ⟨rfl, rfl⟩
  | some v => exact Or.inl rfl

/-- Without an explicit entry the value is the default. -/
theorem get_of_not_mem_support [Std.LawfulEqOrd κ] {k : κ} (h : k ∉ m.support) :
    m.get k = m.default := by
  rcases getElem?_entries m k with hk | ⟨-, hk⟩
  · refine absurd ?_ h
    rw [support, Std.ExtTreeMap.mem_keys, Std.ExtTreeMap.mem_iff_isSome_getElem?, hk]
    rfl
  · exact hk

/-- Combining two maps looks at all keys at which one of them has an explicit entry. -/
theorem get_of_not_mem_supports [Std.LawfulEqOrd κ] {β : Type} {x : TotalMap κ α} {y : TotalMap κ β}
    {k : κ} (hk : k ∉ x.support ++ y.support.filter fun k => !x.entries.contains k) :
    x.get k = x.default ∧ y.get k = y.default := by
  have hxk : k ∉ x.support := fun h => hk (List.mem_append_left _ h)
  refine ⟨get_of_not_mem_support hxk, get_of_not_mem_support fun h => ?_⟩
  rw [support, Std.ExtTreeMap.mem_keys, ← Std.ExtTreeMap.contains_iff_mem,
    Bool.not_eq_true, ← Bool.not_eq_true'] at hxk
  exact hk (List.mem_append_right _ (List.mem_filter.mpr ⟨h, hxk⟩))

/-- The canonical form: a default and a function give at most one map. -/
theorem ext_get [Std.LawfulEqOrd κ] (hdefault : m.default = n.default)
    (hget : ∀ k, m.get k = n.get k) : m = n := by
  have hentries : m.entries = n.entries := by
    refine Std.ExtTreeMap.ext_getElem? fun k => ?_
    rcases getElem?_entries m k with hm | ⟨hm, hm'⟩ <;>
      rcases getElem?_entries n k with hn | ⟨hn, hn'⟩
    · -- both have an entry
      rw [hm, hn, hget]
    · -- only one has an entry: it would repeat the default
      refine absurd ?_ (m.entries_ne_default k)
      rw [hm, hget, hn', hdefault]
    · refine absurd ?_ (n.entries_ne_default k)
      rw [hn, ← hget, hm', hdefault]
    · rw [hm, hn]
  cases m
  cases n
  simp_all

/-- All values of a map, the default included, have a property. -/
def All (P : α → Prop) (m : TotalMap κ α) : Prop := P m.default ∧ ∀ k, P (m.get k)

theorem all_const {value : α} (h : P value) : (const value : TotalMap κ α).All P :=
  ⟨h, fun k => by rw [get_const]; exact h⟩

theorem All.set [Std.LawfulEqOrd κ] [DecidableEq α] (h : m.All P) (k : κ) {value : α}
    (hv : P value) : (m.set k value).All P := by
  refine ⟨by rw [default_set]; exact h.1, fun j => ?_⟩
  rw [get_set]
  split
  · exact hv
  · exact h.2 j

section Sets

variable [DecidableEq α]

/-- Setting keys one after the other to values that are worked out on the way. -/
theorem foldlM_set_eq_ok_iff [Std.LawfulEqOrd κ] (f : κ → Except Fault α) :
    ∀ (ks : List κ) (acc n : TotalMap κ α),
    ks.foldlM (fun acc k => do return acc.set k (← f k)) acc = .ok n ↔
      n.default = acc.default ∧ (∀ k ∈ ks, f k = .ok (n.get k)) ∧
        ∀ k, k ∉ ks → n.get k = acc.get k
  | [], acc, n => by
      constructor
      · rintro h
        injection h with h
        subst h
        simp
      · rintro ⟨hd, -, hget⟩
        exact congrArg Except.ok (ext_get hd.symm fun k => (hget k (by simp)).symm)
  | k :: ks, acc, n => by
      rw [List.foldlM_cons]
      cases hk : f k with
      | error fault => simp [bind, Except.bind, hk]
      | ok v =>
        refine (foldlM_set_eq_ok_iff f ks (acc.set k v) n).trans ?_
        rw [default_set, List.forall_mem_cons, hk]
        refine and_congr_right fun _ => ⟨?_, ?_⟩
        · rintro ⟨hin, hout⟩
          refine ⟨⟨?_, hin⟩, ?_⟩
          · -- the first key may come again, with the same value
            by_cases hmem : k ∈ ks
            · rw [← hk, hin k hmem]
            · rw [hout k hmem, get_set_self]
          · -- a key that is not listed is not set
            intro j hj
            rw [List.mem_cons, not_or] at hj
            rw [hout j hj.2, get_set_of_ne _ (Ne.symm hj.1)]
        · -- from the values to the fold
          rintro ⟨⟨hv, hin⟩, hout⟩
          refine ⟨hin, fun j hj => ?_⟩
          by_cases hjk : j = k
          · subst hjk
            injection hv with hv
            rw [get_set_self, hv]
          · rw [get_set_of_ne _ (Ne.symm hjk)]
            exact hout j (by simp [hjk, hj])

/-- Setting keys one after the other fails at the first value that cannot be worked out. -/
theorem foldlM_set_eq_error_iff (f : κ → Except Fault α) {fault : Fault} :
    ∀ (ks : List κ) (acc : TotalMap κ α),
    ks.foldlM (fun acc k => do return acc.set k (← f k)) acc = .error fault ↔
      ∃ before k after, ks = before ++ k :: after ∧ (∀ j ∈ before, ∃ y, f j = .ok y) ∧
        f k = .error fault
  | [], acc => by simp [pure, Except.pure]
  | k :: ks, acc => by
      rw [List.foldlM_cons]
      cases hk : f k with
      | error fault' =>
        constructor
        · intro h
          obtain rfl : fault' = fault := Except.error.inj h
          exact ⟨[], k, ks, rfl, by simp, hk⟩
        · rintro ⟨_ | ⟨j, before⟩, i, after, hks, hbefore, hi⟩
          · obtain ⟨rfl, rfl⟩ := List.cons.inj hks
            obtain rfl : fault' = fault := Except.error.inj (hk.symm.trans hi)
            rfl
          · obtain ⟨rfl, rfl⟩ := List.cons.inj hks
            obtain ⟨y, hy⟩ := hbefore k (List.mem_cons_self ..)
            cases hk.symm.trans hy
      | ok v =>
        -- The map is lost with the fault, so the rest may start from any other map.
        refine (foldlM_set_eq_error_iff f ks (acc.set k v)).trans ⟨?_, ?_⟩
        · rintro ⟨before, i, after, rfl, hbefore, hi⟩
          exact ⟨k :: before, i, after, rfl, List.forall_mem_cons.mpr ⟨⟨v, hk⟩, hbefore⟩, hi⟩
        · rintro ⟨_ | ⟨j, before⟩, i, after, hks, hbefore, hi⟩
          · obtain ⟨rfl, rfl⟩ := List.cons.inj hks
            cases hk.symm.trans hi
          · obtain ⟨rfl, rfl⟩ := List.cons.inj hks
            exact ⟨before, i, after, rfl, (List.forall_mem_cons.mp hbefore).2, hi⟩

theorem exists_foldlM_set {f : κ → Except Fault α} : ∀ (ks : List κ) (acc : TotalMap κ α),
    (∀ k ∈ ks, ∃ y, f k = .ok y) →
      ∃ n, ks.foldlM (fun acc k => do return acc.set k (← f k)) acc = .ok n
  | [], acc, _ => ⟨acc, rfl⟩
  | k :: ks, acc, h => by
      obtain ⟨y, hy⟩ := h k (List.mem_cons_self ..)
      obtain ⟨n, hn⟩ :=
        exists_foldlM_set ks (acc.set k y) fun j hj => h j (List.mem_cons_of_mem _ hj)
      exact ⟨n, by rw [List.foldlM_cons, hy]; exact hn⟩

/-- Pointwise combination has a value when the combination has one at the default and at every key. -/
theorem zipM_eq_ok_iff [Std.LawfulEqOrd κ] {f : α → α → Except Fault α} {x y z : TotalMap κ α} :
    x.zipM f y = .ok z ↔
      f x.default y.default = .ok z.default ∧ ∀ k, f (x.get k) (y.get k) = .ok (z.get k) := by
  rw [zipM, bind_eq_ok_iff]
  constructor
  · -- a key without an entry in either map gets the combined default
    rintro ⟨d, hd, hz⟩
    obtain ⟨hdefault, hin, hout⟩ := (foldlM_set_eq_ok_iff _ _ _ _).mp hz
    refine ⟨hdefault ▸ hd, fun k => ?_⟩
    by_cases hk : k ∈ x.support ++ y.support.filter fun k => !x.entries.contains k
    · exact hin k hk
    · rw [(get_of_not_mem_supports hk).1, (get_of_not_mem_supports hk).2, hout k hk, get_const]
      exact hd
  · -- and where the combined values are given, no other map has them
    rintro ⟨hd, hget⟩
    refine ⟨z.default, hd, (foldlM_set_eq_ok_iff _ _ _ _).mpr ⟨rfl, fun k _ => hget k, ?_⟩⟩
    intro k hk
    have h := hget k
    rw [(get_of_not_mem_supports hk).1, (get_of_not_mem_supports hk).2, hd] at h
    rw [get_const]
    exact (Except.ok.inj h).symm

theorem exists_zipM {f : α → α → Except Fault α} {x y : TotalMap κ α}
    (hdefault : ∃ d, f x.default y.default = .ok d)
    (hget : ∀ k, ∃ v, f (x.get k) (y.get k) = .ok v) : ∃ z, x.zipM f y = .ok z := by
  obtain ⟨d, hd⟩ := hdefault
  obtain ⟨z, hz⟩ := exists_foldlM_set
    (x.support ++ y.support.filter fun k => !x.entries.contains k) (const d) fun k _ => hget k
  exact ⟨z, bind_eq_ok_iff.mpr ⟨d, hd, hz⟩⟩

end Sets

end TotalMap

namespace Lattice

variable {κ α : Type} {L : Lattice α}

theorem allM_eq_ok_true {p : κ → Except Fault Bool} :
    ∀ {ks : List κ}, ks.allM p = .ok true ↔ ∀ k ∈ ks, p k = .ok true
  | [] => by simp [pure, Except.pure]
  | k :: ks => by
      rw [List.allM_cons, List.forall_mem_cons, ← allM_eq_ok_true]
      cases hk : p k with
      | error fault => simp [bind, Except.bind]
      | ok b => cases b <;> simp [bind, Except.bind, pure, Except.pure]

theorem exists_allM {p : κ → Except Fault Bool} :
    ∀ (ks : List κ), (∀ k ∈ ks, ∃ b, p k = .ok b) → ∃ b, ks.allM p = .ok b
  | [], _ => ⟨true, rfl⟩
  | k :: ks, h => by
      obtain ⟨b, hb⟩ := h k (List.mem_cons_self ..)
      rw [List.allM_cons, hb]
      cases b with
      | false => exact ⟨false, rfl⟩
      | true => exact exists_allM ks fun j hj => h j (List.mem_cons_of_mem _ hj)

variable [Ord κ] [Std.TransOrd κ]

/-- The pointwise order looks at the explicit entries only, and says something about every key. -/
theorem below_totalMap_iff [Std.LawfulEqOrd κ] [DecidableEq α] {x y : TotalMap κ α} :
    L.totalMap.Below x y ↔
      L.Below x.default y.default ∧ ∀ k, L.Below (x.get k) (y.get k) := by
  have hsplit : L.totalMapLeq x y = .ok true ↔ L.Below x.default y.default ∧
      ∀ k ∈ x.support ++ y.support, L.Below (x.get k) (y.get k) :=
    both_eq_ok_true_iff.trans (and_congr_right fun _ => allM_eq_ok_true)
  refine hsplit.trans (and_congr_right fun hd => ⟨fun h k => ?_, fun h k _ => h k⟩)
  by_cases hk : k ∈ x.support ++ y.support
  · exact h k hk
  · rw [List.mem_append, not_or] at hk
    rw [TotalMap.get_of_not_mem_support hk.1, TotalMap.get_of_not_mem_support hk.2]
    exact hd

end Lattice

end StaticAnalysis
