import Mathlib.Data.Set.Finite.List
import StaticAnalysis.Atom
import StaticAnalysis.Proofs.TotalMap

/-!
Total maps are canonical. Whatever operations a map is made with, its explicit entries are the keys
whose values differ from the default. Combining maps and changing all values change the default as
well, which makes old entries superfluous and calls for new ones; all of that goes through the setting
of single keys.

Main statement: if there are infinitely many keys, maps are equal if and only if they give all keys
the same values. With finitely many keys the default may be the value of none of them.
-/

namespace StaticAnalysis

instance : Infinite Atom := Infinite.of_injective Atom.int fun _ _ => Atom.int.inj

namespace TotalMap

variable {κ α β γ : Type} [Ord κ] [Std.TransOrd κ]

/-! ### The values after an operation -/

theorem zip_eq_foldl [DecidableEq γ] (f : α → β → γ) (x : TotalMap κ α) (y : TotalMap κ β) :
    x.zip f y = (x.support ++ y.support.filter fun k => !x.entries.contains k).foldl
      (fun acc k => acc.set k (f (x.get k) (y.get k))) (const (f x.default y.default)) := by
  simp [zip, zipM]

theorem map_eq_foldl [DecidableEq γ] (f : α → γ) (x : TotalMap κ α) :
    x.map f = x.support.foldl (fun acc k => acc.set k (f (x.get k))) (const (f x.default)) := by
  simp [map, mapM]

variable [Std.LawfulEqOrd κ] [DecidableEq κ]

/-- Setting keys to values that depend on the key only. -/
theorem get_foldl_set [DecidableEq α] (f : κ → α) : ∀ (ks : List κ) (m : TotalMap κ α) (k : κ),
    (ks.foldl (fun acc k => acc.set k (f k)) m).get k = if k ∈ ks then f k else m.get k
  | [], m, k => by simp
  | j :: ks, m, k => by
      rw [List.foldl_cons, get_foldl_set f ks]
      by_cases hjk : j = k
      · simp [hjk]
      · rw [get_set_of_ne _ hjk]
        simp [Ne.symm hjk]

theorem get_zip [DecidableEq γ] (f : α → β → γ) (x : TotalMap κ α) (y : TotalMap κ β) (k : κ) :
    (x.zip f y).get k = f (x.get k) (y.get k) := by
  rw [zip_eq_foldl, get_foldl_set]
  split
  · rfl
  · next hk =>
    obtain ⟨hx, hy⟩ := get_of_not_mem_supports hk
    rw [get_const, hx, hy]

theorem get_map [DecidableEq γ] (f : α → γ) (x : TotalMap κ α) (k : κ) :
    (x.map f).get k = f (x.get k) := by
  rw [map_eq_foldl, get_foldl_set]
  split
  · rfl
  · next hk => rw [get_const, get_of_not_mem_support hk]

theorem get_set_eq_update [DecidableEq α] (m : TotalMap κ α) (k : κ) (value : α) :
    (m.set k value).get = Function.update m.get k value := by
  funext j
  by_cases hj : k = j
  · rw [hj, get_set_self, Function.update_self]
  · rw [get_set_of_ne _ hj, Function.update_of_ne (Ne.symm hj)]

/-- Of several entries for a key the last one counts. -/
theorem get_foldl_entries [DecidableEq α] : ∀ (entries : List (κ × α)) (m : TotalMap κ α),
    (entries.foldl (fun m e => m.set e.1 e.2) m).get =
      entries.foldl (fun f e => Function.update f e.1 e.2) m.get
  | [], m => rfl
  | e :: entries, m => by
      rw [List.foldl_cons, List.foldl_cons, get_foldl_entries entries, get_set_eq_update]

/-! ### The canonical form -/

omit [DecidableEq κ] in
/-- The explicit entries are for the keys with other values than the default. -/
theorem mem_toList_iff {m : TotalMap κ α} {k : κ} {value : α} :
    (k, value) ∈ m.toList ↔ m.get k = value ∧ value ≠ m.default := by
  rw [toList, Std.ExtTreeMap.mem_toList_iff_getElem?_eq_some]
  constructor
  · intro hk
    have hget : m.get k = value := by
      rw [get, hk]
      rfl
    exact ⟨hget, fun h => m.entries_ne_default k (h ▸ hk)⟩
  · rintro ⟨rfl, hne⟩
    rcases getElem?_entries m k with hk | ⟨-, hk⟩
    · exact hk
    · -- a key without an entry has the default
      exact absurd hk hne

omit [DecidableEq κ] in
/-- Some key has no entry in either map. -/
theorem exists_get_eq_default [Infinite κ] (m : TotalMap κ α) (n : TotalMap κ β) :
    ∃ k, m.get k = m.default ∧ n.get k = n.default := by
  obtain ⟨k, hk⟩ := (m.support ++ n.support).finite_toSet.exists_notMem
  have hk : k ∉ m.support ∧ k ∉ n.support := by simpa using hk
  exact ⟨k, get_of_not_mem_support hk.1, get_of_not_mem_support hk.2⟩

omit [DecidableEq κ] in
/-- The defaults are values, too. -/
theorem eq_iff_get_eq [Infinite κ] {m n : TotalMap κ α} : m = n ↔ ∀ k, m.get k = n.get k := by
  refine ⟨fun h k => h ▸ rfl, fun h => ext_get ?_ h⟩
  obtain ⟨k, hm, hn⟩ := exists_get_eq_default m n
  rw [← hm, ← hn, h]

end TotalMap

/-! ### Maps made in any way -/

/-- A way to make a total map. -/
inductive MapExpr (κ α : Type) where
  /-- One value for all keys. -/
  | const (value : α)
  /-- A default and entries. -/
  | ofList (default : α) (entries : List (κ × α))
  /-- Another value for one key. -/
  | set (m : MapExpr κ α) (key : κ) (value : α)
  /-- Two maps combined. -/
  | zip (f : α → α → α) (m n : MapExpr κ α)
  /-- All values changed. -/
  | map (f : α → α) (m : MapExpr κ α)

namespace MapExpr

variable {κ α : Type}

/-- The function that the map is meant to be. -/
def meaning [DecidableEq κ] : MapExpr κ α → κ → α
  | .const value => fun _ => value
  | .ofList default entries =>
    entries.foldl (fun f e => Function.update f e.1 e.2) fun _ => default
  | .set m key value => Function.update m.meaning key value
  | .zip f m n => fun k => f (m.meaning k) (n.meaning k)
  | .map f m => fun k => f (m.meaning k)

variable [Ord κ] [Std.TransOrd κ] [DecidableEq α]

/-- The map that is made. -/
def eval : MapExpr κ α → TotalMap κ α
  | .const value => .const value
  | .ofList default entries => .ofList default entries
  | .set m key value => m.eval.set key value
  | .zip f m n => m.eval.zip f n.eval
  | .map f m => m.eval.map f

variable [Std.LawfulEqOrd κ] [DecidableEq κ]

theorem get_eval : ∀ e : MapExpr κ α, e.eval.get = e.meaning
  | .const value => funext (TotalMap.get_const value)
  | .ofList default entries => by
      have hconst : (TotalMap.const default : TotalMap κ α).get = fun _ => default :=
        funext (TotalMap.get_const default)
      rw [eval, TotalMap.ofList, TotalMap.get_foldl_entries, hconst, meaning]
  | .set m key value => by
      rw [eval, TotalMap.get_set_eq_update, get_eval m, meaning]
  | .zip f m n => by
      funext k
      rw [eval, TotalMap.get_zip, get_eval m, get_eval n, meaning]
  | .map f m => by
      funext k
      rw [eval, TotalMap.get_map, get_eval m, meaning]

/-- However a map is made, it has an explicit entry for every key whose value is not the default, and
no other. It stands for the function that it was meant to be. If there are infinitely many keys, maps
made in whatever ways are equal if and only if they have the same value at every key. -/
theorem eval_canonical (e : MapExpr κ α) :
    (∀ k value, (k, value) ∈ e.eval.toList ↔ e.meaning k = value ∧ value ≠ e.eval.default) ∧
      (∀ k, e.eval.get k = e.meaning k) ∧
      (Infinite κ → ∀ e' : MapExpr κ α, e.eval = e'.eval ↔ ∀ k, e.eval.get k = e'.eval.get k) := by
  refine ⟨fun k value => ?_, fun k => ?_, fun _ e' => TotalMap.eq_iff_get_eq⟩
  · rw [TotalMap.mem_toList_iff, get_eval]
  · rw [get_eval]

/-- An example: an entry is overwritten with the default, then the default changes. -/
def overwritten : MapExpr Atom Int :=
  .zip (· - ·) (.ofList 5 [(.str "a", 1), (.str "b", 2), (.str "a", 5)]) (.const 3)

/-- The same function, made in another way. -/
def patched : MapExpr Atom Int := .map (· - 3) (.set (.const 5) (.str "b") 2)

theorem eval_overwritten_canonical :
    Infinite Atom ∧ (∀ k, overwritten.meaning k = patched.meaning k) ∧
      overwritten.eval = patched.eval ∧ overwritten.eval.toList = [(.str "b", -1)] := by
  obtain ⟨-, hget, heq⟩ := eval_canonical overwritten
  have hsame : ∀ k, overwritten.meaning k = patched.meaning k := by
    intro k
    by_cases ha : k = .str "a" <;> by_cases hb : k = .str "b" <;>
      simp_all [overwritten, patched, meaning, Function.update]
  have heval : overwritten.eval = patched.eval := by
    refine (heq inferInstance patched).mpr fun k => ?_
    rw [hget, hsame, get_eval]
  exact ⟨inferInstance, hsame, heval, by decide +kernel⟩

end MapExpr

end StaticAnalysis
