import StaticAnalysis.Proofs.CanonicalMap
import StaticAnalysis.Proofs.CompositeLattice

/-!
Total maps are pointwise. Combining two maps goes through the entries of both and leaves all other
keys to the combined default; comparing two maps looks at their entries and compares the defaults once.
Each key has an entry in both maps, in one of them or in none, and every time what comes out is what
its two values give.
-/

namespace StaticAnalysis

namespace TotalMap

variable {κ α : Type} [Ord κ] [Std.TransOrd κ] [DecidableEq α]

theorem ofList_concat (default : α) (entries : List (κ × α)) (e : κ × α) :
    ofList default (entries ++ [e]) = (ofList default entries).set e.1 e.2 :=
  List.foldl_append ..

/-- The value at a key is that of the last entry for it, also if that is the default. -/
theorem get_ofList [Std.LawfulEqOrd κ] [DecidableEq κ] (default : α) (entries : List (κ × α))
    (k : κ) : (ofList default entries).get k = (entries.reverse.lookup k).getD default := by
  induction entries using List.reverseRecOn with
  | nil => exact get_const default k
  | append_singleton entries e ih =>
    rw [ofList_concat, get_set_eq_update, List.reverse_concat, List.lookup_cons]
    by_cases hk : k = e.1
    · rw [hk, Function.update_self, beq_self_eq_true]
      rfl
    · rw [Function.update_of_ne hk, ih, beq_eq_false_iff_ne.mpr hk]

end TotalMap

namespace Lattice

variable {κ α : Type} [Ord κ] [Std.TransOrd κ] [Std.LawfulEqOrd κ] [DecidableEq α] {L : Lattice α}

/-- If there are infinitely many keys, the defaults are compared at some of them. -/
theorem below_totalMap_iff_get [Infinite κ] {x y : TotalMap κ α} :
    L.totalMap.Below x y ↔ ∀ k, L.Below (x.get k) (y.get k) := by
  refine below_totalMap_iff.trans (and_iff_right_of_imp fun h => ?_)
  obtain ⟨k, hx, hy⟩ := TotalMap.exists_get_eq_default x y
  rw [← hx, ← hy]
  exact h k

end Lattice

namespace TotalMap

variable {κ α β γ : Type} [Ord κ] [Std.TransOrd κ] [Std.LawfulEqOrd κ] [DecidableEq κ]
  [DecidableEq α] [DecidableEq γ]

/-- Everything about total maps is pointwise: combining two of them, whatever their defaults are,
changing all values, and setting one key, which leaves all other keys alone. Of several entries for a
key the last one counts. Over a lawful lattice the least upper bound of two maps has at every key the
least upper bound of their values. If there are infinitely many keys, a map is below another if and
only if it is so at every key. -/
theorem operations_pointwise :
    (∀ (f : α → β → γ) (x : TotalMap κ α) (y : TotalMap κ β) (k : κ),
      (x.zip f y).get k = f (x.get k) (y.get k)) ∧
    (∀ (f : α → γ) (m : TotalMap κ α) (k : κ), (m.map f).get k = f (m.get k)) ∧
    (∀ (m : TotalMap κ α) (k : κ) (value : α),
      (m.set k value).get = Function.update m.get k value) ∧
    (∀ (default : α) (entries : List (κ × α)) (k : κ),
      (ofList default entries).get k = (entries.reverse.lookup k).getD default) ∧
    ∀ (L : Lattice α) (Member : α → Prop), L.Lawful Member →
      ∀ x y : TotalMap κ α, x.All Member → y.All Member →
        (∃ z, L.totalMap.lub x y = .ok z ∧ ∀ k, L.lub (x.get k) (y.get k) = .ok (z.get k)) ∧
        ∃ b, L.totalMap.leq x y = .ok b ∧
          (Infinite κ → (b = true ↔ ∀ k, L.leq (x.get k) (y.get k) = .ok true)) := by
  refine ⟨get_zip, get_map, get_set_eq_update, get_ofList, fun L Member hL x y hx hy => ⟨?_, ?_⟩⟩
  · obtain ⟨z, hz, -, hvalues⟩ := Lattice.lub_totalMap hL hx hy
    exact ⟨z, hz, fun k => hvalues (some k)⟩
  · obtain ⟨b, hb⟩ := Lattice.leq_totalMap_total hL hx hy
    refine ⟨b, hb, fun _ => Iff.trans ?_ Lattice.below_totalMap_iff_get⟩
    rw [Lattice.Below, hb, Except.ok.injEq]

/-- An example: an entry is overwritten with the default, another one is left. -/
def sparse : TotalMap Atom (Flat Nat) :=
  .ofList .bottom [(.str "a", .simple 1), (.str "b", .simple 2), (.str "a", .bottom)]

/-- Another default, and one entry. -/
def dense : TotalMap Atom (Flat Nat) := .ofList (.simple 5) [(.str "b", .simple 2)]

theorem operations_sparse_pointwise :
    Infinite Atom ∧ (Flat.lattice (α := Nat)).Lawful (fun _ => True) ∧
      sparse.get (.str "a") = .bottom ∧
      (∃ z, Flat.lattice.totalMap.lub sparse dense = .ok z ∧
        z.get (.str "b") = .simple 2 ∧ z.get (.str "c") = .simple 5) ∧
      Flat.lattice.totalMap.leq sparse dense = .ok true ∧
      (∀ k, Flat.lattice.leq (sparse.get k) (dense.get k) = .ok true) ∧
      Flat.lattice.totalMap.leq dense sparse = .ok false := by
  obtain ⟨-, -, -, hofList, hlattice⟩ :=
    operations_pointwise (κ := Atom) (α := Flat Nat) (β := Nat) (γ := Nat)
  obtain ⟨⟨z, hz, hvalue⟩, b, hb, hbelow⟩ := hlattice Flat.lattice _ Flat.lattice_lawful sparse dense
    ⟨trivial, fun _ => trivial⟩ ⟨trivial, fun _ => trivial⟩
  have hleq : Flat.lattice.totalMap.leq sparse dense = .ok true := by decide +kernel
  have htrue : b = true := Except.ok.inj (hb.symm.trans hleq)
  refine ⟨inferInstance, Flat.lattice_lawful, hofList .., ⟨z, hz, ?_, ?_⟩, hleq,
    (hbelow inferInstance).mp htrue, by decide +kernel⟩
  · exact Except.ok.inj ((hvalue (.str "b")).symm.trans (by decide +kernel))
  · exact Except.ok.inj ((hvalue (.str "c")).symm.trans (by decide +kernel))

end TotalMap

end StaticAnalysis
