import Std.Data.ExtTreeMap
import StaticAnalysis.Text

/-!
Total maps with finite support. A total map gives every key a value: the keys with an explicit
entry have that entry's value, all others the default. No explicit entry repeats the default, so a
total map is determined by its default and by the values it gives. To repeat the default is to be
equal to it: setting a key compares the new value with the default by equality.
-/

namespace StaticAnalysis

/-- A function that differs from its default value at finitely many keys only. -/
structure TotalMap (κ α : Type) [Ord κ] [Std.TransOrd κ] where
  /-- The value of every key without an explicit entry. -/
  default : α
  /-- The explicit entries. -/
  entries : Std.ExtTreeMap κ α compare
  /-- No explicit entry repeats the default. -/
  entries_ne_default : ∀ k : κ, entries[k]? ≠ some default

namespace TotalMap

variable {κ α β γ : Type} [Ord κ] [Std.TransOrd κ]

/-- The map that gives every key the same value. -/
def const (value : α) : TotalMap κ α where
  default := value
  entries := ∅
  entries_ne_default := by simp

/-- The value at a key. -/
def get (m : TotalMap κ α) (k : κ) : α := m.entries[k]?.getD m.default

/-- The keys with an explicit entry, in order. -/
def support (m : TotalMap κ α) : List κ := m.entries.keys

/-- The explicit entries, in the order of their keys. -/
def toList (m : TotalMap κ α) : List (κ × α) := m.entries.toList

/-- The number of explicit entries. -/
def size (m : TotalMap κ α) : Nat := m.entries.size

instance [Std.LawfulEqOrd κ] [DecidableEq α] : DecidableEq (TotalMap κ α) := fun m n =>
  decidable_of_iff (m.default = n.default ∧ m.entries = n.entries) <| by
    cases m; cases n; simp

@[simp]
theorem get_const (value : α) (k : κ) : (const value : TotalMap κ α).get k = value := by
  simp [get, const]

section Update

variable [DecidableEq α]

/-- Gives one key a new value; the entry goes away if that value is the default. -/
def set (m : TotalMap κ α) (k : κ) (value : α) : TotalMap κ α :=
  if h : value = m.default then
    { default := m.default
      entries := m.entries.erase k
      entries_ne_default := fun j => by
        rw [Std.ExtTreeMap.getElem?_erase]
        split
        · simp
        · exact m.entries_ne_default j }
  else
    { default := m.default
      entries := m.entries.insert k value
      entries_ne_default := fun j => by
        rw [Std.ExtTreeMap.getElem?_insert]
        split
        · simpa using h
        · exact m.entries_ne_default j }

@[simp]
theorem default_set (m : TotalMap κ α) (k : κ) (value : α) :
    (m.set k value).default = m.default := by
  unfold set; split <;> rfl

theorem get_set (m : TotalMap κ α) (k j : κ) (value : α) :
    (m.set k value).get j = if compare k j = .eq then value else m.get j := by
  unfold set get
  split
  · next h => rw [Std.ExtTreeMap.getElem?_erase]; split <;> simp [h]
  · rw [Std.ExtTreeMap.getElem?_insert]; split <;> simp

@[simp]
theorem get_set_self [Std.LawfulEqOrd κ] (m : TotalMap κ α) (k : κ) (value : α) :
    (m.set k value).get k = value := by
  rw [get_set, if_pos Std.ReflOrd.compare_self]

theorem get_set_of_ne [Std.LawfulEqOrd κ] (m : TotalMap κ α) {k j : κ} (h : k ≠ j) (value : α) :
    (m.set k value).get j = m.get j := by
  rw [get_set, if_neg (mt Std.LawfulEqOrd.eq_of_compare h)]

/-- The map with the given default and entries; of several entries for a key the last counts. -/
def ofList (default : α) (entries : List (κ × α)) : TotalMap κ α :=
  entries.foldl (fun m e => m.set e.1 e.2) (const default)

end Update

section Pointwise

variable [DecidableEq γ]

/-- Pointwise combination by an operation that may fail: first the defaults are combined, then the
entries of the left map, then those that only the right map has. -/
def zipM {m : Type → Type} [Monad m] (f : α → β → m γ) (x : TotalMap κ α) (y : TotalMap κ β) :
    m (TotalMap κ γ) := do
  let d ← f x.default y.default
  let keys := x.support ++ y.support.filter fun k => !x.entries.contains k
  keys.foldlM (fun acc k => do return acc.set k (← f (x.get k) (y.get k))) (const d)

/-- Pointwise combination. -/
def zip (f : α → β → γ) (x : TotalMap κ α) (y : TotalMap κ β) : TotalMap κ γ :=
  Id.run (x.zipM (fun a b => pure (f a b)) y)

/-- Pointwise change of every value, the default included, by an operation that may fail. -/
def mapM {m : Type → Type} [Monad m] (f : α → m γ) (x : TotalMap κ α) : m (TotalMap κ γ) := do
  let d ← f x.default
  x.support.foldlM (fun acc k => do return acc.set k (← f (x.get k))) (const d)

/-- Pointwise change of every value, the default included. -/
def map (f : α → γ) (x : TotalMap κ α) : TotalMap κ γ :=
  Id.run (x.mapM fun a => pure (f a))

end Pointwise

/-- The explicit entries in the order of their keys, then the default under a star. -/
def display [ToString κ] [ToString α] (m : TotalMap κ α) : String :=
  let rest := s!"* -> {m.default}"
  Text.braced ((m.toList.map fun e => toString e.1 ++ " -> " ++ toString e.2) ++ [rest])

instance [ToString κ] [ToString α] : ToString (TotalMap κ α) := ⟨display⟩

instance [Describe κ] [Describe α] : Describe (TotalMap κ α) where
  describe m :=
    let stored := Text.braced (m.toList.map fun e => describe e.1 ++ ": " ++ describe e.2)
    "Mapping \x7b default: " ++ describe m.default ++ ", storage: " ++ stored ++ " \x7d"

end TotalMap

end StaticAnalysis
