import Mathlib.Algebra.BigOperators.Group.List.Basic
import Mathlib.Algebra.Order.BigOperators.Group.List
import Mathlib.Algebra.Order.Ring.Nat
import TuplNative.Entries

/-- An ordered map under a budget: the keys strictly increase, no entry weighs
more than `limit`, and all entries together weigh at most `budget`. -/
structure BudgetedMap (κ ν : Type) [LinearOrder κ] (weight : κ × ν → Nat) (limit budget : Nat) where
  entries : List (κ × ν)
  sorted : Sorted entries
  each : ∀ e ∈ entries, weight e ≤ limit
  within : (entries.map weight).sum ≤ budget

namespace BudgetedMap

/-- What an insertion is answered with. -/
inductive Answer where
  | refused
  | full
  | added
deriving DecidableEq, Repr

variable {κ ν : Type} [LinearOrder κ] {weight : κ × ν → Nat} {limit budget : Nat}

/-- The map without entries. -/
def empty : BudgetedMap κ ν weight limit budget :=
  ⟨[], .nil, by simp, by simp⟩

def keys (map : BudgetedMap κ ν weight limit budget) : List κ := map.entries.map Prod.fst

def total (map : BudgetedMap κ ν weight limit budget) : Nat := (map.entries.map weight).sum

/-- The key is taken, or the entry is over the limit on its own. -/
def Refuses (map : BudgetedMap κ ν weight limit budget) (key : κ) (value : ν) : Prop :=
  key ∈ map.keys ∨ limit < weight (key, value)

/-- The entry does not fit in what the budget has left. -/
def Overflows (map : BudgetedMap κ ν weight limit budget) (key : κ) (value : ν) : Prop :=
  budget - map.total < weight (key, value)

instance (map : BudgetedMap κ ν weight limit budget) (key : κ) (value : ν) :
    Decidable (map.Refuses key value) := inferInstanceAs (Decidable (_ ∨ _))

instance (map : BudgetedMap κ ν weight limit budget) (key : κ) (value : ν) :
    Decidable (map.Overflows key value) := inferInstanceAs (Decidable (_ < _))

/-- The map with an entry added that it neither refuses nor has no room for. -/
def add (map : BudgetedMap κ ν weight limit budget) (key : κ) (value : ν)
    (hrefuses : ¬ map.Refuses key value) (hroom : ¬ map.Overflows key value) :
    BudgetedMap κ ν weight limit budget where
  entries := sortedInsert key value map.entries
  sorted := map.sorted.sortedInsert fun hmem => hrefuses (Or.inl hmem)
  each := by
    rw [forall_mem_sortedInsert]
    exact ⟨Nat.le_of_not_lt fun hlt => hrefuses (Or.inr hlt), map.each⟩
  within := by
    have hwithin := map.within
    have hfits : ¬ budget - (map.entries.map weight).sum < weight (key, value) := hroom
    rw [((sortedInsert_perm key value map.entries).map weight).sum_eq, List.map_cons, List.sum_cons]
    omega

/-- Insertion: refused entries and entries without room leave the map alone. -/
def insert (map : BudgetedMap κ ν weight limit budget) (key : κ) (value : ν) :
    Answer × BudgetedMap κ ν weight limit budget :=
  if hrefuses : map.Refuses key value then (.refused, map)
  else if hroom : map.Overflows key value then (.full, map)
  else (.added, map.add key value hrefuses hroom)

theorem insert_refused_iff (map : BudgetedMap κ ν weight limit budget) (key : κ) (value : ν) :
    (map.insert key value).1 = .refused ↔ map.Refuses key value := by
  unfold insert
  split
  · simp [*]
  · split <;> simp [*]

theorem insert_full_iff (map : BudgetedMap κ ν weight limit budget) (key : κ) (value : ν) :
    (map.insert key value).1 = .full ↔ ¬ map.Refuses key value ∧ map.Overflows key value := by
  unfold insert
  split
  · simp [*]
  · split <;> simp [*]

theorem insert_added_entries (map : BudgetedMap κ ν weight limit budget) (key : κ) (value : ν)
    (h : (map.insert key value).1 = .added) :
    (map.insert key value).2.entries = sortedInsert key value map.entries := by
  unfold insert at h ⊢
  split at h
  · cases h
  · rename_i hrefuses
    split at h
    · cases h
    · rename_i hroom
      simp only [hrefuses, hroom, dite_false]
      rfl

end BudgetedMap
