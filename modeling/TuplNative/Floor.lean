import Mathlib.Order.Bounds.Basic

/-- The greatest element of a set that is at most `x`. -/
def IsFloor {κ : Type} [LinearOrder κ] (keys : Set κ) (x floor : κ) : Prop :=
  IsGreatest {k | k ∈ keys ∧ k ≤ x} floor

namespace IsFloor

variable {κ : Type} [LinearOrder κ] {keys : Set κ} {x floor new newFloor : κ}

theorem mem (h : IsFloor keys x floor) : floor ∈ keys := h.1.1

theorem le (h : IsFloor keys x floor) : floor ≤ x := h.1.2

theorem unique (h : IsFloor keys x floor) (h' : IsFloor keys x newFloor) : floor = newFloor :=
  IsGreatest.unique h h'

theorem refl (h : x ∈ keys) : IsFloor keys x x :=
  ⟨⟨h, le_rfl⟩, fun _ hk => hk.2⟩

/-- A new key above `x` does not change its floor. -/
theorem insert_of_lt (h : IsFloor keys x floor) (hlt : x < new) :
    IsFloor (insert new keys) x floor := by
  refine ⟨⟨Set.mem_insert_of_mem _ h.mem, h.le⟩, ?_⟩
  rintro k ⟨rfl | hk, hle⟩
  · exact absurd hle (not_le.mpr hlt)
  · exact h.2 ⟨hk, hle⟩

/-- A new key becomes the floor of what lies above it and had the same floor. -/
theorem insert_self (hnew : IsFloor keys new floor) (h : IsFloor keys x floor) (hle : new ≤ x) :
    IsFloor (insert new keys) x new := by
  refine ⟨⟨Set.mem_insert _ _, hle⟩, ?_⟩
  rintro k ⟨rfl | hk, hk'⟩
  · exact le_rfl
  · exact (h.2 ⟨hk, hk'⟩).trans hnew.le

/-- A new key does not change the floor of what had another floor than it. -/
theorem insert_of_ne (hnew : IsFloor keys new newFloor) (h : IsFloor keys x floor)
    (hne : floor ≠ newFloor) :
    IsFloor (insert new keys) x floor := by
  by_cases hlt : x < new
  · exact h.insert_of_lt hlt
  have hbelow : newFloor ≤ floor := h.2 ⟨hnew.mem, hnew.le.trans (not_lt.mp hlt)⟩
  have hnewle : new ≤ floor := by
    by_contra habove
    exact hne (le_antisymm (hnew.2 ⟨h.mem, (not_le.mp habove).le⟩) hbelow)
  refine ⟨⟨Set.mem_insert_of_mem _ h.mem, h.le⟩, ?_⟩
  rintro k ⟨rfl | hk, hk'⟩
  · exact hnewle
  · exact h.2 ⟨hk, hk'⟩

end IsFloor
