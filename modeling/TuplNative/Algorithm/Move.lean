import Mathlib.Data.List.Basic

namespace std

variable {α : Type}

/-- `std::move` of a range to a position of a vector. It assigns to the elements that
are there and adds none, so it must not go past the end. -/
def move : List α → List α → Nat → Option (List α)
  | [], dst, _ => some dst
  | a :: range, dst, target =>
    if target < dst.length then move range (dst.set target a) (target + 1) else none

/-- A range that does not go past the end takes the place of as many elements. -/
theorem move_eq_some {range dst : List α} {target : Nat} (hfits : target + range.length ≤ dst.length) :
    move range dst target = some (dst.take target ++ range ++ dst.drop (target + range.length)) := by
  induction range generalizing dst target with
  | nil => simp [move]
  | cons a range ih =>
    rw [List.length_cons] at hfits ⊢
    have hroom : target < dst.length := by omega
    have hwritten : (dst.set target a).take (target + 1) = dst.take target ++ [a] := by
      rw [List.take_succ_eq_append_getElem (by simpa using hroom), List.getElem_set_self,
        List.take_set_of_le (Nat.le_refl _)]
    have hbehind : (dst.set target a).drop (target + 1 + range.length) =
        dst.drop (target + (range.length + 1)) := by
      rw [List.drop_set_of_lt (by omega), Nat.add_right_comm, Nat.add_assoc]
    rw [move, if_pos hroom, ih (by rw [List.length_set]; omega), hwritten, hbehind]
    simp only [List.append_assoc, List.singleton_append]

theorem move_eq_none {range dst : List α} {target : Nat} (htarget : target ≤ dst.length)
    (hpast : dst.length < target + range.length) : move range dst target = none := by
  induction range generalizing dst target with
  | nil =>
    rw [List.length_nil] at hpast
    omega
  | cons a range ih =>
    rw [List.length_cons] at hpast
    rw [move]
    by_cases hroom : target < dst.length
    · rw [if_pos hroom]
      apply ih
      · rw [List.length_set]
        exact hroom
      · rw [List.length_set]
        omega
    · rw [if_neg hroom]

end std
