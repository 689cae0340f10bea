import Mathlib.Data.List.Lex
import Mathlib.Order.Lattice

namespace std

variable {α : Type}

/-- `std::lexicographical_compare` of two ranges under `comp`. -/
def lexicographicalCompare (comp : α → α → Bool) : List α → List α → Bool
  | _, [] => false
  | [], _ :: _ => true
  | a :: l, b :: r =>
    if comp a b then true
    else if comp b a then false
    else lexicographicalCompare comp l r

/-- `std::equal(first1, last1, first2)`: the second range is read as far as the
first one reaches. -/
def equal [DecidableEq α] : List α → List α → Bool
  | [], _ => true
  | _ :: _, [] => false
  | a :: l, b :: r => decide (a = b) && equal l r

/-- `std::mismatch`: the number of elements before the first difference. -/
def mismatch [DecidableEq α] : List α → List α → Nat
  | a :: l, b :: r => if a = b then mismatch l r + 1 else 0
  | _, _ => 0

/-- How two ranges compare, with the position at which one of them ends or they differ. -/
inductive Mismatched [LinearOrder α] : List α → List α → Nat → Prop where
  | same (l : List α) : Mismatched l l l.length
  | shorter (l : List α) (b : α) (rest : List α) : Mismatched l (l ++ b :: rest) l.length
  | longer (r : List α) (a : α) (rest : List α) : Mismatched (r ++ a :: rest) r r.length
  | lower (common : List α) {a b : α} (l r : List α) (hlt : a < b) :
    Mismatched (common ++ a :: l) (common ++ b :: r) common.length
  | higher (common : List α) {a b : α} (l r : List α) (hgt : b < a) :
    Mismatched (common ++ a :: l) (common ++ b :: r) common.length

theorem Mismatched.cons [LinearOrder α] {l r : List α} {position : Nat} (h : Mismatched l r position)
    (a : α) : Mismatched (a :: l) (a :: r) (position + 1) := by
  cases h with
  | same => exact .same (a :: l)
  | shorter _ b rest => exact .shorter (a :: l) b rest
  | longer _ b rest => exact .longer (a :: r) b rest
  | lower common l r hlt => exact .lower (a :: common) l r hlt
  | higher common l r hgt => exact .higher (a :: common) l r hgt

/-- `std::mismatch` finds that position. -/
theorem mismatched [LinearOrder α] [DecidableEq α] (l r : List α) : Mismatched l r (mismatch l r) := by
  induction l generalizing r with
  | nil =>
    cases r with
    | nil => exact .same []
    | cons b r => exact .shorter [] b r
  | cons a l ih =>
    cases r with
    | nil => exact .longer [] a l
    | cons b r =>
      rcases lt_trichotomy a b with hlt | rfl | hgt
      · rw [mismatch, if_neg hlt.ne]
        exact .lower [] l r hlt
      · rw [mismatch, if_pos rfl]
        exact (ih r).cons a
      · rw [mismatch, if_neg hgt.ne']
        exact .higher [] l r hgt

theorem lt_append_cons [LinearOrder α] (l : List α) (b : α) (rest : List α) : l < l ++ b :: rest := by
  simpa only [List.append_nil] using List.append_left_lt (List.nil_lt_cons b rest)

theorem append_cons_lt [LinearOrder α] (common : List α) {a b : α} (l r : List α) (hlt : a < b) :
    common ++ a :: l < common ++ b :: r :=
  List.append_left_lt (List.cons_lt_cons_iff.mpr (Or.inl hlt))

/-- `std::mismatch` never looks behind the end of the second range. -/
theorem mismatch_take [DecidableEq α] (l r : List α) :
    mismatch (l.take (min l.length r.length)) r = mismatch l r := by
  induction l generalizing r with
  | nil => cases r <;> rfl
  | cons a l ih =>
    cases r with
    | nil => rfl
    | cons b r =>
      rw [List.length_cons, List.length_cons, Nat.add_min_add_right, List.take_succ_cons, mismatch,
        mismatch, ih]

/-- Skipping a prefix that both ranges share finds the same mismatch as comparing
from the start. -/
theorem mismatch_skip [DecidableEq α] (shared l r : List α) :
    shared.length +
        mismatch
          ((shared ++ l).extract shared.length (min (shared ++ l).length (shared ++ r).length))
          ((shared ++ r).drop shared.length) =
      mismatch (shared ++ l) (shared ++ r) := by
  have hextract : (shared ++ l).extract shared.length (min (shared ++ l).length (shared ++ r).length) =
      l.take (min l.length r.length) := by
    rw [List.extract_eq_take_drop, List.drop_left, List.length_append, List.length_append,
      Nat.add_min_add_left, Nat.add_sub_cancel_left]
  rw [hextract, List.drop_left, mismatch_take]
  induction shared with
  | nil => simp
  | cons a shared ih =>
    rw [List.cons_append, List.cons_append, mismatch, if_pos rfl, List.length_cons, ← ih (by simp)]
    omega

/-- Comparing with `<` decides the lexicographic order in which a proper prefix
comes first. -/
theorem lexicographicalCompare_lt [LinearOrder α] (l r : List α) :
    lexicographicalCompare (fun a b => decide (a < b)) l r = decide (l < r) := by
  induction l generalizing r with
  | nil => cases r <;> simp [lexicographicalCompare]
  | cons a l ih =>
    cases r with
    | nil => simp [lexicographicalCompare]
    | cons b r =>
      rw [lexicographicalCompare, ih]
      rcases lt_trichotomy a b with hlt | rfl | hgt
      · simp [hlt, List.cons_lt_cons_iff]
      · simp
      · simp [hgt, hgt.not_gt, hgt.ne', List.cons_lt_cons_iff]

/-- On ranges of one length `std::equal` decides equality. -/
theorem equal_eq_decide [DecidableEq α] {l r : List α} (hlen : l.length = r.length) :
    equal l r = decide (l = r) := by
  induction l generalizing r with
  | nil =>
    cases r with
    | nil => rfl
    | cons b r => cases hlen
  | cons a l ih =>
    cases r with
    | nil => cases hlen
    | cons b r =>
      have hrest : l.length = r.length := by simpa using hlen
      by_cases hab : a = b <;> simp [equal, ih hrest, hab]

/-- What lies strictly between two lists has every prefix that they share, and
goes on after it. -/
theorem prefix_of_between [LinearOrder α] {shared below between above : List α}
    (hbelow : shared <+: below)
    (habove : shared <+: above) (hlower : below < between) (hupper : between < above) :
    shared <+: between ∧ shared.length < between.length := by
  induction shared generalizing below between above with
  | nil =>
    refine ⟨List.nil_prefix, ?_⟩
    cases between with
    | nil => exact absurd hlower (List.not_lt_nil below)
    | cons _ _ => exact Nat.succ_pos _
  | cons a shared ih =>
    obtain ⟨below', rfl⟩ := hbelow
    obtain ⟨above', rfl⟩ := habove
    cases between with
    | nil => exact absurd hlower (List.not_lt_nil _)
    | cons b between =>
      rw [List.cons_append, List.cons_lt_cons_iff] at hlower hupper
      have hab : a = b := by
        rcases hlower with hlt | ⟨heq, _⟩
        · rcases hupper with hgt | ⟨heq, _⟩
          · exact absurd hlt hgt.not_gt
          · exact heq.symm
        · exact heq
      subst hab
      obtain ⟨hleading, hlonger⟩ := ih (List.prefix_append _ _) (List.prefix_append _ _)
        (hlower.resolve_left (lt_irrefl a)).2 (hupper.resolve_left (lt_irrefl a)).2
      exact ⟨List.cons_prefix_cons.mpr ⟨rfl, hleading⟩, Nat.succ_lt_succ hlonger⟩

end std
