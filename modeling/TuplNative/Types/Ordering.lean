import Mathlib.Data.Set.Defs
import TuplNative.Types

namespace tupl.Bytes

/-- `operator<`. -/
def less (l r : Bytes) : Bool :=
  std.lexicographicalCompare (fun l r => decide (l < r)) l.data r.data

/-- `operator<=`. -/
def lessOrEqual (l r : Bytes) : Bool :=
  std.lexicographicalCompare (fun l r => decide (l ≤ r)) l.data r.data

theorem less_iff_lt (l r : Bytes) : less l r = true ↔ l < r := by
  rw [less, std.lexicographicalCompare_lt, decide_eq_true_iff, lt_iff_data_lt]

theorem eq_empty_of_data_eq_nil {bytes : Bytes} (h : bytes.data = []) : bytes = empty :=
  data_injective h

/-- Behind the first bytes `operator<=` looks at nothing: of two equal first bytes it
takes the left one to be less. -/
theorem lessOrEqual_cons {l r : Bytes} {a b : byte} {lower upper : List byte} (hl : l.data = a :: lower)
    (hr : r.data = b :: upper) : lessOrEqual l r = decide (a ≤ b) := by
  rw [lessOrEqual, hl, hr, std.lexicographicalCompare]
  by_cases hle : a ≤ b
  · rw [if_pos (by simpa using hle), decide_eq_true hle]
  · rw [if_neg (by simpa using hle), if_pos (by simpa using le_of_not_ge hle), decide_eq_false hle]

theorem lessOrEqual_of_data_eq_nil {l r : Bytes} (hr : r.data = []) : lessOrEqual l r = false := by
  rw [lessOrEqual, hr]
  cases l.data <;> rfl

/-- The first bytes tell how two byte strings compare: not both are empty, and of two
strings with the same first byte the left one is not the greater. -/
def FirstBytesTell (l r : Bytes) : Prop :=
  l.data.head? = r.data.head? → l ≠ empty ∧ l ≤ r

/-- Where the first bytes tell the order, `operator<=` decides it, and nowhere else. -/
theorem lessOrEqual_iff_le_iff (l r : Bytes) :
    (lessOrEqual l r = true ↔ l ≤ r) ↔ FirstBytesTell l r := by
  unfold FirstBytesTell
  cases hl : l.data with
  | nil =>
    obtain rfl := eq_empty_of_data_eq_nil hl
    cases hr : r.data with
    | nil => simp [lessOrEqual_of_data_eq_nil hr, empty_le]
    | cons b upper =>
      have hle : lessOrEqual empty r = true := by
        rw [lessOrEqual, hl, hr]
        rfl
      simp [hle, empty_le]
  | cons a lower =>
    have hne : l ≠ empty := by
      rintro rfl
      cases hl
    cases hr : r.data with
    | nil =>
      obtain rfl := eq_empty_of_data_eq_nil hr
      have hlt : empty < l := lt_of_le_of_ne (empty_le l) hne.symm
      simp [lessOrEqual_of_data_eq_nil hr, hlt]
    | cons b upper =>
      rw [lessOrEqual_cons hl hr, decide_eq_true_iff, List.head?_cons, List.head?_cons, Option.some_inj]
      have horder : l < r ↔ a < b ∨ a = b ∧ lower < upper := by
        rw [lt_iff_data_lt, hl, hr, List.cons_lt_cons_iff]
      have hreverse : r < l ↔ b < a ∨ b = a ∧ upper < lower := by
        rw [lt_iff_data_lt, hl, hr, List.cons_lt_cons_iff]
      rcases lt_trichotomy a b with hlt | rfl | hgt
      · have hle : l ≤ r := (horder.mpr (Or.inl hlt)).le
        simp [hlt.le, hlt.ne, hle]
      · simp [hne]
      · have hnle : ¬ l ≤ r := (hreverse.mpr (Or.inl hgt)).not_ge
        simp [hgt.not_ge, hgt.ne', hnle]

/-- `operator<=` says of two byte strings what `operator<` says. -/
structure Agree (l r : Bytes) : Prop where
  less_or_eq : lessOrEqual l r = true ↔ less l r = true ∨ l = r
  not_less : lessOrEqual l r = true ↔ ¬ less r l = true

theorem agree_iff_le (l r : Bytes) : Agree l r ↔ (lessOrEqual l r = true ↔ l ≤ r) := by
  constructor
  · intro h
    rw [h.not_less, less_iff_lt, not_lt]
  · intro h
    constructor
    · rw [h, less_iff_lt, le_iff_lt_or_eq]
    · rw [h, less_iff_lt, not_lt]

/-- On a set of byte strings `operator<=` is a total order with `operator<` as its
strict part. -/
structure TotalOrderOn (strings : Set Bytes) : Prop where
  refl : ∀ l ∈ strings, lessOrEqual l l = true
  antisymm : ∀ l ∈ strings, ∀ r ∈ strings, lessOrEqual l r = true → lessOrEqual r l = true → l = r
  trans : ∀ l ∈ strings, ∀ m ∈ strings, ∀ r ∈ strings, lessOrEqual l m = true → lessOrEqual m r = true →
    lessOrEqual l r = true
  total : ∀ l ∈ strings, ∀ r ∈ strings, lessOrEqual l r = true ∨ lessOrEqual r l = true
  strict : ∀ l ∈ strings, ∀ r ∈ strings,
    less l r = true ↔ lessOrEqual l r = true ∧ ¬ lessOrEqual r l = true

theorem TotalOrderOn.le_iff {strings : Set Bytes} (h : TotalOrderOn strings) {l r : Bytes}
    (hl : l ∈ strings) (hr : r ∈ strings) : lessOrEqual l r = true ↔ l ≤ r := by
  have hstrict := h.strict r hr l hl
  rw [less_iff_lt] at hstrict
  constructor
  · intro hle
    by_contra hnot
    exact (hstrict.mp (not_le.mp hnot)).2 hle
  · intro hle
    rcases h.total l hl r hr with hboth | hboth
    · exact hboth
    · by_contra hnot
      exact hle.not_gt (hstrict.mpr ⟨hboth, hnot⟩)

theorem totalOrderOn_of_le_iff {strings : Set Bytes}
    (h : ∀ l ∈ strings, ∀ r ∈ strings, (lessOrEqual l r = true ↔ l ≤ r)) : TotalOrderOn strings where
  refl l hl := (h l hl l hl).mpr le_rfl
  antisymm l hl r hr hle hge := le_antisymm ((h l hl r hr).mp hle) ((h r hr l hl).mp hge)
  trans l hl m hm r hr hlower hupper :=
    (h l hl r hr).mpr (((h l hl m hm).mp hlower).trans ((h m hm r hr).mp hupper))
  total l hl r hr := by
    rw [h l hl r hr, h r hr l hl]
    exact le_total l r
  strict l hl r hr := by
    rw [less_iff_lt, h l hl r hr, h r hr l hl, lt_iff_le_not_ge]

/-- The two operators agree on a pair of byte strings exactly when the first bytes
tell the order. On a set, `operator<=` is a total order with `operator<` as its strict
part exactly when this is so of every pair in it. -/
theorem lessOrEqual_agrees_iff (l r : Bytes) (strings : Set Bytes) :
    (Agree l r ↔ FirstBytesTell l r) ∧
      (TotalOrderOn strings ↔ ∀ l ∈ strings, ∀ r ∈ strings, FirstBytesTell l r) := by
  constructor
  · rw [agree_iff_le, lessOrEqual_iff_le_iff]
  · constructor
    · intro h l hl r hr
      exact (lessOrEqual_iff_le_iff l r).mp (h.le_iff hl hr)
    · intro h
      apply totalOrderOn_of_le_iff
      intro l hl r hr
      exact (lessOrEqual_iff_le_iff l r).mpr (h l hl r hr)

/-- The bytes 1, 2 are less than or equal to the bytes 1, 1, and the empty string is
not less than or equal to itself. -/
theorem not_agree_sameFirstByte :
    ∃ l r : Bytes, l.data = [1, 2] ∧ r.data = [1, 1] ∧ lessOrEqual l r = true ∧ less r l = true ∧
      ¬ Agree l r ∧ ¬ Agree empty empty := by
  refine ⟨⟨[1, 2], by decide⟩, ⟨[1, 1], by decide⟩, rfl, rfl, by decide, by decide, ?_, ?_⟩
  · intro h
    exact h.not_less.mp (by decide) (by decide)
  · intro h
    exact absurd (h.less_or_eq.mpr (Or.inr rfl)) (by decide)

end tupl.Bytes
