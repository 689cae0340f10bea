import Mathlib.Data.List.Basic
import TuplNative.Call

namespace std

variable {α σ ε : Type} {m : Type → Type}

/-- The loop of `std::lower_bound` on the remaining range: the middle element is
compared, and the search goes on above or below it. The position is counted
from the start of the range. -/
def lowerBoundRounds [Monad m] (comp : α → m Bool) : Nat → List α → m Nat
  | 0, _ => pure 0
  | rounds + 1, range =>
    match range.drop (range.length / 2) with
    | [] => pure 0
    | middle :: upper => do
      if ← comp middle then
        let rest ← lowerBoundRounds comp rounds upper
        pure (range.length / 2 + 1 + rest)
      else
        lowerBoundRounds comp rounds (range.take (range.length / 2))

/-- `std::lower_bound(first, last, key, comp)` with an effectful comparator;
`comp` stands for `comp(*it, key)`. Every round at least halves the range, so
its length bounds the number of rounds. -/
def lowerBoundM [Monad m] (comp : α → m Bool) (range : List α) : m Nat :=
  lowerBoundRounds comp range.length range

/-- `std::lower_bound` with a comparator that has no effects. -/
def lowerBound (comp : α → Bool) (range : List α) : Nat :=
  Id.run (lowerBoundM (fun a => pure (comp a)) range)

/-- A range that still holds an element is cut at its middle one. -/
theorem exists_middle (range : List α) (hne : range ≠ []) :
    ∃ lower middle upper, range = lower ++ middle :: upper ∧ range.length / 2 = lower.length := by
  have hpositive : 0 < range.length := List.length_pos_of_ne_nil hne
  have hinside : range.length / 2 < range.length := by omega
  refine ⟨range.take (range.length / 2), range[range.length / 2], range.drop (range.length / 2 + 1),
    ?_, ?_⟩
  · rw [← List.drop_eq_getElem_cons hinside, List.take_append_drop]
  · rw [List.length_take]
    omega

theorem lowerBoundRounds_nil [Monad m] (comp : α → m Bool) (rounds : Nat) :
    lowerBoundRounds comp rounds [] = pure 0 := by
  cases rounds <;> simp [lowerBoundRounds]

/-- One round on a range cut at its middle element. -/
theorem lowerBoundRounds_middle [Monad m] (comp : α → m Bool) (rounds : Nat)
    {lower upper : List α} {middle : α} (hmiddle : (lower ++ middle :: upper).length / 2 = lower.length) :
    lowerBoundRounds comp (rounds + 1) (lower ++ middle :: upper) = (do
      if ← comp middle then
        let rest ← lowerBoundRounds comp rounds upper
        pure (lower.length + 1 + rest)
      else
        lowerBoundRounds comp rounds lower) := by
  rw [lowerBoundRounds, hmiddle, List.drop_left, List.take_left]

/-- The loop rule of the search. `inv below range above` describes the state
when the elements `below` have been passed, those `above` ruled out and `range`
is left. If comparing any element of the range returns the verdict of a pure
test and keeps `inv` for the half the search goes on in, then the whole search
returns the position the pure test finds, with nothing left. -/
theorem lowerBoundRounds_exec (comp : α → Call ε σ Bool) (test : α → Bool)
    (inv : List α → List α → List α → σ → Prop)
    (hstep : ∀ below lower middle upper above s,
      inv below (lower ++ middle :: upper) above s →
      ∃ s', (comp middle).exec s = (.ok (test middle), s') ∧
        (test middle = true → inv (below ++ lower ++ [middle]) upper above s') ∧
        (test middle = false → inv below lower (middle :: upper ++ above) s')) :
    ∀ rounds below range above s, range.length ≤ rounds → inv below range above s →
      ∃ s', (lowerBoundRounds comp rounds range).exec s =
          (.ok (Id.run (lowerBoundRounds (fun a => pure (test a)) rounds range)), s') ∧
        ∃ passed refused, range = passed ++ refused ∧
          passed.length = Id.run (lowerBoundRounds (fun a => pure (test a)) rounds range) ∧
          inv (below ++ passed) [] (refused ++ above) s' := by
  intro rounds
  induction rounds with
  | zero =>
    intro below range above s hlen hinv
    have hnil : range = [] := List.eq_nil_of_length_eq_zero (by omega)
    subst hnil
    exact ⟨s, rfl, [], [], rfl, rfl, by simpa using hinv⟩
  | succ rounds ih =>
    intro below range above s hlen hinv
    by_cases hne : range = []
    · subst hne
      simp only [lowerBoundRounds_nil]
      exact ⟨s, rfl, [], [], rfl, rfl, by simpa using hinv⟩
    obtain ⟨lower, middle, upper, rfl, hmiddle⟩ := exists_middle range hne
    obtain ⟨s', hcomp, habove, hbelow⟩ := hstep below lower middle upper above s hinv
    simp only [List.length_append, List.length_cons] at hlen
    simp only [lowerBoundRounds_middle _ _ hmiddle]
    rw [Call.exec_bind_ok hcomp]
    cases htest : test middle with
    | true =>
      obtain ⟨final, hrun, passed, refused, hsplit, hpos, hfinal⟩ :=
        ih _ upper above s' (by omega) (habove htest)
      refine ⟨final, ?_, lower ++ middle :: passed, refused, by simp [hsplit], ?_, ?_⟩
      · simp only [if_true, pure_bind]
        rw [Call.exec_bind_ok hrun]
        rfl
      · simp [hpos]
        omega
      · simpa using hfinal
    | false =>
      obtain ⟨final, hrun, passed, refused, hsplit, hpos, hfinal⟩ :=
        ih below lower _ s' (by omega) (hbelow htest)
      refine ⟨final, by simpa using hrun, passed, refused ++ middle :: upper, by simp [hsplit],
        by simpa using hpos, ?_⟩
      simpa using hfinal

/-- The loop rule for a whole range. -/
theorem lowerBoundM_exec (comp : α → Call ε σ Bool) (test : α → Bool)
    (inv : List α → List α → List α → σ → Prop)
    (hstep : ∀ below lower middle upper above s,
      inv below (lower ++ middle :: upper) above s →
      ∃ s', (comp middle).exec s = (.ok (test middle), s') ∧
        (test middle = true → inv (below ++ lower ++ [middle]) upper above s') ∧
        (test middle = false → inv below lower (middle :: upper ++ above) s'))
    (range : List α) (s : σ) (hinv : inv [] range [] s) :
    ∃ s', (lowerBoundM comp range).exec s = (.ok (lowerBound test range), s') ∧
      ∃ passed refused, range = passed ++ refused ∧ passed.length = lowerBound test range ∧
        inv passed [] refused s' := by
  obtain ⟨s', hrun, passed, refused, hsplit, hpos, hfinal⟩ :=
    lowerBoundRounds_exec comp test inv hstep range.length [] range [] s (Nat.le_refl _) hinv
  exact ⟨s', hrun, passed, refused, hsplit, hpos, by simpa using hfinal⟩

/-- The search stays within its range, sorted or not. -/
theorem lowerBound_le_length (test : α → Bool) (range : List α) :
    lowerBound test range ≤ range.length := by
  obtain ⟨_, _, passed, refused, hsplit, hpos, _⟩ :=
    lowerBoundM_exec (fun a => (pure (test a) : Call Empty Unit Bool)) test (fun _ _ _ _ => True)
      (fun _ _ _ _ _ s _ => ⟨s, rfl, fun _ => trivial, fun _ => trivial⟩) range () trivial
  have := congrArg List.length hsplit
  simp only [List.length_append] at this
  omega

/-- Where every element before a passing one passes too, the search cuts the
range into the elements that pass and the elements that do not. -/
theorem lowerBound_spec (test : α → Bool) (range : List α)
    (hmono : range.Pairwise (fun a b => test b = true → test a = true)) :
    ∃ passed refused, range = passed ++ refused ∧ passed.length = lowerBound test range ∧
      (∀ a ∈ passed, test a = true) ∧ (∀ a ∈ refused, test a = false) := by
  let inv : List α → List α → List α → Unit → Prop := fun below left above _ =>
    below ++ left ++ above = range ∧ (∀ a ∈ below, test a = true) ∧ (∀ a ∈ above, test a = false)
  have hstep : ∀ below lower middle upper above s, inv below (lower ++ middle :: upper) above s →
      ∃ s', (pure (test middle) : Call Empty Unit Bool).exec s = (.ok (test middle), s') ∧
        (test middle = true → inv (below ++ lower ++ [middle]) upper above s') ∧
        (test middle = false → inv below lower (middle :: upper ++ above) s') := by
    rintro below lower middle upper above s ⟨hwhole, hbelow, habove⟩
    have hsorted : (lower ++ middle :: upper).Pairwise (fun a b => test b = true → test a = true) := by
      rw [← hwhole] at hmono
      exact (List.pairwise_append.mp (List.pairwise_append.mp hmono).1).2.1
    obtain ⟨_, hupper, hlower⟩ := List.pairwise_append.mp hsorted
    refine ⟨s, rfl, fun htest => ⟨by simpa using hwhole, ?_, habove⟩,
      fun htest => ⟨by simpa using hwhole, hbelow, ?_⟩⟩
    · intro a ha
      simp only [List.mem_append, List.mem_singleton] at ha
      rcases ha with (ha | ha) | rfl
      · exact hbelow a ha
      · exact hlower a ha middle List.mem_cons_self htest
      · exact htest
    · intro a ha
      simp only [List.cons_append, List.mem_cons, List.mem_append] at ha
      rcases ha with rfl | ha | ha
      · exact htest
      · have := (List.pairwise_cons.mp hupper).1 a ha
        cases hpass : test a with
        | false => rfl
        | true => rw [this hpass] at htest; cases htest
      · exact habove a ha
  obtain ⟨_, _, passed, refused, hsplit, hpos, _, hpassed, hrefused⟩ :=
    lowerBoundM_exec (fun a => pure (test a)) test inv hstep range () ⟨by simp, by simp, by simp⟩
  exact ⟨passed, refused, hsplit, hpos, hpassed, hrefused⟩

end std
