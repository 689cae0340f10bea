import Mathlib.Algebra.BigOperators.Group.List.Basic
import Mathlib.Algebra.Order.Ring.Nat
import Mathlib.Logic.Function.Iterate

namespace RoundRobin

variable {α : Type}

/-- The first of the queue is served. It leaves, or it goes behind the others as the
service made it. There it is done as well if there are no others. -/
def turn (serve : α → Option α) : List α → List α
  | [] => []
  | first :: others =>
    match serve first, others with
    | none, others => others
    | some _, [] => []
    | some again, others => others ++ [again]

/-- Where the service leaves as they are those that are stuck, and wears down the others
until they leave. -/
structure Wears (serve : α → Option α) (kept stuck : α → Prop) (weight : α → Nat) : Prop where
  stays : ∀ a, kept a → stuck a → serve a = some a
  wears : ∀ a again, kept a → ¬ stuck a → serve a = some again →
    kept again ∧ ¬ stuck again ∧ weight again < weight a

section Turn

variable {serve : α → Option α} {first again : α} {others : List α}

theorem turn_of_none (hserve : serve first = none) : turn serve (first :: others) = others := by
  simp only [turn, hserve]

theorem turn_singleton : turn serve [first] = [] := by
  cases hserve : serve first <;> simp only [turn, hserve]

theorem turn_of_some (hserve : serve first = some again) (hothers : others ≠ []) :
    turn serve (first :: others) = others ++ [again] := by
  cases others with
  | nil => exact absurd rfl hothers
  | cons second rest => simp only [turn, hserve]

end Turn

variable {serve : α → Option α} {kept stuck : α → Prop} {weight : α → Nat} {first : α} {others queue : List α}

theorem Wears.kept_again (h : Wears serve kept stuck weight) {again : α} (hkept : kept first)
    (hserve : serve first = some again) : kept again := by
  by_cases hstuck : stuck first
  · rw [h.stays first hkept hstuck] at hserve
    rwa [← Option.some.inj hserve]
  · exact (h.wears first again hkept hstuck hserve).1

theorem Wears.kept_turn (h : Wears serve kept stuck weight) (hkept : ∀ a ∈ queue, kept a) :
    ∀ a ∈ turn serve queue, kept a := by
  cases queue with
  | nil => exact fun a ha => absurd ha List.not_mem_nil
  | cons first others =>
    have hfirst := hkept first List.mem_cons_self
    have hothers : ∀ a ∈ others, kept a := fun a ha => hkept a (List.mem_cons_of_mem _ ha)
    cases hserve : serve first with
    | none => rwa [turn_of_none hserve]
    | some again =>
      by_cases hlast : others = []
      · subst hlast
        rwa [turn_singleton]
      · rw [turn_of_some hserve hlast]
        intro a ha
        rcases List.mem_append.mp ha with ha | ha
        · exact hothers a ha
        · rw [List.mem_singleton.mp ha]
          exact h.kept_again hfirst hserve

theorem Wears.kept_turns (h : Wears serve kept stuck weight) (hkept : ∀ a ∈ queue, kept a) (turns : Nat) :
    ∀ a ∈ (turn serve)^[turns] queue, kept a := by
  induction turns with
  | zero => exact hkept
  | succ turns ih =>
    rw [Function.iterate_succ_apply']
    exact h.kept_turn ih

variable [DecidablePred stuck]

/-- A turn changes nothing about how many are stuck, unless it is the last one. -/
theorem Wears.countP_turn (h : Wears serve kept stuck weight) (hkept : ∀ a ∈ first :: others, kept a)
    (hothers : others ≠ []) :
    (turn serve (first :: others)).countP (stuck ·) = (first :: others).countP (stuck ·) := by
  have hfirst := hkept first List.mem_cons_self
  by_cases hstuck : stuck first
  · rw [turn_of_some (h.stays first hfirst hstuck) hothers]
    exact (List.perm_append_singleton first others).countP_eq _
  · rw [List.countP_cons_of_neg (by simpa using hstuck)]
    cases hserve : serve first with
    | none => rw [turn_of_none hserve]
    | some again =>
      have hagain := (h.wears first again hfirst hstuck hserve).2.1
      rw [turn_of_some hserve hothers, List.countP_append, List.countP_singleton,
        if_neg (by simpa using hagain), Nat.add_zero]

/-- Two that are stuck keep the queue from getting empty. -/
theorem Wears.stuck_turns (h : Wears serve kept stuck weight) (hkept : ∀ a ∈ queue, kept a)
    (hstuck : 2 ≤ queue.countP (stuck ·)) (turns : Nat) :
    2 ≤ ((turn serve)^[turns] queue).countP (stuck ·) := by
  induction turns with
  | zero => exact hstuck
  | succ turns ih =>
    rw [Function.iterate_succ_apply']
    have hall := h.kept_turns hkept turns
    cases hqueue : (turn serve)^[turns] queue with
    | nil =>
      rw [hqueue, List.countP_nil] at ih
      omega
    | cons first others =>
      rw [hqueue] at ih hall
      rwa [h.countP_turn hall]
      rintro rfl
      have := List.countP_le_length (p := (stuck ·)) (l := [first])
      rw [List.length_singleton] at this
      omega

/-- A bound for the turns that a queue takes with at most one that is stuck. -/
def toGo (stuck : α → Prop) [DecidablePred stuck] (weight : α → Nat) (queue : List α) : Nat :=
  2 * (queue.map fun a => if stuck a then 0 else weight a + 1).sum +
    if ∃ first ∈ queue.head?, stuck first then 1 else 0

theorem toGo_le (queue : List α) :
    toGo stuck weight queue ≤ 2 * (queue.map fun a => if stuck a then 0 else weight a + 1).sum + 1 := by
  unfold toGo
  split <;> omega

/-- Behind the only one that is stuck comes one that is not. -/
theorem toGo_turn_of_stuck (hserve : serve first = some first) (hfirst : stuck first) (hothers : others ≠ [])
    (hone : (first :: others).countP (stuck ·) ≤ 1) :
    toGo stuck weight (turn serve (first :: others)) < toGo stuck weight (first :: others) := by
  have hnext : ¬ ∃ next ∈ (others ++ [first]).head?, stuck next := by
    rintro ⟨next, hnext, hstuck⟩
    rw [List.head?_append_of_ne_nil _ hothers] at hnext
    have hpos : 0 < others.countP (stuck ·) :=
      List.countP_pos_iff.mpr ⟨next, List.mem_of_mem_head? hnext, decide_eq_true hstuck⟩
    rw [List.countP_cons, if_pos (decide_eq_true hfirst)] at hone
    omega
  rw [turn_of_some hserve hothers]
  unfold toGo
  rw [if_neg hnext, if_pos ⟨first, rfl, hfirst⟩, ((List.perm_append_singleton first others).map _).sum_eq]
  omega

/-- Each turn of one that is not stuck brings the queue nearer to the end. -/
theorem Wears.toGo_turn_of_not_stuck (h : Wears serve kept stuck weight) (hkept : kept first)
    (hfirst : ¬ stuck first) :
    toGo stuck weight (turn serve (first :: others)) < toGo stuck weight (first :: others) := by
  have hbefore : 2 * (others.map fun a => if stuck a then 0 else weight a + 1).sum + 2 * (weight first + 1) ≤
      toGo stuck weight (first :: others) := by
    unfold toGo
    rw [List.map_cons, List.sum_cons, if_neg hfirst]
    omega
  apply Nat.lt_of_le_of_lt (toGo_le _)
  by_cases hlast : others = []
  · subst hlast
    rw [turn_singleton, List.map_nil, List.sum_nil]
    omega
  cases hserve : serve first with
  | none =>
    rw [turn_of_none hserve]
    omega
  | some again =>
    obtain ⟨_, hagain, hlt⟩ := h.wears first again hkept hfirst hserve
    rw [turn_of_some hserve hlast, List.map_append, List.sum_append, List.map_singleton, List.sum_singleton,
      if_neg hagain]
    omega

theorem Wears.toGo_turn (h : Wears serve kept stuck weight) (hkept : kept first)
    (hone : (first :: others).countP (stuck ·) ≤ 1) :
    toGo stuck weight (turn serve (first :: others)) < toGo stuck weight (first :: others) := by
  by_cases hfirst : stuck first
  · by_cases hlast : others = []
    · subst hlast
      rw [turn_singleton]
      simp [toGo, hfirst]
    · exact toGo_turn_of_stuck (h.stays first hkept hfirst) hfirst hlast hone
  · exact h.toGo_turn_of_not_stuck hkept hfirst

/-- The queue gets empty exactly if at most one in it is stuck. -/
theorem Wears.ends_iff (h : Wears serve kept stuck weight) (hkept : ∀ a ∈ queue, kept a) :
    (∃ turns, (turn serve)^[turns] queue = []) ↔ queue.countP (stuck ·) ≤ 1 := by
  constructor
  · rintro ⟨turns, hempty⟩
    by_contra hseveral
    have hstuck := h.stuck_turns hkept (by omega) turns
    rw [hempty, List.countP_nil] at hstuck
    omega
  · intro hone
    induction hn : toGo stuck weight queue using Nat.strongRecOn generalizing queue with
    | _ n ih =>
      subst hn
      cases queue with
      | nil => exact ⟨0, rfl⟩
      | cons first others =>
        have hnear := h.toGo_turn (hkept first List.mem_cons_self) hone
        by_cases hlast : others = []
        · exact ⟨1, by rw [hlast, Function.iterate_one, turn_singleton]⟩
        · obtain ⟨turns, hempty⟩ := ih _ hnear (h.kept_turn hkept)
            (Nat.le_trans (Nat.le_of_eq (h.countP_turn hkept hlast)) hone) rfl
          exact ⟨turns + 1, hempty⟩

end RoundRobin
