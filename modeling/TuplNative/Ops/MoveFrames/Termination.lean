import TuplNative.Ops.MoveFrames.Entries
import TuplNative.RoundRobin

namespace tupl.pvt.ops

/-- What becomes of a frame at a position when the loop is at it: it goes to the end of the
list with its new position, or the loop leaves it behind. -/
def requeued (insertPos splitPos position : UInt64) : Option UInt64 :=
  if Spliced insertPos splitPos position then some (adjusted insertPos splitPos position) else none

/-- The loop splices a frame at this position each time, and leaves the position as it is. -/
def Stuck (insertPos splitPos position : UInt64) : Prop :=
  insertPos ≤ splitPos ∧ position < insertPos

instance (insertPos splitPos position : UInt64) : Decidable (Stuck insertPos splitPos position) :=
  inferInstanceAs (Decidable (_ ∧ _))

/-- Behind the split a position gets lower each time. Before it, it gets higher up to the
split. -/
def distance (insertPos splitPos position : UInt64) : Nat :=
  if splitPos < insertPos then position.toNat else splitPos.toNat - position.toNat

section Turns

variable {Node Frame : Type} [DecidableEq Node] [DecidableEq Frame] {source : Node}
  {insertPos splitPos : UInt64} {state : Frames Node Frame} {frame : Frame} {before after rest : List Frame}

/-- A round is a turn of the queue of the positions that are still to come. -/
theorem Between.turn (h : Between state source before (frame :: after)) (insertPos splitPos : UInt64) :
    ∃ before' rest', Between (state.afterRound source insertPos splitPos frame) source before' rest' ∧
      after.head? = rest'.head? ∧
      rest'.map (state.afterRound source insertPos splitPos frame).position =
        RoundRobin.turn (requeued insertPos splitPos) ((frame :: after).map state.position) := by
  have hafter : after.map (state.afterRound source insertPos splitPos frame).position =
      after.map state.position := List.map_congr_left fun other hother => h.afterRound_position hother
  by_cases hlast : after = []
  · subst hlast
    exact ⟨before ++ [frame], [], (h.step (Or.inr rfl)).1, rfl, RoundRobin.turn_singleton.symm⟩
  by_cases hspliced : Spliced insertPos splitPos (state.position frame)
  · have hself : (state.afterRound source insertPos splitPos frame).position frame =
        adjusted insertPos splitPos (state.position frame) := Function.update_self _ _ _
    have hrequeued : requeued insertPos splitPos (state.position frame) =
        some (adjusted insertPos splitPos (state.position frame)) := if_pos hspliced
    refine ⟨before, after ++ [frame], h.splice hspliced, (List.head?_append_of_ne_nil _ hlast).symm, ?_⟩
    rw [List.map_append, List.map_singleton, hafter, hself, List.map_cons,
      RoundRobin.turn_of_some hrequeued (by simpa using hlast)]
  · have hrequeued : requeued insertPos splitPos (state.position frame) = none := if_neg hspliced
    refine ⟨before ++ [frame], after, (h.step (Or.inl hspliced)).1, rfl, ?_⟩
    rw [hafter, List.map_cons, RoundRobin.turn_of_none hrequeued]

/-- Rounds are turns of that queue, as long as no frame comes to be at the insert position. -/
theorem Between.exec_turns (h : Between state source before rest) (ndebug : Bool) (rounds : Nat)
    (helsewhere : ∀ turns, insertPos ∉
      (RoundRobin.turn (requeued insertPos splitPos))^[turns] (rest.map state.position)) :
    ∃ (before' rest' : List Frame) (after : Frames Node Frame),
      (moveFramesFrom ndebug source insertPos splitPos rounds rest.head?).exec state =
        (.ok rest'.head?, after) ∧
      Between after source before' rest' ∧
      rest'.map after.position =
        (RoundRobin.turn (requeued insertPos splitPos))^[rounds] (rest.map state.position) := by
  induction rounds generalizing state before rest with
  | zero => exact ⟨before, rest, state, rfl, h, rfl⟩
  | succ rounds ih =>
    cases rest with
    | nil =>
      refine ⟨before, [], state, rfl, h, ?_⟩
      exact (Function.iterate_fixed rfl _).symm
    | cons frame after =>
      have hpos : state.position frame ≠ insertPos := by
        intro hpos
        apply helsewhere 0
        rw [Function.iterate_zero, id_eq, List.map_cons, hpos]
        exact List.mem_cons_self
      obtain ⟨before', rest', hbetween, hnext, hturn⟩ := h.turn insertPos splitPos
      rw [h.exec_round hpos, hnext, Function.iterate_succ_apply, ← hturn]
      apply ih hbetween
      intro turns
      rw [hturn, ← Function.iterate_succ_apply]
      exact helsewhere (turns + 1)

end Turns

section Positions

variable {insertPos splitPos position : UInt64} {size : Nat}

/-- In a split to the right a frame that goes to the end has a lower position than before. -/
theorem adjusted_right (hsplitPos : splitPos.toNat = (size + 1) / 2) (hright : splitPos < insertPos)
    (hwithin : position.toNat < size) (helsewhere : position ≠ insertPos) (hbehind : splitPos ≤ position) :
    adjusted insertPos splitPos position < insertPos ∧
      (adjusted insertPos splitPos position).toNat < position.toNat := by
  have hle := UInt64.le_iff_toNat_le.mp hbehind
  have hlt := UInt64.lt_iff_toNat_lt.mp hright
  have hsub := UInt64.toNat_sub_of_le _ _ hbehind
  rw [adjusted, if_pos hbehind, UInt64.lt_iff_toNat_lt]
  by_cases hbefore : position < insertPos
  · rw [if_pos hbefore, hsub]
    omega
  · have hafter : insertPos < position := by
      rw [UInt64.lt_iff_toNat_lt] at hbefore ⊢
      have hne : position.toNat ≠ insertPos.toNat := fun hsame => helsewhere (UInt64.toNat_inj.mp hsame)
      omega
    have hnat := UInt64.lt_iff_toNat_lt.mp hafter
    have := position.toNat_lt
    rw [if_neg hbefore, if_pos hafter, UInt64.toNat_add, hsub, UInt64.toNat_one]
    omega

/-- In a split to the left a frame that goes to the end from behind the new entry has the
next position. -/
theorem adjusted_left_before (hafter : insertPos < position) (hbefore : position < splitPos) :
    (adjusted insertPos splitPos position).toNat = position.toNat + 1 := by
  have hlt := UInt64.lt_iff_toNat_lt.mp hbefore
  have := splitPos.toNat_lt
  rw [adjusted, if_neg (UInt64.not_le.mpr hbefore), if_neg (UInt64.lt_asymm hafter), if_pos hafter,
    UInt64.toNat_add, UInt64.toNat_one]
  omega

/-- The loop wears down every position except for those before the new entry in a split to
the left. -/
theorem wears (insertPos : UInt64) (hsplitPos : splitPos.toNat = (size + 1) / 2) :
    RoundRobin.Wears (requeued insertPos splitPos)
      (fun position => position.toNat < size ∧ position ≠ insertPos) (Stuck insertPos splitPos)
      (distance insertPos splitPos) where
  stays := by
    rintro position ⟨_, _⟩ ⟨hleft, hlt⟩
    have hbefore := UInt64.lt_of_lt_of_le hlt hleft
    have hspliced : Spliced insertPos splitPos position := Or.inr ⟨hbefore, hleft⟩
    rw [requeued, if_pos hspliced, adjusted, if_neg (UInt64.not_le.mpr hbefore), if_pos hlt]
  wears := by
    rintro position again ⟨hwithin, helsewhere⟩ hmoves hagain
    obtain ⟨hspliced, hagain⟩ := Option.ite_none_right_eq_some.mp hagain
    obtain rfl := Option.some.inj hagain
    rcases hspliced with ⟨hbehind, hright⟩ | ⟨hbefore, hleft⟩
    · obtain ⟨hlt, hlower⟩ := adjusted_right hsplitPos hright hwithin helsewhere hbehind
      refine ⟨⟨Nat.lt_trans hlower hwithin, UInt64.ne_of_lt hlt⟩, ?_, ?_⟩
      · exact fun hstuck => UInt64.not_le.mpr hright hstuck.1
      · rwa [distance, distance, if_pos hright, if_pos hright]
    · have hafter : insertPos < position := by
        refine UInt64.lt_of_le_of_ne ?_ (Ne.symm helsewhere)
        exact UInt64.not_lt.mp fun hlt => hmoves ⟨hleft, hlt⟩
      have hnext := adjusted_left_before hafter hbefore
      have hgt := UInt64.lt_iff_toNat_lt.mp hafter
      have hlt := UInt64.lt_iff_toNat_lt.mp hbefore
      have hbehind : insertPos < adjusted insertPos splitPos position := by
        rw [UInt64.lt_iff_toNat_lt, hnext]
        omega
      refine ⟨⟨?_, (UInt64.ne_of_lt hbehind).symm⟩, fun hstuck => UInt64.lt_asymm hbehind hstuck.2, ?_⟩
      · omega
      · rw [distance, distance, if_neg (UInt64.not_lt.mpr hleft), if_neg (UInt64.not_lt.mpr hleft), hnext]
        omega

/-- At most one position is stuck exactly if the new entry goes behind the split, or at most one
is before it. -/
theorem countP_stuck_le_one_iff (positions : List UInt64) :
    positions.countP (Stuck insertPos splitPos ·) ≤ 1 ↔
      splitPos < insertPos ∨ positions.countP (· < insertPos) ≤ 1 := by
  by_cases hright : splitPos < insertPos
  · have hnone : positions.countP (Stuck insertPos splitPos ·) = 0 := by
      rw [List.countP_eq_zero]
      intro position _ hstuck
      exact UInt64.not_le.mpr hright (of_decide_eq_true hstuck).1
    rw [hnone]
    exact iff_of_true (Nat.zero_le 1) (Or.inl hright)
  · have hstuck : ∀ position, Stuck insertPos splitPos position ↔ position < insertPos :=
      fun position => and_iff_right (UInt64.not_lt.mp hright)
    rw [or_iff_right hright]
    simp only [hstuck]

end Positions

variable {Node Frame : Type} [DecidableEq Node] [DecidableEq Frame] {source sibling : Node}
  {original : slow.LeafNode} {insertPos splitPos : UInt64} {frames : Frames Node Frame}

/-- After a split, `moveFrames` returns exactly if the new entry goes behind the split, or
at most one frame is on an entry before the new one. Two such frames are taken out and put
at the end in turn for ever: after any number of rounds the loop is at a frame of the list. -/
theorem moveFrames_ends_iff (ndebug : Bool) (hvisiting : Visiting source sibling original insertPos frames)
    (hsplitPos : splitPos.toNat = original.splitBegin) :
    ((∃ rounds after, (moveFrames ndebug source sibling insertPos splitPos rounds).exec frames =
        (.ok none, after)) ↔
      splitPos < insertPos ∨
        ((frames.visitorFrames source).filter (frames.position · < insertPos)).length ≤ 1) ∧
    (¬ (splitPos < insertPos ∨
        ((frames.visitorFrames source).filter (frames.position · < insertPos)).length ≤ 1) →
      ∀ rounds, ∃ frame after, (moveFrames ndebug source sibling insertPos splitPos rounds).exec frames =
        (.ok (some frame), after) ∧ frame ∈ after.visitorFrames source) := by
  have hwears := wears insertPos hsplitPos
  have hkept : ∀ position ∈ (frames.visitorFrames source).map frames.position,
      position.toNat < original.mChildren.length ∧ position ≠ insertPos := by
    intro position hposition
    obtain ⟨frame, hframe, rfl⟩ := List.mem_map.mp hposition
    exact ⟨hvisiting.within frame hframe, hvisiting.elsewhere frame hframe⟩
  have hexec := fun rounds => hvisiting.between.exec_turns ndebug rounds fun turns hmem =>
    (hwears.kept_turns hkept turns insertPos hmem).2 rfl
  have hends : (∃ rounds after, (moveFrames ndebug source sibling insertPos splitPos rounds).exec frames =
      (.ok none, after)) ↔ ∃ turns, (RoundRobin.turn (requeued insertPos splitPos))^[turns]
        ((frames.visitorFrames source).map frames.position) = [] := by
    constructor
    · rintro ⟨rounds, after, hended⟩
      obtain ⟨_, rest, after', hrounds, _, hturns⟩ := hexec rounds
      have hnone := Except.ok.inj (Prod.mk.inj (hrounds.symm.trans hended)).1
      exact ⟨rounds, by rw [← hturns, List.head?_eq_none_iff.mp hnone, List.map_nil]⟩
    · rintro ⟨rounds, hempty⟩
      obtain ⟨_, rest, after, hrounds, _, hturns⟩ := hexec rounds
      rw [hempty, List.map_eq_nil_iff] at hturns
      subst hturns
      exact ⟨rounds, after, hrounds⟩
  have hiff : (∃ rounds after, (moveFrames ndebug source sibling insertPos splitPos rounds).exec frames =
      (.ok none, after)) ↔ splitPos < insertPos ∨
        ((frames.visitorFrames source).filter (frames.position · < insertPos)).length ≤ 1 := by
    rw [hends, hwears.ends_iff hkept, countP_stuck_le_one_iff, List.countP_map, List.countP_eq_length_filter]
    rfl
  refine ⟨hiff, fun hmisses rounds => ?_⟩
  obtain ⟨before, rest, after, hrounds, hbetween, _⟩ := hexec rounds
  cases rest with
  | nil => exact absurd (hiff.mp ⟨rounds, after, hrounds⟩) hmisses
  | cons frame rest =>
    refine ⟨frame, after, hrounds, ?_⟩
    rw [hbetween.list]
    exact List.mem_append_right _ List.mem_cons_self

/-- Two frames on the first entries of a leaf. -/
def frontFrames : Frames Bool Nat where
  visitorFrames := fun node => if node then [] else [0, 1]
  position := fun frame => UInt64.ofNat frame

theorem visiting_frontFrames {insertPos : UInt64} (hinsertPos : 2 ≤ insertPos) :
    Visiting false true fullLeaf insertPos frontFrames where
  nodup := by decide
  onlyHere _ _ := List.not_mem_nil
  within := by decide
  elsewhere := by
    have hlow : ∀ frame ∈ frontFrames.visitorFrames false, frontFrames.position frame < 2 := by decide
    rintro frame hframe rfl
    exact UInt64.not_le.mpr (hlow frame hframe) hinsertPos

/-- The loop is done with both if the new entry goes behind all others, and never if it
goes to the split. -/
theorem moveFrames_ends_frontFrames :
    (∃ rounds after, (moveFrames true false true 4 2 rounds).exec frontFrames = (.ok none, after)) ∧
      ∀ rounds, ∃ frame after, (moveFrames true false true 2 2 rounds).exec frontFrames =
        (.ok (some frame), after) ∧ frame ∈ after.visitorFrames false := by
  have hsplitPos : (2 : UInt64).toNat = fullLeaf.splitBegin := rfl
  refine ⟨(moveFrames_ends_iff true (visiting_frontFrames (by decide)) hsplitPos).1.mpr (by decide), ?_⟩
  exact (moveFrames_ends_iff true (visiting_frontFrames (by decide)) hsplitPos).2 (by decide)

end tupl.pvt.ops
