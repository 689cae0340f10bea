import Mathlib.Data.List.Infix
import Mathlib.Data.List.Nodup
import TuplNative.LinkedList
import TuplNative.Ops.MoveFrames

namespace tupl.pvt.ops

/-- The loop takes the frame at a position out of its list. It goes to the end of the
list again. -/
def Spliced (insertPos splitPos position : UInt64) : Prop :=
  splitPos ≤ position ∧ splitPos < insertPos ∨ position < splitPos ∧ insertPos ≤ splitPos

instance (insertPos splitPos position : UInt64) : Decidable (Spliced insertPos splitPos position) :=
  inferInstanceAs (Decidable (_ ∨ _))

/-- What the loop makes of a position. -/
def adjusted (insertPos splitPos position : UInt64) : UInt64 :=
  if splitPos ≤ position then
    if position < insertPos then position - splitPos
    else if insertPos < position then position - splitPos + 1
    else position
  else
    if position < insertPos then position
    else if insertPos < position then position + 1
    else position

variable {Node Frame : Type} [DecidableEq Frame]

namespace Frames

/-- The frames once the loop has been at one of them. -/
def afterRound [DecidableEq Node] (state : Frames Node Frame) (source : Node) (insertPos splitPos : UInt64)
    (frame : Frame) : Frames Node Frame where
  visitorFrames :=
    if Spliced insertPos splitPos (state.position frame) then
      Function.update state.visitorFrames source ((state.visitorFrames source).erase frame ++ [frame])
    else state.visitorFrames
  position := Function.update state.position frame (adjusted insertPos splitPos (state.position frame))

variable {state : Frames Node Frame} {source : Node} {frame : Frame} {before after : List Frame}

theorem exec_advance (hlist : state.visitorFrames source = before ++ frame :: after)
    (hbefore : frame ∉ before) :
    (advance source frame).exec state = (.ok after.head?, state) := by
  have hmem : frame ∈ state.visitorFrames source := by
    rw [hlist]
    exact List.mem_append_right _ List.mem_cons_self
  have hnext : (state.visitorFrames source)[(state.visitorFrames source).idxOf frame + 1]? = after.head? := by
    rw [hlist, List.idxOf_append_of_notMem hbefore, List.idxOf_cons_self, Nat.add_zero,
      List.getElem?_append_right (Nat.le_add_right _ 1), Nat.add_sub_cancel_left, List.getElem?_cons_succ,
      List.head?_eq_getElem?]
  unfold advance
  rw [Call.exec_get_bind]
  dsimp only
  rw [if_neg (not_not.mpr hmem), hnext]
  rfl

theorem exec_splice [DecidableEq Node] (hmem : frame ∈ state.visitorFrames source) :
    (splice source source frame).exec state = (.ok (), { state with
      visitorFrames :=
        Function.update state.visitorFrames source ((state.visitorFrames source).erase frame ++ [frame]) }) := by
  unfold splice
  rw [Call.exec_get_bind, if_neg (not_not.mpr hmem)]
  dsimp only
  rw [Function.update_self, Function.update_idem]
  rfl

end Frames

section Round

variable [DecidableEq Node] {ndebug : Bool} {source : Node} {insertPos splitPos : UInt64}
  {state : Frames Node Frame} {frame : Frame} {before after : List Frame}

omit [DecidableEq Frame] [DecidableEq Node] in
theorem exec_assertFalse_disabled (state : Frames Node Frame) :
    (Frames.assertFalse true).exec state = (.ok (), state) :=
  Call.exec_within_ok (exec_assert_ndebug _ _)

/-- The end of both branches of a round. -/
theorem exec_splice_if {α : Type} (p : Prop) [Decidable p] (a : α)
    (hmem : frame ∈ state.visitorFrames source) :
    (if p then do
        Frames.splice source source frame
        pure a
      else pure a : Call Fault (Frames Node Frame) α).exec state = (.ok a, { state with
        visitorFrames := if p then
            Function.update state.visitorFrames source ((state.visitorFrames source).erase frame ++ [frame])
          else state.visitorFrames }) := by
  by_cases hp : p
  · rw [if_pos hp, if_pos hp, Call.exec_bind_ok (Frames.exec_splice hmem)]
    rfl
  · rw [if_neg hp, if_neg hp]
    rfl

/-- One round at a frame of the source: the iterator goes on to the next frame, and then
the frame gets its new position and may be spliced. Only with assertions enabled a frame
at the insert position aborts. -/
theorem exec_moveFrame (hlist : state.visitorFrames source = before ++ frame :: after)
    (hbefore : frame ∉ before) (hpos : ndebug = true ∨ state.position frame ≠ insertPos) :
    (moveFrame ndebug source insertPos splitPos frame).exec state =
      (.ok after.head?, state.afterRound source insertPos splitPos frame) := by
  have hmem : frame ∈ state.visitorFrames source := by
    rw [hlist]
    exact List.mem_append_right _ List.mem_cons_self
  have hkept : Function.update state.position frame (state.position frame) = state.position :=
    Function.update_eq_self _ _
  have hequal : ¬ state.position frame < insertPos → ¬ insertPos < state.position frame → ndebug = true := by
    intro hlt hgt
    refine hpos.resolve_right fun hne => hne ?_
    exact UInt64.le_antisymm (UInt64.not_lt.mp hgt) (UInt64.not_lt.mp hlt)
  unfold moveFrame Frames.afterRound Spliced adjusted Frames.setPosition
  rw [Call.exec_bind_ok (Frames.exec_advance hlist hbefore), Call.exec_get_bind]
  dsimp only
  by_cases hsplit : splitPos ≤ state.position frame
  · simp only [hsplit, UInt64.not_lt.mpr hsplit, gt_iff_lt, if_true, true_and, false_and, or_false]
    by_cases hlt : state.position frame < insertPos
    · rw [if_pos hlt, if_pos hlt, Call.exec_modify_bind]
      exact exec_splice_if _ _ hmem
    rw [if_neg hlt, if_neg hlt]
    by_cases hgt : insertPos < state.position frame
    · rw [if_pos hgt, if_pos hgt, Call.exec_modify_bind]
      exact exec_splice_if _ _ hmem
    · obtain rfl := hequal hlt hgt
      rw [if_neg hgt, if_neg hgt, Call.exec_bind_ok (exec_assertFalse_disabled _), exec_splice_if _ _ hmem,
        hkept]
  · simp only [hsplit, UInt64.not_le.mp hsplit, gt_iff_lt, if_false, true_and, false_and, false_or]
    by_cases hlt : state.position frame < insertPos
    · rw [if_pos hlt, if_pos hlt, exec_splice_if _ _ hmem, hkept]
    rw [if_neg hlt, if_neg hlt]
    by_cases hgt : insertPos < state.position frame
    · rw [if_pos hgt, if_pos hgt, Call.exec_modify_bind]
      exact exec_splice_if _ _ hmem
    · obtain rfl := hequal hlt hgt
      rw [if_neg hgt, if_neg hgt, Call.exec_bind_ok (exec_assertFalse_disabled _), exec_splice_if _ _ hmem,
        hkept]

/-- With assertions enabled, a frame at the insert position ends the program. -/
theorem exec_moveFrame_abort (hlist : state.visitorFrames source = before ++ frame :: after)
    (hbefore : frame ∉ before) (hpos : state.position frame = insertPos) :
    (moveFrame false source insertPos splitPos frame).exec state = (.error (.failed .assertion), state) := by
  have habort : ∀ state : Frames Node Frame,
      (Frames.assertFalse false).exec state = (.error (.failed .assertion), state) :=
    fun state => Call.exec_within_error (exec_assert_false id state)
  unfold moveFrame
  rw [Call.exec_bind_ok (Frames.exec_advance hlist hbefore), Call.exec_get_bind]
  dsimp only
  rw [hpos]
  by_cases hsplit : insertPos ≥ splitPos
  · rw [if_pos hsplit, if_neg (UInt64.lt_irrefl _), if_neg (UInt64.lt_irrefl _),
      Call.exec_bind_error (habort _)]
  · rw [if_neg hsplit, if_neg (UInt64.lt_irrefl _), if_neg (UInt64.lt_irrefl _),
      Call.exec_bind_error (habort _)]

/-- What a round has done that was not aborted. -/
theorem moveFrame_ok (hlist : state.visitorFrames source = before ++ frame :: after)
    (hbefore : frame ∉ before) {srcIt : Option Frame} {state' : Frames Node Frame}
    (hexec : (moveFrame ndebug source insertPos splitPos frame).exec state = (.ok srcIt, state')) :
    srcIt = after.head? ∧ state' = state.afterRound source insertPos splitPos frame := by
  by_cases hpos : ndebug = true ∨ state.position frame ≠ insertPos
  · rw [exec_moveFrame hlist hbefore hpos] at hexec
    obtain ⟨hok, hstate⟩ := Prod.mk.inj hexec
    exact ⟨(Except.ok.inj hok).symm, hstate.symm⟩
  · rw [not_or, not_not, Bool.not_eq_true] at hpos
    obtain ⟨rfl, hpos⟩ := hpos
    rw [exec_moveFrame_abort hlist hbefore hpos] at hexec
    cases hexec

end Round

/-- The loop is between two parts of the list of the source: the frames that it has left
behind, and those that are still to come. -/
structure Between (state : Frames Node Frame) (source : Node) (before rest : List Frame) : Prop where
  list : state.visitorFrames source = before ++ rest
  nodup : (before ++ rest).Nodup

section Between

variable [DecidableEq Node] {source : Node} {insertPos splitPos : UInt64} {state : Frames Node Frame}
  {frame : Frame} {before after : List Frame}

omit [DecidableEq Frame] [DecidableEq Node] in
theorem Between.frame_not_mem (h : Between state source before (frame :: after)) :
    frame ∉ before ∧ frame ∉ after :=
  notMem_of_nodup_middle h.nodup

/-- A frame that is not spliced, or is the last one, is left behind. -/
theorem Between.step (h : Between state source before (frame :: after))
    (hstays : ¬ Spliced insertPos splitPos (state.position frame) ∨ after = []) :
    Between (state.afterRound source insertPos splitPos frame) source (before ++ [frame]) after ∧
      (state.afterRound source insertPos splitPos frame).visitorFrames = state.visitorFrames := by
  have hsame : (state.afterRound source insertPos splitPos frame).visitorFrames = state.visitorFrames := by
    unfold Frames.afterRound
    dsimp only
    by_cases hspliced : Spliced insertPos splitPos (state.position frame)
    · obtain rfl := hstays.resolve_left (not_not.mpr hspliced)
      rw [if_pos hspliced, h.list, List.erase_append_right _ h.frame_not_mem.1, List.erase_cons_head,
        List.append_nil, ← h.list, Function.update_eq_self]
    · rw [if_neg hspliced]
  refine ⟨⟨?_, ?_⟩, hsame⟩
  · rw [hsame, h.list, List.append_assoc, List.singleton_append]
  · rw [List.append_assoc, List.singleton_append]
    exact h.nodup

/-- A frame that is spliced with others behind it comes after them. -/
theorem Between.splice (h : Between state source before (frame :: after))
    (hspliced : Spliced insertPos splitPos (state.position frame)) :
    Between (state.afterRound source insertPos splitPos frame) source before (after ++ [frame]) := by
  constructor
  · unfold Frames.afterRound
    dsimp only
    rw [if_pos hspliced, Function.update_self, h.list, List.erase_append_right _ h.frame_not_mem.1,
      List.erase_cons_head, List.append_assoc]
  · have hperm : (before ++ (after ++ [frame])).Perm (before ++ frame :: after) :=
      (List.perm_append_singleton frame after).append_left before
    exact hperm.nodup_iff.mpr h.nodup

end Between

/-- The frames with their new positions for some of them. -/
def Frames.handled (state : Frames Node Frame) (insertPos splitPos : UInt64) (frames : List Frame) :
    Frames Node Frame :=
  { state with
    position := fun frame =>
      if frame ∈ frames then adjusted insertPos splitPos (state.position frame) else state.position frame }

theorem Frames.handled_nil (state : Frames Node Frame) (insertPos splitPos : UInt64) :
    state.handled insertPos splitPos [] = state := by
  simp [Frames.handled]

section Rounds

variable [DecidableEq Node] {ndebug : Bool} {source : Node} {insertPos splitPos : UInt64}
  {state state' : Frames Node Frame} {frame : Frame} {before after rest : List Frame}

theorem Frames.afterRound_position_of_ne {other : Frame} (hne : other ≠ frame) :
    (state.afterRound source insertPos splitPos frame).position other = state.position other :=
  Function.update_of_ne hne _ _

omit [DecidableEq Frame] [DecidableEq Node] in
theorem Between.ne_of_mem (h : Between state source before (frame :: after)) {other : Frame}
    (hother : other ∈ after) : other ≠ frame := by
  rintro rfl
  exact h.frame_not_mem.2 hother

/-- Before a split position that is the insert position the frames keep their positions. -/
theorem Frames.afterRound_position_of_lt (hlt : state.position frame < splitPos) (other : Frame) :
    (state.afterRound source splitPos splitPos frame).position other = state.position other := by
  by_cases hsame : other = frame
  · subst hsame
    refine (Function.update_self _ _ _).trans ?_
    rw [adjusted, if_neg (UInt64.not_le.mpr hlt), if_pos hlt]
  · exact Frames.afterRound_position_of_ne hsame

theorem Between.afterRound_position (h : Between state source before (frame :: after)) {other : Frame}
    (hother : other ∈ after) :
    (state.afterRound source insertPos splitPos frame).position other = state.position other :=
  Frames.afterRound_position_of_ne (h.ne_of_mem hother)

theorem Frames.afterRound_visitorFrames_of_ne {node : Node} (hne : node ≠ source) :
    (state.afterRound source insertPos splitPos frame).visitorFrames node = state.visitorFrames node := by
  unfold Frames.afterRound
  dsimp only
  by_cases hspliced : Spliced insertPos splitPos (state.position frame)
  · rw [if_pos hspliced, Function.update_of_ne hne]
  · rw [if_neg hspliced]

/-- A round leaves one frame behind, or none. -/
theorem Between.round (h : Between state source before (frame :: after)) (insertPos splitPos : UInt64) :
    ∃ before' rest', Between (state.afterRound source insertPos splitPos frame) source before' rest' ∧
      after.head? = rest'.head? ∧ after.length ≤ rest'.length ∧
      (before' ++ rest').Perm (before ++ frame :: after) := by
  by_cases hstays : ¬ Spliced insertPos splitPos (state.position frame) ∨ after = []
  · refine ⟨before ++ [frame], after, (h.step hstays).1, rfl, Nat.le_refl _, ?_⟩
    rw [List.append_assoc, List.singleton_append]
  · rw [not_or, not_not] at hstays
    refine ⟨before, after ++ [frame], h.splice hstays.1, ?_, ?_, ?_⟩
    · rw [List.head?_append_of_ne_nil _ hstays.2]
    · rw [List.length_append]
      exact Nat.le_add_right _ _
    · exact (List.perm_append_singleton frame after).append_left before

/-- A round at a frame that is not at the insert position, and the rounds after it. -/
theorem Between.exec_round (h : Between state source before (frame :: after))
    (hpos : state.position frame ≠ insertPos) (rounds : Nat) :
    (moveFramesFrom ndebug source insertPos splitPos (rounds + 1) (frame :: after).head?).exec state =
      (moveFramesFrom ndebug source insertPos splitPos rounds after.head?).exec
        (state.afterRound source insertPos splitPos frame) := by
  rw [List.head?_cons, moveFramesFrom, Call.exec_bind_ok (exec_moveFrame h.list h.frame_not_mem.1
    (Or.inr hpos))]

/-- The iterator comes to the end by at most one frame in each round, whatever the rounds
do. They leave the lists of other nodes alone and lose no frame of the source. -/
theorem Between.of_rounds (h : Between state source before rest) {rounds : Nat} {srcIt : Option Frame}
    (hexec : (moveFramesFrom ndebug source insertPos splitPos rounds rest.head?).exec state =
      (.ok srcIt, state')) :
    ∃ before' rest', Between state' source before' rest' ∧ srcIt = rest'.head? ∧
      rest.length ≤ rest'.length + rounds ∧ (before' ++ rest').Perm (before ++ rest) ∧
      ∀ node, node ≠ source → state'.visitorFrames node = state.visitorFrames node := by
  induction rounds generalizing state before rest with
  | zero =>
    cases hexec
    exact ⟨before, rest, h, rfl, Nat.le_refl _, List.Perm.refl _, fun _ _ => rfl⟩
  | succ rounds ih =>
    cases rest with
    | nil =>
      cases hexec
      exact ⟨before, [], h, rfl, Nat.zero_le _, List.Perm.refl _, fun _ _ => rfl⟩
    | cons frame after =>
      rw [List.head?_cons, moveFramesFrom, Call.exec_bind_eq_ok] at hexec
      obtain ⟨next, between, hround, hrounds⟩ := hexec
      obtain ⟨rfl, rfl⟩ := moveFrame_ok h.list h.frame_not_mem.1 hround
      obtain ⟨before', rest', hbetween, hnext, hlength, hperm⟩ := h.round insertPos splitPos
      rw [hnext] at hrounds
      obtain ⟨before'', rest'', hbetween', hsrcIt, hlength', hperm', hothers⟩ := ih hbetween hrounds
      refine ⟨before'', rest'', hbetween', hsrcIt, ?_, hperm'.trans hperm, ?_⟩
      · rw [List.length_cons]
        omega
      · intro node hnode
        rw [hothers node hnode, Frames.afterRound_visitorFrames_of_ne hnode]

/-- A frame that was left behind does not come up among the later ones. -/
theorem Between.handled_afterRound (h : Between state source before (frame :: after))
    (hlists : (state.afterRound source insertPos splitPos frame).visitorFrames = state.visitorFrames)
    {later : List Frame} (hlater : later ⊆ after) :
    (state.afterRound source insertPos splitPos frame).handled insertPos splitPos later =
      state.handled insertPos splitPos (frame :: later) := by
  have hout : frame ∉ later := fun hmem => h.frame_not_mem.2 (hlater hmem)
  unfold Frames.handled
  rw [hlists]
  refine congrArg (Frames.mk state.visitorFrames) (funext fun other => ?_)
  by_cases hsame : other = frame
  · subst hsame
    rw [if_neg hout, if_pos List.mem_cons_self]
    exact Function.update_self _ _ _
  · simp only [Frames.afterRound_position_of_ne hsame, List.mem_cons, hsame, false_or]

/-- Where no frame is spliced, the last one apart, each round leaves the next frame behind
with its new position, and the list stays as it is. -/
theorem Between.exec_rounds (h : Between state source before rest)
    (hpos : ∀ frame ∈ rest, state.position frame ≠ insertPos)
    (hstays : ∀ frame ∈ rest.dropLast, ¬ Spliced insertPos splitPos (state.position frame)) (rounds : Nat) :
    (moveFramesFrom ndebug source insertPos splitPos rounds rest.head?).exec state =
      (.ok (rest.drop rounds).head?, state.handled insertPos splitPos (rest.take rounds)) := by
  induction rest generalizing state before rounds with
  | nil =>
    rw [List.drop_nil, List.take_nil, Frames.handled_nil]
    cases rounds <;> rfl
  | cons frame after ih =>
    cases rounds with
    | zero =>
      rw [List.take_zero, Frames.handled_nil]
      rfl
    | succ rounds =>
      have hframe : ¬ Spliced insertPos splitPos (state.position frame) ∨ after = [] := by
        by_cases hlast : after = []
        · exact Or.inr hlast
        · refine Or.inl (hstays frame ?_)
          rw [List.dropLast_cons_of_ne_nil hlast]
          exact List.mem_cons_self
      obtain ⟨hbetween, hlists⟩ := h.step hframe
      rw [h.exec_round (hpos frame List.mem_cons_self), ih hbetween ?_ ?_ rounds]
      · rw [List.drop_succ_cons, List.take_succ_cons, h.handled_afterRound hlists (List.take_subset _ _)]
      · intro other hother
        rw [h.afterRound_position hother]
        exact hpos other (List.mem_cons_of_mem _ hother)
      · intro other hother
        rw [h.afterRound_position (List.mem_of_mem_dropLast hother)]
        apply hstays
        rw [List.dropLast_cons_of_ne_nil (List.ne_nil_of_mem (List.mem_of_mem_dropLast hother))]
        exact List.mem_cons_of_mem _ hother

/-- A frame that is spliced while others are behind it keeps the loop from ending in as
many rounds as there were frames. -/
theorem Between.srcIt_ne_none (h : Between state source before rest)
    (hpos : ∀ frame ∈ rest, state.position frame ≠ insertPos)
    (hspliced : ∃ frame ∈ rest.dropLast, Spliced insertPos splitPos (state.position frame))
    {srcIt : Option Frame}
    (hexec : (moveFramesFrom ndebug source insertPos splitPos rest.length rest.head?).exec state =
      (.ok srcIt, state')) :
    srcIt ≠ none := by
  induction rest generalizing state before with
  | nil =>
    obtain ⟨_, hmem, _⟩ := hspliced
    cases hmem
  | cons frame after ih =>
    rw [List.length_cons, h.exec_round (hpos frame List.mem_cons_self)] at hexec
    obtain ⟨bad, hbad, hbadSpliced⟩ := hspliced
    have hafter : after ≠ [] := by
      rintro rfl
      cases hbad
    rw [List.dropLast_cons_of_ne_nil hafter] at hbad
    by_cases hfirst : Spliced insertPos splitPos (state.position frame)
    · -- The frame comes up again, and one round is already over.
      have hbetween := h.splice hfirst
      have hnext : (after ++ [frame]).head? = after.head? := List.head?_append_of_ne_nil _ hafter
      rw [← hnext] at hexec
      obtain ⟨_, rest', _, rfl, hlength, _⟩ := hbetween.of_rounds hexec
      rw [List.length_append, List.length_singleton] at hlength
      rw [ne_eq, List.head?_eq_none_iff]
      rintro rfl
      rw [List.length_nil] at hlength
      omega
    · rcases List.mem_cons.mp hbad with rfl | hbad
      · exact absurd hbadSpliced hfirst
      refine ih (h.step (Or.inl hfirst)).1 ?_ ⟨bad, hbad, ?_⟩ hexec
      · intro other hother
        rw [h.afterRound_position hother]
        exact hpos other (List.mem_cons_of_mem _ hother)
      · rwa [h.afterRound_position (List.mem_of_mem_dropLast hbad)]

end Rounds

/-- The loop is at the end after as many rounds as the source had frames. It has been at
each frame in one of them, and only that round gives it its new position. -/
def HandlesEachOnce [DecidableEq Node] (ndebug : Bool) (source sibling : Node) (insertPos splitPos : UInt64)
    (state : Frames Node Frame) : Prop :=
  ∃ (handled : List Frame) (newPosition : Frame → UInt64), handled.Perm (state.visitorFrames source) ∧
    ∀ rounds, rounds ≤ handled.length → ∃ after,
      (moveFrames ndebug source sibling insertPos splitPos rounds).exec state =
        (.ok handled[rounds]?, after) ∧
      ∀ frame, after.position frame =
        if frame ∈ handled.take rounds then newPosition frame else state.position frame

/-- The loop handles each frame once exactly if it splices none but the last one. As
`dstEndIt` is the end of the list that the loop walks over, it comes to a spliced frame
again. -/
theorem moveFrames_handlesEachOnce_iff [DecidableEq Node] (ndebug : Bool) {source : Node} (sibling : Node)
    {insertPos splitPos : UInt64} {state : Frames Node Frame} (hnodup : (state.visitorFrames source).Nodup)
    (hpos : ∀ frame ∈ state.visitorFrames source, state.position frame ≠ insertPos) :
    HandlesEachOnce ndebug source sibling insertPos splitPos state ↔
      ∀ frame ∈ (state.visitorFrames source).dropLast, ¬ Spliced insertPos splitPos (state.position frame) := by
  have hbetween : Between state source [] (state.visitorFrames source) := ⟨rfl, hnodup⟩
  constructor
  · rintro ⟨handled, _, hperm, hrounds⟩ frame hmem hspliced
    obtain ⟨after, hexec, _⟩ := hrounds handled.length (Nat.le_refl _)
    rw [List.getElem?_eq_none (Nat.le_refl _), hperm.length_eq] at hexec
    exact hbetween.srcIt_ne_none hpos ⟨frame, hmem, hspliced⟩ hexec rfl
  · intro hstays
    refine ⟨state.visitorFrames source, fun frame => adjusted insertPos splitPos (state.position frame),
      List.Perm.refl _, fun rounds _ => ?_⟩
    rw [← List.head?_drop]
    exact ⟨_, hbetween.exec_rounds hpos hstays rounds, fun _ => rfl⟩

/-- The frames 0, 1 and 2 on the entries that their numbers say. -/
def threeFrames : Frames Bool Nat where
  visitorFrames := fun node => if node then [] else [0, 1, 2]
  position := fun frame => UInt64.ofNat frame

/-- None of them is spliced if the new entry goes behind the split and they are before it. -/
theorem handlesEachOnce_before : HandlesEachOnce true false true 5 4 threeFrames := by
  apply (moveFrames_handlesEachOnce_iff true true (by decide) (by decide)).mpr
  decide

/-- All of them are spliced if the new entry goes before the split. The loop has not ended
after a hundred rounds. -/
theorem not_handlesEachOnce_spliced :
    ((moveFrames true false true 3 4 100).exec threeFrames).1 = .ok (some 1) ∧
      ¬ HandlesEachOnce true false true 3 4 threeFrames := by
  refine ⟨by decide +kernel, ?_⟩
  rintro ⟨handled, _, hperm, hrounds⟩
  obtain ⟨after, hexec, _⟩ := hrounds handled.length (Nat.le_refl _)
  rw [List.getElem?_eq_none (Nat.le_refl _), hperm.length_eq] at hexec
  have hresult : ((moveFrames true false true 3 4 3).exec threeFrames).1 = .ok none :=
    congrArg Prod.fst hexec
  exact absurd hresult (by decide +kernel)

end tupl.pvt.ops
