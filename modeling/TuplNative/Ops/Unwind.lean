import TuplNative.ArrayStackGeneric.Stack
import TuplNative.Ops

namespace tupl.pvt.ops

variable {Node Frame : Type} {state : State Node Frame} {left : List Frame} {frame : Frame}

section Stack

theorem exec_onStack {α : Type} {call : Call Failure (ArrayStackGeneric Frame 64) α} {a : α}
    {stack : ArrayStackGeneric Frame 64} (hcall : call.exec state.stackFrames = (.ok a, stack)) :
    (onStack call).exec state = (.ok a, { state with stackFrames := stack }) := by
  unfold onStack
  rw [Call.exec_get_bind, hcall]
  rfl

theorem exec_topFrame_concat (hstack : state.stackFrames = ArrayStackGeneric.ofList (left ++ [frame])) :
    (topFrame true).exec state = (.ok frame, state) := by
  have htop : (ArrayStackGeneric.top true).exec state.stackFrames =
      (.ok (some frame), state.stackFrames) := by
    rw [hstack, ArrayStackGeneric.exec_top, List.getLast?_concat]
  unfold topFrame
  rw [Call.exec_bind_ok (exec_onStack htop)]
  rfl

theorem exec_topFrame_nil (hstack : state.stackFrames = ArrayStackGeneric.ofList []) :
    (topFrame true).exec state = (.error .deadFrame, state) := by
  have htop : (ArrayStackGeneric.top true).exec state.stackFrames = (.ok none, state.stackFrames) := by
    rw [hstack, ArrayStackGeneric.exec_top]
    rfl
  unfold topFrame
  rw [Call.exec_bind_ok (exec_onStack htop)]
  rfl

theorem exec_popFrame (hstack : state.stackFrames = ArrayStackGeneric.ofList (left ++ [frame])) :
    (onStack (ArrayStackGeneric.pop true)).exec state =
      (.ok (), { state with stackFrames := ArrayStackGeneric.ofList left }) := by
  refine exec_onStack ?_
  rw [hstack]
  exact ArrayStackGeneric.exec_pop left frame

end Stack

section Latch

variable [DecidableEq Node] {node : Node}

theorem exec_lockExclusive (hfree : node ∉ state.latched) :
    (lockExclusive node).exec state = (.ok (), { state with latched := node :: state.latched }) := by
  unfold lockExclusive
  rw [Call.exec_get_bind, if_neg hfree]
  rfl

/-- The thread cannot get a latch that it holds. -/
theorem exec_lockExclusive_held (hheld : node ∈ state.latched) :
    (lockExclusive node).exec state = (.error .deadlock, state) := by
  unfold lockExclusive
  rw [Call.exec_get_bind, if_pos hheld]
  rfl

variable [DecidableEq Frame]

theorem exec_eraseVisitor (hlinked : frame ∈ state.visitorFrames node) :
    (eraseVisitor node frame).exec state = (.ok (), { state with
      visitorFrames :=
        Function.update state.visitorFrames node ((state.visitorFrames node).erase frame) }) := by
  unfold eraseVisitor
  rw [Call.exec_get_bind, if_neg (not_not.mpr hlinked)]
  rfl

end Latch

/-- A cursor whose stack holds the frames. Each of them is linked in the list of the node
it points to and, having one hook, in no other; the thread holds no latch. -/
structure Positioned (state : State Node Frame) (frames : List Frame) : Prop where
  stack : state.stackFrames = ArrayStackGeneric.ofList frames
  nodup : frames.Nodup
  linked : ∀ frame ∈ frames, ∀ node, frame ∈ state.visitorFrames node ↔ node = state.node frame
  once : ∀ node, (state.visitorFrames node).Nodup
  unlatched : state.latched = []

variable {gone : List Frame}

theorem Positioned.frame_not_mem (h : Positioned state (left ++ frame :: gone)) : frame ∉ gone :=
  (List.nodup_cons.mp (List.nodup_append.mp h.nodup).2.1).1

theorem Positioned.linked_frame (h : Positioned state (left ++ frame :: gone)) (node : Node) :
    frame ∈ state.visitorFrames node ↔ node = state.node frame :=
  h.linked frame (List.mem_append_right _ List.mem_cons_self) node

variable [DecidableEq Frame]

/-- The state once some frames are gone and others are left. -/
def State.unwound (state : State Node Frame) (left gone : List Frame) : State Node Frame :=
  { state with
    stackFrames := ArrayStackGeneric.ofList left
    visitorFrames := fun node => (state.visitorFrames node).filter fun frame => decide (frame ∉ gone) }

@[simp] theorem State.unwound_node : (state.unwound left gone).node = state.node := rfl

@[simp] theorem State.unwound_latched : (state.unwound left gone).latched = state.latched := rfl

@[simp] theorem State.unwound_root : (state.unwound left gone).root = state.root := rfl

theorem Positioned.linked_unwound (h : Positioned state (left ++ frame :: gone)) :
    frame ∈ (state.unwound (left ++ [frame]) gone).visitorFrames (state.node frame) :=
  List.mem_filter.mpr ⟨(h.linked_frame _).mpr rfl, decide_eq_true h.frame_not_mem⟩

variable [DecidableEq Node]

/-- Unlinking one more frame. -/
theorem Positioned.update_visitorFrames (h : Positioned state (left ++ frame :: gone)) :
    Function.update (state.unwound (left ++ [frame]) gone).visitorFrames (state.node frame)
        (((state.unwound (left ++ [frame]) gone).visitorFrames (state.node frame)).erase frame) =
      (state.unwound left (frame :: gone)).visitorFrames := by
  funext node
  change _ = (state.visitorFrames node).filter fun other => decide (other ∉ frame :: gone)
  by_cases hnode : node = state.node frame
  · subst hnode
    rw [Function.update_self]
    change ((state.visitorFrames (state.node frame)).filter
      fun other => decide (other ∉ gone)).erase frame = _
    rw [List.Nodup.erase_eq_filter ((h.once _).filter _), List.filter_filter]
    refine List.filter_congr fun other _ => ?_
    rw [Bool.eq_iff_iff, Bool.and_eq_true, bne_iff_ne, decide_eq_true_iff, decide_eq_true_iff,
      List.mem_cons, not_or]
  · rw [Function.update_of_ne hnode]
    refine List.filter_congr fun other hother => decide_eq_decide.mpr ?_
    have hne : other ≠ frame := by
      rintro rfl
      exact hnode ((h.linked_frame node).mp hother)
    rw [List.mem_cons, or_iff_right hne]

/-- With the latch of its node held, the frame on top is unlinked. -/
theorem Positioned.exec_unlink_bind {α : Type} (h : Positioned state (left ++ frame :: gone))
    (next : Unit → Call Fault (State Node Frame) α) :
    (lockExclusive (state.node frame) >>= fun _ => eraseVisitor (state.node frame) frame >>= next).exec
        (state.unwound (left ++ [frame]) gone) =
      (next ()).exec
        { state.unwound (left ++ [frame]) (frame :: gone) with latched := [state.node frame] } := by
  have hfree : state.node frame ∉ (state.unwound (left ++ [frame]) gone).latched := by
    rw [State.unwound_latched, h.unlatched]
    exact List.not_mem_nil
  have herase : (eraseVisitor (state.node frame) frame).exec
      { state.unwound (left ++ [frame]) gone with latched := [state.node frame] } = (.ok (), _) :=
    exec_eraseVisitor h.linked_unwound
  rw [Call.exec_bind_ok (exec_lockExclusive hfree), State.unwound_latched, h.unlatched,
    Call.exec_bind_ok herase, h.update_visitorFrames]
  rfl

/-- A round of the loop unlinks the frame on top and pops it. -/
theorem Positioned.exec_unwindFrame (h : Positioned state (left ++ frame :: gone)) :
    (unwindFrame true).exec (state.unwound (left ++ [frame]) gone) =
      (.ok (), state.unwound left (frame :: gone)) := by
  unfold unwindFrame unlockExclusive
  rw [Call.exec_bind_ok (exec_topFrame_concat rfl), Call.exec_get_bind, State.unwound_node]
  dsimp only
  rw [h.exec_unlink_bind, Call.exec_modify_bind, exec_popFrame rfl]
  dsimp only
  rw [List.erase_cons_head, ← h.unlatched]
  rfl

/-- The loop of as many rounds as there are frames in the upper part of the stack. -/
theorem Positioned.exec_unwindFrames {upper : List Frame} (h : Positioned state (left ++ upper ++ gone)) :
    (unwindFrames true upper.length).exec (state.unwound (left ++ upper) gone) =
      (.ok (), state.unwound left (upper ++ gone)) := by
  induction upper using List.reverseRecOn generalizing gone with
  | nil =>
    rw [List.append_nil]
    rfl
  | append_singleton upper frame ih =>
    have hstep : Positioned state ((left ++ upper) ++ frame :: gone) := by
      simpa only [List.append_assoc, List.singleton_append] using h
    rw [List.length_append, List.length_singleton, unwindFrames, ← List.append_assoc,
      Call.exec_bind_ok hstep.exec_unwindFrame, ih hstep, List.append_assoc, List.singleton_append]

/-- One round too many uses a frame below the bottom of the stack. -/
theorem Positioned.exec_unwindFrames_dead (h : Positioned state (left ++ gone)) {rounds : Nat}
    (hrounds : left.length < rounds) :
    ∃ failed, (unwindFrames true rounds).exec (state.unwound left gone) = (.error .deadFrame, failed) := by
  induction rounds generalizing left gone with
  | zero => omega
  | succ rounds ih =>
    cases left using List.reverseRecOn with
    | nil =>
      have htop : (topFrame true).exec (state.unwound [] gone) = (.error .deadFrame, _) :=
        exec_topFrame_nil rfl
      unfold unwindFrames unwindFrame
      exact ⟨_, Call.exec_bind_error (Call.exec_bind_error htop)⟩
    | append_singleton left frame =>
      have hstep : Positioned state (left ++ frame :: gone) := by
        simpa only [List.append_assoc, List.singleton_append] using h
      rw [List.length_append, List.length_singleton] at hrounds
      obtain ⟨failed, hfailed⟩ := ih hstep (by omega)
      exact ⟨failed, by rw [unwindFrames, Call.exec_bind_ok hstep.exec_unwindFrame, hfailed]⟩

/-- The last round goes on holding the latch of its node, or exchanges it for the one of
the root. -/
theorem Positioned.exec_unwindRootFrame (h : Positioned state (left ++ frame :: gone)) :
    (unwindRootFrame true).exec (state.unwound (left ++ [frame]) gone) =
      (.ok state.root, { state.unwound left (frame :: gone) with latched := [state.root] }) := by
  unfold unwindRootFrame unlockExclusive
  rw [Call.exec_bind_ok (exec_topFrame_concat rfl), Call.exec_get_bind, State.unwound_node]
  dsimp only
  rw [h.exec_unlink_bind, Call.exec_bind_ok (exec_popFrame rfl), Call.exec_get_bind]
  dsimp only
  by_cases hroot : state.node frame = state.root
  · rw [State.unwound_root, if_neg (not_not.mpr hroot), hroot]
    rfl
  · have hfree : state.root ∉ [state.node frame] := fun hmem => hroot (List.mem_singleton.mp hmem).symm
    rw [State.unwound_root, if_pos hroot, Call.exec_bind_ok (exec_lockExclusive hfree),
      Call.exec_modify_bind]
    dsimp only
    rw [List.erase_cons_tail (by simpa using Ne.symm hroot), List.erase_cons_head]
    rfl

omit [DecidableEq Node] in
theorem Positioned.unwound_nil {frames : List Frame} (h : Positioned state frames) :
    state.unwound frames [] = state := by
  have hvisitors : (fun node => (state.visitorFrames node).filter fun frame => decide (frame ∉ [])) =
      state.visitorFrames := by
    funext node
    exact List.filter_eq_self.mpr fun _ _ => decide_eq_true List.not_mem_nil
  unfold State.unwound
  rw [hvisitors, ← h.stack]

omit [DecidableEq Frame] [DecidableEq Node] in
/-- The number that the loop goes by is the number of free slots. -/
theorem Positioned.size_toNat {frames : List Frame} (h : Positioned state frames)
    (hfits : frames.length ≤ 64) : state.stackFrames.size.toNat = 64 - frames.length := by
  rw [h.stack]
  exact ArrayStackGeneric.size_ofList frames hfits

/-- With enough frames for all rounds, the frames above the ones left are gone. -/
theorem Positioned.exec_unwindAndLockRoot {upper : List Frame} (h : Positioned state (left ++ frame :: upper))
    (hfits : (left ++ frame :: upper).length ≤ 64)
    (hrounds : upper.length = 64 - (left ++ frame :: upper).length - 1) :
    (unwindAndLockRoot true).exec state =
      (.ok state.root, { state.unwound left (frame :: upper) with latched := [state.root] }) := by
  have hparts : left ++ frame :: upper = (left ++ [frame]) ++ upper := by
    rw [List.append_assoc, List.singleton_append]
  have hlower : Positioned state ((left ++ [frame]) ++ upper ++ []) := by
    rwa [List.append_nil, ← hparts]
  have hloop := hlower.exec_unwindFrames
  rw [← hparts, h.unwound_nil, List.append_nil] at hloop
  unfold unwindAndLockRoot
  rw [Call.exec_get_bind]
  dsimp only
  rw [h.size_toNat hfits, ← hrounds, Call.exec_bind_ok hloop]
  exact h.exec_unwindRootFrame

/-- With too few frames for all rounds, a frame below the bottom is used. -/
theorem Positioned.exec_unwindAndLockRoot_dead {frames : List Frame} (h : Positioned state frames)
    (hfew : frames.length < 32) :
    ∃ failed, (unwindAndLockRoot true).exec state = (.error .deadFrame, failed) := by
  have hall : Positioned state (frames ++ []) := by rwa [List.append_nil]
  have hrounds : frames.length < 64 - frames.length - 1 := by omega
  obtain ⟨failed, hfailed⟩ := hall.exec_unwindFrames_dead hrounds
  refine ⟨failed, ?_⟩
  unfold unwindAndLockRoot
  rw [Call.exec_get_bind]
  dsimp only
  rw [h.size_toNat (by omega)]
  rw [h.unwound_nil] at hfailed
  exact Call.exec_bind_error hfailed

omit [DecidableEq Frame] [DecidableEq Node] in
/-- In a stack that is more than half full some frames are left. -/
theorem exists_left {frames : List Frame} (hmany : 32 < frames.length) :
    ∃ left frame upper, frames = left ++ frame :: upper ∧ upper.length = 64 - frames.length - 1 ∧
      left ≠ [] := by
  obtain ⟨bottom, hbottom⟩ : ∃ bottom, bottom = frames.length - (64 - frames.length - 1) - 1 := ⟨_, rfl⟩
  have hinside : bottom < frames.length := by omega
  refine ⟨frames.take bottom, frames[bottom], frames.drop (bottom + 1), ?_, ?_, ?_⟩
  · rw [← List.drop_eq_getElem_cons hinside, List.take_append_drop]
  · rw [List.length_drop]
    omega
  · intro hempty
    have hlength := congrArg List.length hempty
    rw [List.length_take, List.length_nil] at hlength
    omega

/-- What unpositioning a cursor leaves behind: an empty stack, every list without the
frames of the cursor and otherwise as before, and one latch, on the root of the tree. -/
structure Unpositioned (before : State Node Frame) (frames : List Frame) (after : State Node Frame) :
    Prop where
  stack : after.stackFrames = ArrayStackGeneric.construct
  visitors : ∀ node, after.visitorFrames node =
    (before.visitorFrames node).filter fun frame => decide (frame ∉ frames)
  latched : after.latched = [before.root]

/-- Unwinding a cursor unpositions it exactly when its stack is half full. The loop goes
by `size`, which counts the free slots: with fewer frames it reads below the bottom of the
stack, and with more it leaves frames behind. -/
theorem unpositioned_iff_halfFull {frames : List Frame} (h : Positioned state frames)
    (hnonempty : 1 ≤ frames.length) (hfits : frames.length ≤ 64) :
    (∃ after, (unwindAndLockRoot true).exec state = (.ok state.root, after) ∧
        Unpositioned state frames after) ↔ frames.length = 32 := by
  constructor
  · rintro ⟨after, hexec, hafter⟩
    by_contra hlength
    rcases Nat.lt_or_ge frames.length 32 with hfew | hmany
    · obtain ⟨failed, hfailed⟩ := h.exec_unwindAndLockRoot_dead hfew
      rw [hfailed] at hexec
      cases hexec
    · obtain ⟨left, frame, upper, hparts, hrounds, hleft⟩ :=
        exists_left (Nat.lt_of_le_of_ne hmany (Ne.symm hlength))
      subst hparts
      rw [h.exec_unwindAndLockRoot hfits hrounds] at hexec
      cases hexec
      have htop : (left.length : Int) - 1 = -1 := congrArg ArrayStackGeneric.mTop hafter.stack
      exact hleft (List.length_eq_zero_iff.mp (by omega))
  · intro hhalf
    cases frames with
    | nil => cases hnonempty
    | cons frame upper =>
      rw [List.length_cons] at hhalf
      have hall : Positioned state ([] ++ frame :: upper) := h
      have hrounds : upper.length = 64 - ([] ++ frame :: upper).length - 1 := by
        rw [List.nil_append, List.length_cons]
        omega
      exact ⟨_, hall.exec_unwindAndLockRoot hfits hrounds, ArrayStackGeneric.ofList_nil, fun _ => rfl, rfl⟩

/-- A cursor with frames at as many nodes, each of which another cursor visits too. -/
def visiting (count : Nat) : State Nat Nat where
  stackFrames := ArrayStackGeneric.ofList (List.range count)
  node frame := frame
  visitorFrames node := if node < count then [node, node + 100] else []
  latched := []
  root := 0

theorem visiting_positioned {count : Nat} (hcount : count ≤ 64) :
    Positioned (visiting count) (List.range count) := by
  refine ⟨rfl, List.nodup_range, ?_, ?_, rfl⟩
  · intro frame hframe node
    have hlt := List.mem_range.mp hframe
    change (frame ∈ if node < count then [node, node + 100] else []) ↔ node = frame
    split
    · simp only [List.mem_cons, List.not_mem_nil, or_false]
      omega
    · simp only [List.not_mem_nil, false_iff]
      omega
  · intro node
    change (if node < count then [node, node + 100] else []).Nodup
    split
    · simp
    · exact List.nodup_nil

theorem unpositioned_halfFull :
    ∃ after, (unwindAndLockRoot true).exec (visiting 32) = (.ok 0, after) ∧
      Unpositioned (visiting 32) (List.range 32) after :=
  (unpositioned_iff_halfFull (visiting_positioned (by decide)) (by decide) (by decide)).mpr (by decide)

theorem not_unpositioned_oneFrame :
    Positioned (visiting 1) [0] ∧
      ¬ ∃ after, (unwindAndLockRoot true).exec (visiting 1) = (.ok 0, after) ∧
        Unpositioned (visiting 1) [0] after := by
  have hdead : ((unwindAndLockRoot true).exec (visiting 1)).1 = .error .deadFrame := rfl
  refine ⟨visiting_positioned (by decide), ?_⟩
  rintro ⟨after, hexec, _⟩
  rw [hexec] at hdead
  cases hdead

end tupl.pvt.ops
