import TuplNative.Ops.Threads.Unwinding

open Latching

namespace tupl.pvt.ops

variable {Node Frame : Type}

variable [DecidableEq Node] [DecidableEq Frame] {isLeaf : Node → Bool} {findChildNode : Node → Bytes → Node}

/-- With assertions disabled a cursor with a position is unwound to the root. -/
theorem exec_lockRoot_positioned {state : FindState Node Frame} {unwinding : Unwinding Frame}
    (h : Positioned state.toState unwinding.frames) :
    (lockRoot true).exec state = (.ok (), { state with
      toState :=
        { state.unwound unwinding.left (unwinding.last :: unwinding.upper) with latched := [state.root] }
      parentLock := some state.root }) := by
  have hempty : (onStack (ArrayStackGeneric.empty true)).exec state.toState = (.ok false, state.toState) := by
    apply exec_onStack
    rw [h.stack, Unwinding.frames, ArrayStackGeneric.exec_empty]
    simp
  unfold lockRoot
  rw [Call.exec_bind_ok (FindState.exec_onThread_ok hempty), if_neg Bool.false_ne_true,
    Call.exec_bind_ok (FindState.exec_onThread_ok (h.exec_unwindAndLockRoot unwinding.fits unwinding.rounds))]
  rfl

variable {node : Frame → Node} {root : Node}

/-- The cursor that a call begins with: one without a position, or one with the stack that the
call has. -/
structure FindCall.Starts (call : FindCall isLeaf findChildNode node root) (state : FindState Node Frame) :
    Prop where
  node : state.node = node
  root : state.root = root
  once : ∀ node, (state.visitorFrames node).Nodup
  unlatched : state.latched = []
  unpositioned : call.unwinding = none → state.stackFrames.mTop = -1
  positioned : ∀ unwinding ∈ call.unwinding, Positioned state.toState unwinding.frames

/-- What a call leaves behind: the frames that it has not taken, and no latch. -/
structure FindCall.Ends (call : FindCall isLeaf findChildNode node root) (before after : FindState Node Frame) :
    Prop where
  stack : after.stackFrames = call.unwinding.elim before.stackFrames fun unwinding =>
    ArrayStackGeneric.ofList unwinding.left
  visitors : ∀ node, after.visitorFrames node =
    (before.visitorFrames node).filter fun frame => decide (frame ∉ call.taken)
  node : after.node = before.node
  root : after.root = before.root
  key : after.key = call.key
  unlatched : after.latched = []

variable {call : FindCall isLeaf findChildNode node root} {state : FindState Node Frame}

/-- What `find` makes of the state, whatever cursor it begins with. -/
theorem FindCall.Starts.exec_find (h : call.Starts state)
    (htree : IsTree isLeaf (IsChild findChildNode) root) (findValue : Node → Bytes → Except String Unit) :
    ∃ enough after, (∀ rounds, enough ≤ rounds →
        (find true isLeaf findChildNode findValue rounds call.key).exec state =
          ((findValue call.leaf call.key).mapError .logicError, after)) ∧ call.Ends state after := by
  obtain rfl := h.root
  let begun : FindState Node Frame := { state with key := call.key, parentLock := none, childLock := none }
  have hselect : ∀ node, isLeaf node = false → IsChild findChildNode node (findChildNode node call.key) :=
    fun _ _ => ⟨call.key, rfl⟩
  cases hunwinding : call.unwinding with
  | none =>
    have hlock := exec_lockRoot begun true (h.unpositioned hunwinding) h.unlatched
    obtain ⟨events, leaf, enough, hdescent, hfind⟩ :=
      exec_find_of_lockRoot true findValue hlock hselect htree rfl rfl rfl (Or.inl rfl)
    obtain ⟨_, rfl⟩ := hdescent.unique call.descent
    refine ⟨enough, _, hfind, ?_⟩
    refine ⟨by rw [hunwinding]; rfl, fun node => ?_, rfl, rfl, rfl, rfl⟩
    rw [FindCall.taken, hunwinding]
    exact (List.filter_eq_self.mpr fun frame _ => decide_eq_true List.not_mem_nil).symm
  | some unwinding =>
    have hbegun : Positioned begun.toState unwinding.frames := h.positioned unwinding hunwinding
    have hlock := exec_lockRoot_positioned hbegun
    obtain ⟨events, leaf, enough, hdescent, hfind⟩ :=
      exec_find_of_lockRoot true findValue hlock hselect htree rfl rfl rfl (Or.inl rfl)
    obtain ⟨_, rfl⟩ := hdescent.unique call.descent
    refine ⟨enough, _, hfind, ?_⟩
    refine ⟨by rw [hunwinding]; rfl, fun node => ?_, rfl, rfl, rfl, rfl⟩
    refine List.filter_congr fun frame _ => ?_
    rw [FindCall.taken, hunwinding, decide_eq_decide, not_iff_not]
    simp [Unwinding.taken, or_comm]

omit [DecidableEq Node] [DecidableEq Frame] in
/-- A frame of the cursor is in no list but the one of its node. -/
theorem FindCall.Starts.linked (h : call.Starts state) {frame : Frame} (hframe : frame ∈ call.taken)
    {visited : Node} (hvisited : frame ∈ state.visitorFrames visited) : visited = node frame := by
  cases hunwinding : call.unwinding with
  | none =>
    rw [FindCall.taken, hunwinding] at hframe
    cases hframe
  | some unwinding =>
    rw [FindCall.taken, hunwinding] at hframe
    have hmem : frame ∈ unwinding.frames :=
      unwinding.frames_perm.symm.subset (List.mem_append_right _ hframe)
    rw [← h.node]
    exact ((h.positioned unwinding hunwinding).linked frame hmem visited).mp hvisited

/-- What a program leaves of a list. -/
theorem foldl_performed_visitorFrames (program : List (Command Node (Access Frame)))
    {data : Node → Guarded Frame} {visited : Node} (hnodup : (data visited).visitorFrames.Nodup) :
    (program.foldl (Command.performed Access.perform) data visited).visitorFrames =
      (data visited).visitorFrames.filter fun frame => decide ((visited, frame) ∉ erased program) := by
  induction program generalizing data with
  | nil => exact (List.filter_eq_self.mpr fun frame _ => decide_eq_true List.not_mem_nil).symm
  | cons command program ih =>
    have hcons : ∀ frame, (visited, frame) ∈ erased (command :: program) ↔
        erasedBy command = some (visited, frame) ∨ (visited, frame) ∈ erased program := by
      intro frame
      rw [erased, List.filterMap_cons]
      cases herased : erasedBy command with
      | none => simp [erased]
      | some other => simp [erased, eq_comm]
    rw [List.foldl_cons]
    by_cases herases : ∃ frame, erasedBy command = some (visited, frame)
    · obtain ⟨frame, herased⟩ := herases
      have hstep := performed_of_erasedBy herased data
      rw [ih (by rw [hstep]; exact hnodup.erase frame), hstep, hnodup.erase_eq_filter, List.filter_filter]
      refine List.filter_congr fun other _ => ?_
      rw [Bool.eq_iff_iff, Bool.and_eq_true, bne_iff_ne, decide_eq_true_iff, decide_eq_true_iff, hcons,
        herased, Option.some_inj, Prod.mk.injEq, not_or]
      tauto
    · have hne : ∀ frame, erasedBy command ≠ some (visited, frame) := fun frame h => herases ⟨frame, h⟩
      have hstep := performed_of_ne hne data
      rw [ih (by rw [hstep]; exact hnodup), hstep]
      refine List.filter_congr fun other _ => ?_
      rw [decide_eq_decide, hcons, or_iff_right (hne other)]

/-- What a call leaves of a list in which it finds no frame of another node. -/
theorem ThreadCall.performed_visitorFrames (call : ThreadCall isLeaf findChildNode node root)
    (data : Node → Guarded Frame) {visited : Node} (hnodup : (data visited).visitorFrames.Nodup)
    (hlinked : ∀ frame ∈ call.taken, frame ∈ (data visited).visitorFrames → visited = node frame) :
    (call.commands.foldl (Command.performed Access.perform) data visited).visitorFrames =
      (data visited).visitorFrames.filter fun frame => decide (frame ∉ call.taken) := by
  rw [foldl_performed_visitorFrames call.commands hnodup]
  refine List.filter_congr fun frame hframe => ?_
  rw [decide_eq_decide, erased_commands, mem_map_visited]
  exact not_congr (and_iff_left_of_imp fun htaken => hlinked frame htaken hframe)

omit [DecidableEq Frame] in
/-- A thread that is alone may latch in any order. -/
theorem ThreadCall.disciplined_alone (call : ThreadCall isLeaf findChildNode node root) :
    Disciplined (fun _ _ => True) [] call.commands [] := by
  cases call with
  | find call => exact call.disciplined (fun _ _ _ => trivial) fun _ _ _ => trivial
  | store leafNode hleaf key value => exact .criticalSection _ leafNode (.insert key value)
  | unpositioned => exact rfl

/-- A thread that runs alone does with latches and lists what `find` does. -/
theorem find_alone (h : call.Starts state) (htree : IsTree isLeaf (IsChild findChildNode) root)
    (findValue : Node → Bytes → Except String Unit) (data : Node → Guarded Frame)
    (hdata : ∀ node, (data node).visitorFrames = state.visitorFrames node) :
    ∃ enough after s, (∀ rounds, enough ≤ rounds →
        (find true isLeaf findChildNode findValue rounds call.key).exec state =
          ((findValue call.leaf call.key).mapError .logicError, after)) ∧
      run (step Access.perform) (start (fun _ : Unit => call.commands) data)
        (List.replicate call.commands.length ()) = some s ∧
      s.todo () = [] ∧ (∀ node, (s.data node).visitorFrames = after.visitorFrames node) ∧
      (∀ latch, s.holder latch = none) ∧ after.latched = [] := by
  obtain ⟨enough, after, hfind, hends⟩ := h.exec_find htree findValue
  obtain ⟨s, hrun, htodo, hdone, hfree⟩ :=
    run_only Access.perform (ThreadCall.find call).disciplined_alone data
  refine ⟨enough, after, s, hfind, hrun, htodo, fun visited => ?_, hfree, hends.unlatched⟩
  rw [hdone, hends.visitors, ← hdata]
  refine (ThreadCall.find call).performed_visitorFrames data ?_ fun frame hframe hmem => ?_
  · rw [hdata]
    exact h.once visited
  · exact h.linked hframe (hdata visited ▸ hmem)

/-- A cursor whose stack is half full, with its first frame at the root. -/
def findHalfFull : FindCall (fun node : Nat => decide (1 ≤ node)) (fun node _ => node + 1)
    (fun frame : Nat => frame) 0 where
  key := .repeated 1 7
  unwinding := some halfFull
  events := findBelowRoot.events
  leaf := 1
  descent := descent_belowRoot
  inTree := by
    intro _ _ frame _
    rcases Nat.eq_zero_or_pos frame with rfl | hleaf
    · exact isTree_twoLevels
    · exact .leaf (decide_eq_true hleaf)

theorem findHalfFull_starts : findHalfFull.Starts ⟨visiting 32, .empty, none, none, []⟩ := by
  have hpositioned : Positioned (visiting 32) halfFull.frames := visiting_positioned (by decide)
  refine ⟨rfl, rfl, hpositioned.once, rfl, (fun h => nomatch h), ?_⟩
  intro unwinding hunwinding
  obtain rfl := Option.some.inj hunwinding
  exact hpositioned

theorem find_alone_halfFull :
    ∃ enough after s, (∀ rounds, enough ≤ rounds →
        (find true (fun node : Nat => decide (1 ≤ node)) (fun node _ => node + 1)
          (fun _ _ => .error "unimplemented") rounds (.repeated 1 7)).exec
            ⟨visiting 32, .empty, none, none, []⟩ = (.error (.logicError "unimplemented"), after)) ∧
      run (step Access.perform) (start (fun _ : Unit => findHalfFull.commands)
          fun node => ⟨(visiting 32).visitorFrames node, slow.LeafNode.construct⟩)
        (List.replicate findHalfFull.commands.length ()) = some s ∧
      s.todo () = [] ∧ (∀ node, (s.data node).visitorFrames = after.visitorFrames node) ∧
      (∀ latch, s.holder latch = none) ∧ after.latched = [] :=
  find_alone findHalfFull_starts isTree_twoLevels (fun _ _ => .error "unimplemented") _ fun _ => rfl

end tupl.pvt.ops
