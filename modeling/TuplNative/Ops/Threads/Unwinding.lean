import TuplNative.Latching.Deadlock
import TuplNative.Ops.Threads

open Latching

namespace tupl.pvt.ops

variable {Node Frame : Type}

/-- The frame that a command erases, with the node whose list it is erased from. -/
def erasedBy : Command Node (Access Frame) → Option (Node × Frame)
  | .access node (.erase frame) => some (node, frame)
  | _ => none

/-- The frames that a program erases, in that order. -/
def erased (program : List (Command Node (Access Frame))) : List (Node × Frame) := program.filterMap erasedBy

theorem erased_append (program rest : List (Command Node (Access Frame))) :
    erased (program ++ rest) = erased program ++ erased rest :=
  List.filterMap_append

section Visitors

variable [DecidableEq Node] [DecidableEq Frame] {Thread : Type} [DecidableEq Thread]
  {programs : Thread → List (Command Node (Access Frame))} {data : Node → Guarded Frame}
  {schedule : List Thread} {s : System Thread Node (Access Frame) (Guarded Frame)}

theorem performed_of_erasedBy {command : Command Node (Access Frame)} {node : Node} {frame : Frame}
    (h : erasedBy command = some (node, frame)) (data : Node → Guarded Frame) :
    (command.performed Access.perform data node).visitorFrames = (data node).visitorFrames.erase frame := by
  unfold erasedBy at h
  split at h
  · cases h
    rw [Command.performed, Function.update_self]
    rfl
  · cases h

theorem performed_of_ne {command : Command Node (Access Frame)} {node : Node}
    (h : ∀ frame, erasedBy command ≠ some (node, frame)) (data : Node → Guarded Frame) :
    (command.performed Access.perform data node).visitorFrames = (data node).visitorFrames := by
  cases command with
  | acquire latch => rfl
  | release latch => rfl
  | access latch how =>
    rw [Command.performed]
    by_cases hlatch : node = latch
    · subst hlatch
      rw [Function.update_self]
      cases how with
      | test => rfl
      | erase frame => exact absurd rfl (h frame)
      | insert key value =>
        rw [Access.perform]
        split <;> rfl
    · rw [Function.update_of_ne hlatch]

/-- What is erased after a step. -/
theorem forall_not_mem_erased_concat (hrun : run (step Access.perform) (start programs data) schedule = some s)
    {command : Command Node (Access Frame)} {rest : List (Command Node (Access Frame))} {u : Thread}
    (htodo : s.todo u = command :: rest) {target : Node × Frame} :
    (∀ t, target ∉ erased ((programs t).take ((schedule ++ [u]).count t))) ↔
      (∀ t, target ∉ erased ((programs t).take (schedule.count t))) ∧ erasedBy command ≠ some target := by
  have hstep : target ∈ erased [command] ↔ erasedBy command = some target := by
    cases herased : erasedBy command with
    | none => simp [erased, herased]
    | some other => simp [erased, herased, eq_comm]
  constructor
  · intro h
    refine ⟨fun t hmem => h t ?_, fun herased => h u ?_⟩
    · rw [run_take_concat hrun htodo, erased_append]
      exact List.mem_append_left _ hmem
    · rw [run_take_concat hrun htodo, if_pos rfl, erased_append]
      exact List.mem_append_right _ (hstep.mpr herased)
  · rintro ⟨h, hcommand⟩ t hmem
    rw [run_take_concat hrun htodo, erased_append, List.mem_append] at hmem
    rcases hmem with hmem | hmem
    · exact h t hmem
    · split at hmem
      · exact hcommand (hstep.mp hmem)
      · cases hmem

/-- In every order of steps the list of a node keeps its order, without the frames that
threads have erased so far. -/
theorem run_visitorFrames (hnodup : ∀ node, (data node).visitorFrames.Nodup)
    (hrun : run (step Access.perform) (start programs data) schedule = some s) (node : Node) :
    (s.data node).visitorFrames.Sublist (data node).visitorFrames ∧
      ∀ frame, frame ∈ (s.data node).visitorFrames ↔ frame ∈ (data node).visitorFrames ∧
        ∀ t, (node, frame) ∉ erased ((programs t).take (schedule.count t)) := by
  apply run.along (fun schedule s => (s.data node).visitorFrames.Sublist (data node).visitorFrames ∧
    ∀ frame, frame ∈ (s.data node).visitorFrames ↔ frame ∈ (data node).visitorFrames ∧
      ∀ t, (node, frame) ∉ erased ((programs t).take (schedule.count t))) ?_ ?_ hrun
  · refine ⟨List.Sublist.refl _, fun frame => ?_⟩
    simp only [List.count_nil, List.take_zero, erased, List.filterMap_nil, List.not_mem_nil,
      not_false_eq_true, implies_true, and_true, start]
  · rintro done u s s' hrun ⟨hsublist, hmem⟩ hstep
    obtain ⟨command, rest, htodo, _, rfl⟩ := step_eq_some hstep
    rw [System.after_data]
    by_cases herases : ∃ frame, erasedBy command = some (node, frame)
    · obtain ⟨frame, herased⟩ := herases
      rw [performed_of_erasedBy herased]
      refine ⟨List.erase_sublist.trans hsublist, fun other => ?_⟩
      rw [((hnodup node).sublist hsublist).mem_erase_iff, hmem, forall_not_mem_erased_concat hrun htodo,
        herased]
      simp only [ne_eq, Option.some_inj, Prod.mk.injEq, true_and, eq_comm (a := frame)]
      tauto
    · have hne : ∀ frame, erasedBy command ≠ some (node, frame) := fun frame h => herases ⟨frame, h⟩
      rw [performed_of_ne hne]
      refine ⟨hsublist, fun other => ?_⟩
      rw [hmem, forall_not_mem_erased_concat hrun htodo, and_iff_left (hne other)]

end Visitors

section Calls

variable {isLeaf : Node → Bool} {findChildNode : Node → Bytes → Node} {node : Frame → Node} {root : Node}

/-- The frames that a call takes from the stack of its cursor, in that order. -/
def ThreadCall.taken : ThreadCall isLeaf findChildNode node root → List Frame
  | .find call => call.taken
  | .store _ _ _ _ => []
  | .unpositioned => []

/-- The frames that one call after the other takes. -/
def sessionTaken (calls : List (ThreadCall isLeaf findChildNode node root)) : List Frame :=
  calls.flatMap ThreadCall.taken

section Issues

variable {Cursor : Type} [DecidableEq Cursor] {positions after : Cursor → Position Frame}
  {requests : List (Cursor × Request)} {calls : List (ThreadCall isLeaf findChildNode node root)}

/-- No call puts a frame on a stack. -/
theorem Issues.after_subset (h : Issues positions requests calls after) (cursor : Cursor) :
    (after cursor).frames ⊆ (positions cursor).frames := by
  induction h with
  | nil => exact List.Subset.refl _
  | @find positions after searcher requests calls call hstack _ ih =>
    exact List.Subset.trans ih (FindCall.searched_subset hstack cursor)
  | store value hstack hleaf _ ih => exact ih
  | unpositioned value hstack _ ih => exact ih

/-- The frames that the calls take, each once, are those that have gone from the stacks. -/
theorem Issues.taken (h : Issues positions requests calls after)
    (honce : ∀ cursor, (positions cursor).frames.Nodup)
    (hapart : ∀ cursor other, cursor ≠ other → (positions cursor).frames.Disjoint (positions other).frames) :
    (sessionTaken calls).Nodup ∧ ∀ frame, frame ∈ sessionTaken calls ↔
      ∃ cursor, frame ∈ (positions cursor).frames ∧ frame ∉ (after cursor).frames := by
  induction h with
  | nil =>
    refine ⟨List.nodup_nil, fun frame => iff_of_false List.not_mem_nil ?_⟩
    rintro ⟨_, hmem, hgone⟩
    exact hgone hmem
  | @find positions after searcher requests calls call hstack hrest ih =>
    have hparts := FindCall.searched_perm hstack
    have hfewer := FindCall.searched_subset hstack
    have hstays : ∀ cursor frame, frame ∈ (Function.update positions searcher ⟨call.key, call.left⟩
        cursor).frames → frame ∉ call.taken :=
      fun cursor frame => FindCall.not_mem_taken hstack honce hapart
    obtain ⟨hnodup, hmem⟩ := ih (FindCall.searched_nodup hstack honce)
      fun cursor other hne frame hframe hother => hapart cursor other hne (hfewer _ hframe) (hfewer _ hother)
    constructor
    · have htaken := (List.nodup_append.mp (hparts.nodup_iff.mp (honce searcher))).2.1
      refine List.nodup_append.mpr ⟨htaken, hnodup, ?_⟩
      rintro frame hframe other hother rfl
      obtain ⟨cursor, hcursor, _⟩ := (hmem frame).mp hother
      exact hstays cursor frame hcursor hframe
    · intro frame
      rw [sessionTaken, List.flatMap_cons, List.mem_append]
      change frame ∈ call.taken ∨ frame ∈ sessionTaken calls ↔ _
      rw [hmem]
      constructor
      · rintro (hframe | ⟨cursor, hcursor, hafter⟩)
        · refine ⟨searcher, hparts.symm.subset (List.mem_append_right _ hframe), fun hafter => ?_⟩
          exact hstays searcher frame (hrest.after_subset searcher hafter) hframe
        · exact ⟨cursor, hfewer _ hcursor, hafter⟩
      · rintro ⟨cursor, hcursor, hafter⟩
        by_cases hsame : cursor = searcher
        · subst hsame
          rcases List.mem_append.mp (hparts.subset hcursor) with hleft | htakes
          · exact Or.inr ⟨cursor, hleft, hafter⟩
          · exact Or.inl htakes
        · refine Or.inr ⟨cursor, ?_, hafter⟩
          rw [Function.update_of_ne hsame]
          exact hcursor
  | store value hstack hleaf _ ih => exact ih honce hapart
  | unpositioned value hstack _ ih => exact ih honce hapart

end Issues

variable [DecidableEq Node]

theorem erased_commands (call : ThreadCall isLeaf findChildNode node root) :
    erased call.commands = call.taken.map fun frame => (node frame, frame) := by
  cases call with
  | store leafNode hleaf key value => rfl
  | unpositioned => rfl
  | find call =>
    have hdown : erased (call.events.map (Event.command : Event Node → Command Node (Access Frame))) = [] := by
      refine List.filterMap_eq_nil_iff.mpr fun command hcommand => ?_
      obtain ⟨event, _, rfl⟩ := List.mem_map.mp hcommand
      unfold Event.command
      split <;> rfl
    rw [ThreadCall.commands, FindCall.commands, erased_append, erased_append, hdown, List.append_nil]
    cases hunwinding : call.unwinding with
    | none => simp [ThreadCall.taken, FindCall.taken, hunwinding, lockRootCommands, erased, erasedBy]
    | some unwinding =>
      have hupper : ∀ frames : List Frame, erased (frames.flatMap (unwindFrameCommands node)) =
          frames.map fun frame => (node frame, frame) := by
        intro frames
        induction frames with
        | nil => rfl
        | cons frame frames ih =>
          rw [List.flatMap_cons, erased_append, ih]
          rfl
      have hlast : erased (unwindRootFrameCommands node root unwinding.last) =
          [(node unwinding.last, unwinding.last)] := by
        rw [unwindRootFrameCommands, erased_append]
        split <;> rfl
      rw [lockRootCommands, erased_append, hupper, hlast, ThreadCall.taken, FindCall.taken, hunwinding]
      have hreleased : erased [(.release call.leaf : Command Node (Access Frame))] = [] := rfl
      rw [hreleased, List.append_nil, Option.elim_some, Unwinding.taken, List.map_append, List.map_singleton]

theorem erased_session (calls : List (ThreadCall isLeaf findChildNode node root)) :
    erased (sessionCommands calls) = (sessionTaken calls).map fun frame => (node frame, frame) := by
  induction calls with
  | nil => rfl
  | cons call calls ih =>
    rw [sessionCommands, sessionTaken, List.flatMap_cons, List.flatMap_cons, erased_append, List.map_append,
      erased_commands]
    exact congrArg _ ih

omit [DecidableEq Node] in
theorem mem_map_visited {frames : List Frame} {visited : Node} {frame : Frame} :
    (visited, frame) ∈ frames.map (fun frame => (node frame, frame)) ↔
      frame ∈ frames ∧ visited = node frame := by
  rw [List.mem_map]
  constructor
  · rintro ⟨frame, hframe, heq⟩
    cases heq
    exact ⟨hframe, rfl⟩
  · rintro ⟨hframe, rfl⟩
    exact ⟨frame, hframe, rfl⟩

variable [DecidableEq Frame] {Cursor Thread : Type} [DecidableEq Cursor] [DecidableEq Thread]

/-- Cursors can be unwound at the same time. In every order of steps each frame is still
linked when its thread erases it; what is not erased keeps its order; and when all calls are
done, each list has lost the frames that have gone from the stacks of the cursors and nothing
else. -/
theorem unwindings_complete (sessions : Thread → ThreadSession Cursor isLeaf findChildNode node root)
    (data : Node → Guarded Frame) (hnodup : ∀ node, (data node).visitorFrames.Nodup)
    (hlinked : ∀ t cursor, ∀ frame ∈ ((sessions t).positions cursor).frames, ∀ other,
      frame ∈ (data other).visitorFrames ↔ other = node frame)
    (honce : ∀ t cursor, ((sessions t).positions cursor).frames.Nodup)
    (hapart : ∀ t cursor u other, (t, cursor) ≠ (u, other) →
      ((sessions t).positions cursor).frames.Disjoint ((sessions u).positions other).frames)
    {schedule : List Thread} {s : System Thread Node (Access Frame) (Guarded Frame)}
    (hrun : run (step Access.perform) (start (fun t => (sessions t).commands) data) schedule = some s) :
    (∀ t visited frame rest, s.todo t = .access visited (.erase frame) :: rest →
        frame ∈ (s.data visited).visitorFrames) ∧
      (∀ visited, (s.data visited).visitorFrames.Sublist (data visited).visitorFrames) ∧
      ((∀ t, s.todo t = []) → ∀ visited frame, frame ∈ (s.data visited).visitorFrames ↔
        frame ∈ (data visited).visitorFrames ∧ ∀ t cursor,
          frame ∈ ((sessions t).positions cursor).frames → frame ∈ ((sessions t).after cursor).frames) := by
  have htaken : ∀ t, (sessionTaken (sessions t).calls).Nodup ∧ ∀ frame,
      frame ∈ sessionTaken (sessions t).calls ↔ ∃ cursor, frame ∈ ((sessions t).positions cursor).frames ∧
        frame ∉ ((sessions t).after cursor).frames := by
    intro t
    refine (sessions t).issues.taken (honce t) fun cursor other hne => hapart t cursor t other ?_
    exact fun heq => hne (Prod.mk.inj heq).2
  have herased : ∀ t, erased (sessions t).commands =
      (sessionTaken (sessions t).calls).map fun frame => (node frame, frame) :=
    fun t => erased_session (sessions t).calls
  refine ⟨?_, fun visited => (run_visitorFrames hnodup hrun visited).1, ?_⟩
  · intro t visited frame rest htodo
    have hparts : (sessions t).commands.take (schedule.count t) ++
        .access visited (.erase frame) :: rest = (sessions t).commands := by
      rw [← htodo, (run_todo hrun t).1, List.take_append_drop]
    have hsplit : erased ((sessions t).commands.take (schedule.count t)) ++
        (visited, frame) :: erased rest = erased (sessions t).commands :=
      (erased_append _ _).symm.trans (congrArg erased hparts)
    have hmem : (visited, frame) ∈ erased (sessions t).commands := by
      rw [← hsplit]
      exact List.mem_append_right _ List.mem_cons_self
    rw [herased, mem_map_visited, (htaken t).2] at hmem
    obtain ⟨⟨cursor, hframe, _⟩, hvisited⟩ := hmem
    rw [(run_visitorFrames hnodup hrun visited).2]
    refine ⟨(hlinked t cursor frame hframe visited).mpr hvisited, fun u hearlier => ?_⟩
    by_cases hu : u = t
    · subst hu
      have hdistinct : (erased (sessions u).commands).Nodup := by
        rw [herased]
        exact (htaken u).1.map fun frame other heq => (Prod.mk.inj heq).2
      rw [← hsplit] at hdistinct
      exact (List.nodup_append.mp hdistinct).2.2 _ hearlier _ List.mem_cons_self rfl
    · have hother : (visited, frame) ∈ erased (sessions u).commands := by
        rw [← List.take_append_drop (schedule.count u) (sessions u).commands, erased_append]
        exact List.mem_append_left _ hearlier
      rw [herased, mem_map_visited, (htaken u).2] at hother
      obtain ⟨⟨other, hframe', _⟩, _⟩ := hother
      exact hapart u other t cursor (fun heq => hu (Prod.mk.inj heq).1) hframe' hframe
  · intro hdone visited frame
    have hall : ∀ t, (sessions t).commands.take (schedule.count t) = (sessions t).commands := by
      intro t
      have hparts := List.take_append_drop (schedule.count t) (sessions t).commands
      rwa [← (run_todo hrun t).1, hdone t, List.append_nil] at hparts
    rw [(run_visitorFrames hnodup hrun visited).2]
    refine and_congr_right fun hframe => forall_congr' fun t => ?_
    rw [hall t, herased, mem_map_visited, (htaken t).2]
    constructor
    · intro hnot cursor hcursor
      by_contra hafter
      exact hnot ⟨⟨cursor, hcursor, hafter⟩, (hlinked t cursor frame hcursor visited).mp hframe⟩
    · rintro hstays ⟨⟨cursor, hcursor, hafter⟩, _⟩
      exact hafter (hstays cursor hcursor)

end Calls

/-- The frames of two cursors with full ways: the even and the odd ones below 64. -/
def halfFullOf (t : Bool) : Unwinding Nat where
  left := []
  last := t.toNat
  upper := (List.range 31).map fun i => 2 * (i + 1) + t.toNat
  fits := by cases t <;> decide
  rounds := by cases t <;> decide

theorem isTree_halfway (frame : Nat) :
    IsTree (fun node : Nat => decide (1 ≤ node)) (IsChild fun node _ => node + 1) (min (frame / 2) 1) :=
  isTree_belowRoot (frame / 2)

/-- Its search. The bottom frame is at the root, and the others are at the leaf. -/
def findUnwinding (t : Bool) : FindCall (fun node : Nat => decide (1 ≤ node)) (fun node _ => node + 1)
    (fun frame : Nat => min (frame / 2) 1) 0 where
  key := .repeated 1 7
  unwinding := some (halfFullOf t)
  events := findBelowRoot.events
  leaf := 1
  descent := descent_belowRoot
  inTree := fun _ _ frame _ => isTree_halfway frame

theorem issues_unwinding (t : Bool) :
    Issues (fun _ : Unit => ⟨.empty, (halfFullOf t).frames⟩) [((), .find (findUnwinding t).key)]
      [.find (findUnwinding t)]
      (Function.update (fun _ => ⟨.empty, (halfFullOf t).frames⟩) () ⟨(findUnwinding t).key, []⟩) :=
  .find (findUnwinding t) rfl .nil

/-- Each thread has one of the cursors. -/
def unwindings (t : Bool) : ThreadSession Unit (fun node : Nat => decide (1 ≤ node)) (fun node _ => node + 1)
    (fun frame : Nat => min (frame / 2) 1) 0 :=
  ⟨_, _, _, _, issues_unwinding t⟩

/-- A third cursor visits the root too. -/
def visitedByThree (visited : Nat) : Guarded Nat :=
  ⟨((List.range 64).filter fun frame => decide (min (frame / 2) 1 = visited)) ++
    (if visited = 0 then [64] else []), slow.LeafNode.construct⟩

theorem mem_halfFullOf_iff (t : Bool) (frame : Nat) :
    frame ∈ (halfFullOf t).frames ↔ frame < 64 ∧ frame % 2 = t.toNat := by
  simp only [halfFullOf, Unwinding.frames, List.nil_append, List.mem_cons, List.mem_map, List.mem_range]
  constructor
  · rintro (rfl | ⟨i, hi, rfl⟩)
    · cases t <;> decide
    · have := t.toNat_lt
      omega
  · rintro ⟨hlt, hparity⟩
    have := t.toNat_lt
    rcases Nat.lt_or_ge frame 2 with hbottom | habove
    · exact Or.inl (by omega)
    · exact Or.inr ⟨frame / 2 - 1, by omega, by omega⟩

theorem nodup_halfFullOf (t : Bool) : (halfFullOf t).frames.Nodup := by
  cases t <;> decide

theorem mem_visitedByThree_iff {frame : Nat} (hframe : frame < 64) (visited : Nat) :
    frame ∈ (visitedByThree visited).visitorFrames ↔ visited = min (frame / 2) 1 := by
  have hother : frame ∉ if visited = 0 then [64] else [] := by
    split
    · rw [List.mem_singleton]
      omega
    · exact List.not_mem_nil
  rw [visitedByThree, List.mem_append, or_iff_left hother, List.mem_filter, List.mem_range,
    and_iff_right hframe, decide_eq_true_iff, eq_comm]

theorem nodup_visitedByThree (visited : Nat) : (visitedByThree visited).visitorFrames.Nodup := by
  refine List.nodup_append.mpr ⟨List.nodup_range.filter _, ?_, ?_⟩
  · split
    · exact List.nodup_singleton _
    · exact List.nodup_nil
  · intro frame hframe other hother
    have hlt := List.mem_range.mp (List.mem_of_mem_filter hframe)
    split at hother
    · rw [List.mem_singleton.mp hother]
      exact Nat.ne_of_lt hlt
    · cases hother

theorem unwindings_complete_twoCursors :
    ∃ s, run (step Access.perform) (start (fun t => (unwindings t).commands) visitedByThree)
          [true, true, true, false, false, false, true, true] = some s ∧
      (∀ t visited frame rest, s.todo t = .access visited (.erase frame) :: rest →
        frame ∈ (s.data visited).visitorFrames) ∧
      (∀ visited, (s.data visited).visitorFrames.Sublist (visitedByThree visited).visitorFrames) ∧
      ((∀ t, s.todo t = []) → ∀ visited frame, frame ∈ (s.data visited).visitorFrames ↔
        frame ∈ (visitedByThree visited).visitorFrames ∧ ∀ t cursor,
          frame ∈ ((unwindings t).positions cursor).frames → frame ∈ ((unwindings t).after cursor).frames) := by
  have hrun : run (step Access.perform) (start (fun t => (unwindings t).commands) visitedByThree)
      [true, true, true, false, false, false, true, true] = some _ := rfl
  refine ⟨_, hrun, unwindings_complete unwindings visitedByThree nodup_visitedByThree ?_ ?_ ?_ hrun⟩
  · intro t cursor frame hframe visited
    exact mem_visitedByThree_iff ((mem_halfFullOf_iff t frame).mp hframe).1 visited
  · exact fun t _ => nodup_halfFullOf t
  · intro t cursor u other hne frame hframe hother
    have hmine := ((mem_halfFullOf_iff t frame).mp hframe).2
    have htheirs := ((mem_halfFullOf_iff u frame).mp hother).2
    have hsame : t = u := by
      cases t <;> cases u <;> simp_all
    exact hne (Prod.ext hsame rfl)

end tupl.pvt.ops
