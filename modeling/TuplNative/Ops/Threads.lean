import TuplNative.Latching.HandOverHand
import TuplNative.Ops.Sessions

open Latching

namespace tupl.pvt.ops

/-- What the latch of a node guards: the frames that visit the node, and its entries if it
is a leaf. -/
structure Guarded (Frame : Type) where
  visitorFrames : List Frame
  leaf : slow.LeafNode

/-- What a call of a cursor does with a node whose latch it holds. -/
inductive Access (Frame : Type) where
  | test
  | erase (frame : Frame)
  | insert (key value : Bytes)

variable {Node Frame : Type} [DecidableEq Node] [DecidableEq Frame]

/-- A leaf that refuses an entry or cannot take it without a split stays as it is. -/
def Access.perform : Access Frame → Guarded Frame → Guarded Frame
  | .test, guarded => guarded
  | .erase frame, guarded => { guarded with visitorFrames := guarded.visitorFrames.erase frame }
  | .insert key value, guarded =>
    if guarded.leaf.TooBig key value ∨ guarded.leaf.LacksRoom key value then guarded
    else { guarded with leaf := appended guarded.leaf key value }

/-- What `store` does under the latch of the leaf, as an access to the leaf. -/
theorem leaf_storeLatched (state : StoreState Node Frame) (leafNode : Node) (value : Bytes)
    (visitorFrames : List Frame) :
    ((storeLatched true leafNode value).exec state).2.leaf leafNode =
      (Access.perform (.insert state.key value) ⟨visitorFrames, state.leaf leafNode⟩).leaf := by
  rw [exec_storeLatched, Access.perform]
  by_cases hbig : (state.leaf leafNode).TooBig state.key value
  · rw [if_pos hbig, if_pos (Or.inl hbig)]
  by_cases hroom : (state.leaf leafNode).LacksRoom state.key value
  · rw [if_neg hbig, if_pos hroom, if_pos (Or.inr hroom)]
  · rw [if_neg hbig, if_neg hroom, if_neg (not_or.mpr ⟨hbig, hroom⟩)]
    exact Function.update_self _ _ _

/-- What a thread does for an event of `find`. -/
def Event.command (event : Event Node) : Command Node (Access Frame) :=
  match event.action with
  | .requested => .acquire event.node
  | .released => .release event.node
  | .tested => .access event.node .test

/-- A stack that `unwindAndLockRoot` does not read below the bottom of, from the bottom up: the
frames that it leaves, the one that it takes for the root, and those of its loop, one less than
the stack has free slots. -/
structure Unwinding (Frame : Type) where
  left : List Frame
  last : Frame
  upper : List Frame
  fits : (left ++ last :: upper).length ≤ 64
  rounds : upper.length = 64 - (left ++ last :: upper).length - 1

namespace Unwinding

omit [DecidableEq Node] [DecidableEq Frame]

/-- The stack. -/
def frames (unwinding : Unwinding Frame) : List Frame := unwinding.left ++ unwinding.last :: unwinding.upper

/-- The frames that are taken, in that order. -/
def taken (unwinding : Unwinding Frame) : List Frame := unwinding.upper.reverse ++ [unwinding.last]

theorem frames_perm (unwinding : Unwinding Frame) :
    unwinding.frames.Perm (unwinding.left ++ unwinding.taken) := by
  refine List.Perm.append_left _ ?_
  exact ((List.reverse_perm _).symm.cons _).trans (List.perm_append_singleton _ _).symm

/-- The loop stops at the bottom frame of a stack that is half full, and of no other one. -/
theorem left_eq_nil_iff (unwinding : Unwinding Frame) :
    unwinding.left = [] ↔ unwinding.frames.length = 32 := by
  have hfits := unwinding.fits
  have hrounds := unwinding.rounds
  rw [← List.length_eq_zero_iff, frames]
  rw [List.length_append, List.length_cons] at *
  omega

/-- A stack is unwound in one way. -/
theorem eq_of_frames_eq {unwinding other : Unwinding Frame} (h : unwinding.frames = other.frames) :
    unwinding = other := by
  obtain ⟨left, last, upper, fits, rounds⟩ := unwinding
  obtain ⟨left', last', upper', fits', rounds'⟩ := other
  have hframes : left ++ last :: upper = left' ++ last' :: upper' := h
  have hlength := congrArg List.length hframes
  have hupper : upper.length = upper'.length := by rw [rounds, rounds', hlength]
  rw [List.length_append, List.length_append, List.length_cons, List.length_cons] at hlength
  obtain ⟨rfl, htail⟩ := List.append_inj hframes (by omega)
  obtain ⟨rfl, rfl⟩ := List.cons.inj htail
  rfl

end Unwinding

/-- `unwindFrame` with assertions disabled. -/
def unwindFrameCommands (node : Frame → Node) (frame : Frame) : List (Command Node (Access Frame)) :=
  [.acquire (node frame), .access (node frame) (.erase frame), .release (node frame)]

/-- `unwindRootFrame` with assertions disabled. -/
def unwindRootFrameCommands (node : Frame → Node) (root : Node) (frame : Frame) :
    List (Command Node (Access Frame)) :=
  [.acquire (node frame), .access (node frame) (.erase frame)] ++
    if node frame ≠ root then [.acquire root, .release (node frame)] else []

/-- `lockRoot`, for an empty stack or one that is unwound. -/
def lockRootCommands (node : Frame → Node) (root : Node) :
    Option (Unwinding Frame) → List (Command Node (Access Frame))
  | none => [.acquire root]
  | some unwinding =>
    unwinding.upper.reverse.flatMap (unwindFrameCommands node) ++
      unwindRootFrameCommands node root unwinding.last

/-- A node that `findChildNode` selects below another for some key. -/
def IsChild (findChildNode : Node → Bytes → Node) (node next : Node) : Prop :=
  ∃ key, findChildNode node key = next

/-- A call of `find` in a tree whose shape stays as it is, with the way down that its key
selects. The frames of the cursor visit nodes of the tree. -/
structure FindCall (isLeaf : Node → Bool) (findChildNode : Node → Bytes → Node) (node : Frame → Node)
    (root : Node) where
  key : Bytes
  unwinding : Option (Unwinding Frame)
  events : List (Event Node)
  leaf : Node
  descent : Descent isLeaf (fun node => findChildNode node key) root events leaf
  inTree : ∀ unwinding' ∈ unwinding, ∀ frame ∈ unwinding'.last :: unwinding'.upper,
    IsTree isLeaf (IsChild findChildNode) (node frame)

/-- A call of a cursor, with what the position of the cursor has made of it. `store` gets the leaf
of the top frame and the key of the cursor, or throws where there is no frame. -/
inductive ThreadCall (isLeaf : Node → Bool) (findChildNode : Node → Bytes → Node) (node : Frame → Node)
    (root : Node) where
  | find (call : FindCall isLeaf findChildNode node root)
  | store (leafNode : Node) (hleaf : isLeaf leafNode = true) (key value : Bytes)
  | unpositioned

variable {isLeaf : Node → Bool} {findChildNode : Node → Bytes → Node} {node : Frame → Node} {root : Node}

/-- What the thread of `find` does. The latch of the leaf is released however the call ends. -/
def FindCall.commands (call : FindCall isLeaf findChildNode node root) :
    List (Command Node (Access Frame)) :=
  lockRootCommands node root call.unwinding ++ call.events.map Event.command ++ [.release call.leaf]

/-- What the thread of a call does. -/
def ThreadCall.commands : ThreadCall isLeaf findChildNode node root → List (Command Node (Access Frame))
  | .find call => call.commands
  | .store leafNode _ key value =>
    [.acquire leafNode, .access leafNode (.insert key value), .release leafNode]
  | .unpositioned => []

/-- What a thread does that makes one call after the other. -/
def sessionCommands (calls : List (ThreadCall isLeaf findChildNode node root)) :
    List (Command Node (Access Frame)) :=
  calls.flatMap ThreadCall.commands

namespace FindCall

/-- The stack of the cursor. -/
def frames (call : FindCall isLeaf findChildNode node root) : List Frame :=
  call.unwinding.elim [] Unwinding.frames

/-- The frames that stay on the stack. -/
def left (call : FindCall isLeaf findChildNode node root) : List Frame :=
  call.unwinding.elim [] Unwinding.left

/-- The frames that are taken from the stack, in that order. -/
def taken (call : FindCall isLeaf findChildNode node root) : List Frame :=
  call.unwinding.elim [] Unwinding.taken

/-- Either the cursor has no position, or the frame that it takes for the root is there. -/
def AtRoot (call : FindCall isLeaf findChildNode node root) : Prop :=
  ∀ unwinding ∈ call.unwinding, node unwinding.last = root

variable {call : FindCall isLeaf findChildNode node root}

omit [DecidableEq Node] [DecidableEq Frame]

theorem unwinding_eq_none (hframes : call.frames = []) : call.unwinding = none := by
  cases hunwinding : call.unwinding with
  | none => rfl
  | some unwinding =>
    rw [frames, hunwinding] at hframes
    exact absurd hframes (List.append_ne_nil_of_right_ne_nil _ (List.cons_ne_nil _ _))

theorem unwinding_eq_some {unwinding : Unwinding Frame} (hframes : call.frames = unwinding.frames) :
    call.unwinding = some unwinding := by
  cases hunwinding : call.unwinding with
  | none =>
    rw [frames, hunwinding] at hframes
    exact absurd hframes.symm (List.append_ne_nil_of_right_ne_nil _ (List.cons_ne_nil _ _))
  | some other =>
    rw [frames, hunwinding] at hframes
    rw [Unwinding.eq_of_frames_eq hframes]

/-- The frames of the stack stay or are taken. -/
theorem frames_perm (call : FindCall isLeaf findChildNode node root) :
    call.frames.Perm (call.left ++ call.taken) := by
  unfold frames left taken
  cases call.unwinding with
  | none => exact .refl _
  | some unwinding => exact unwinding.frames_perm

/-- A cursor whose bottom frame is the only one at the root takes that one for the root exactly
if its stack is half full. -/
theorem atRoot_iff_halfFull {bottom : Frame} {above : List Frame} (hframes : call.frames = bottom :: above)
    (hbottom : node bottom = root) (habove : ∀ frame ∈ above, node frame ≠ root) :
    call.AtRoot ↔ call.frames.length = 32 := by
  cases hunwinding : call.unwinding with
  | none =>
    rw [frames, hunwinding] at hframes
    cases hframes
  | some unwinding =>
    have hstack : call.frames = unwinding.frames := by rw [frames, hunwinding, Option.elim_some]
    rw [hstack] at hframes ⊢
    rw [← unwinding.left_eq_nil_iff, AtRoot, hunwinding]
    unfold Unwinding.frames at hframes
    cases hleft : unwinding.left with
    | nil =>
      rw [hleft, List.nil_append, List.cons.injEq] at hframes
      refine iff_of_true ?_ rfl
      intro other hother
      rw [← Option.some.inj hother, hframes.1, hbottom]
    | cons first left =>
      rw [hleft, List.cons_append, List.cons.injEq] at hframes
      refine iff_of_false (fun hroot => ?_) (List.cons_ne_nil _ _)
      refine habove unwinding.last ?_ (hroot unwinding rfl)
      rw [← hframes.2]
      exact List.mem_append_right _ List.mem_cons_self

end FindCall

/-- No call takes another node for the root. -/
def ThreadCall.AtRoot : ThreadCall isLeaf findChildNode node root → Prop
  | .find call => call.AtRoot
  | .store _ _ _ _ => True
  | .unpositioned => True

section Sessions

variable {Cursor : Type}

/-- What a cursor has between calls: its key, and its stack from the bottom up. -/
structure Position (Frame : Type) where
  key : slow.Buffer
  frames : List Frame
deriving DecidableEq

variable [DecidableEq Cursor]

/-- The calls that requests on cursors come to, one after the other, with the positions that the
cursors have afterwards. `find` sets the key of its cursor and takes frames from its stack, but
never puts one there. -/
inductive Issues : (Cursor → Position Frame) → List (Cursor × Request) →
    List (ThreadCall isLeaf findChildNode node root) → (Cursor → Position Frame) → Prop where
  | nil {positions : Cursor → Position Frame} : Issues positions [] [] positions
  | find {positions after : Cursor → Position Frame} {cursor : Cursor} {requests : List (Cursor × Request)}
    {calls : List (ThreadCall isLeaf findChildNode node root)} (call : FindCall isLeaf findChildNode node root)
    (hstack : call.frames = (positions cursor).frames)
    (hrest : Issues (Function.update positions cursor ⟨call.key, call.left⟩) requests calls after) :
    Issues positions ((cursor, .find call.key) :: requests) (.find call :: calls) after
  | store {positions after : Cursor → Position Frame} {cursor : Cursor} {requests : List (Cursor × Request)}
    {calls : List (ThreadCall isLeaf findChildNode node root)} {left : List Frame} {frame : Frame}
    (value : Bytes) (hstack : (positions cursor).frames = left ++ [frame]) (hleaf : isLeaf (node frame) = true)
    (hrest : Issues positions requests calls after) :
    Issues positions ((cursor, .store value) :: requests)
      (.store (node frame) hleaf (positions cursor).key value :: calls) after
  | unpositioned {positions after : Cursor → Position Frame} {cursor : Cursor}
    {requests : List (Cursor × Request)} {calls : List (ThreadCall isLeaf findChildNode node root)}
    (value : Bytes) (hstack : (positions cursor).frames = []) (hrest : Issues positions requests calls after) :
    Issues positions ((cursor, .store value) :: requests) (.unpositioned :: calls) after

namespace FindCall

variable {call : FindCall isLeaf findChildNode node root} {positions : Cursor → Position Frame}
  {searcher : Cursor}

omit [DecidableEq Node] [DecidableEq Frame]

/-- What a search leaves of the stack of its cursor, and what it takes. -/
theorem searched_perm (hstack : call.frames = (positions searcher).frames) :
    (positions searcher).frames.Perm
      ((Function.update positions searcher ⟨call.key, call.left⟩ searcher).frames ++ call.taken) := by
  rw [Function.update_self, ← hstack]
  exact call.frames_perm

theorem searched_subset (hstack : call.frames = (positions searcher).frames) (cursor : Cursor) :
    (Function.update positions searcher ⟨call.key, call.left⟩ cursor).frames ⊆ (positions cursor).frames := by
  by_cases hcursor : cursor = searcher
  · subst hcursor
    exact List.Subset.trans (List.subset_append_left _ _) (searched_perm hstack).symm.subset
  · rw [Function.update_of_ne hcursor]
    exact List.Subset.refl _

variable (hstack : call.frames = (positions searcher).frames)
  (honce : ∀ cursor, (positions cursor).frames.Nodup)
include hstack honce

theorem searched_nodup (cursor : Cursor) :
    (Function.update positions searcher ⟨call.key, call.left⟩ cursor).frames.Nodup := by
  by_cases hcursor : cursor = searcher
  · subst hcursor
    exact (List.nodup_append.mp ((searched_perm hstack).nodup_iff.mp (honce cursor))).1
  · rw [Function.update_of_ne hcursor]
    exact honce cursor

/-- No cursor has a frame that the search has taken. -/
theorem not_mem_taken
    (hapart : ∀ cursor other, cursor ≠ other → (positions cursor).frames.Disjoint (positions other).frames)
    {cursor : Cursor} {frame : Frame}
    (hframe : frame ∈ (Function.update positions searcher ⟨call.key, call.left⟩ cursor).frames) :
    frame ∉ call.taken := by
  intro htaken
  have hparts := searched_perm hstack
  by_cases hcursor : cursor = searcher
  · subst hcursor
    exact (List.nodup_append.mp (hparts.nodup_iff.mp (honce cursor))).2.2 frame hframe frame htaken rfl
  · exact hapart cursor searcher hcursor (searched_subset hstack cursor hframe)
      (hparts.symm.subset (List.mem_append_right _ htaken))

end FindCall

omit [DecidableEq Node] [DecidableEq Frame] in
theorem Issues.find_first {positions after : Cursor → Position Frame} {cursor : Cursor} {key : Bytes}
    {requests : List (Cursor × Request)} {calls : List (ThreadCall isLeaf findChildNode node root)}
    (h : Issues positions ((cursor, .find key) :: requests) calls after) :
    ∃ call more, calls = .find call :: more ∧ call.key = key ∧ call.frames = (positions cursor).frames := by
  cases h with
  | find call hstack hrest => exact ⟨call, _, rfl, rfl, hstack⟩

/-- What a thread does with its cursors: the positions that they begin with, its requests, and
what these come to. -/
structure ThreadSession (Cursor : Type) [DecidableEq Cursor] (isLeaf : Node → Bool)
    (findChildNode : Node → Bytes → Node) (node : Frame → Node) (root : Node) where
  positions : Cursor → Position Frame
  requests : List (Cursor × Request)
  calls : List (ThreadCall isLeaf findChildNode node root)
  after : Cursor → Position Frame
  issues : Issues positions requests calls after

/-- What the thread does. -/
def ThreadSession.commands (session : ThreadSession Cursor isLeaf findChildNode node root) :
    List (Command Node (Access Frame)) :=
  sessionCommands session.calls

end Sessions

/-- The order in which latches are acquired: from an internal node to its children. -/
def Above (isLeaf : Node → Bool) (findChildNode : Node → Bytes → Node) (node next : Node) : Prop :=
  isLeaf node = false ∧ IsChild findChildNode node next

omit [DecidableEq Node] [DecidableEq Frame] in
/-- In a tree there is no infinite way down. -/
theorem IsTree.acc {node : Node} (h : IsTree isLeaf (IsChild findChildNode) node) :
    Acc (fun later earlier => Above isLeaf findChildNode earlier later) node := by
  induction h with
  | leaf hleaf =>
    refine ⟨_, fun next hnext => ?_⟩
    rw [hnext.1] at hleaf
    cases hleaf
  | internal hinternal _ ih => exact ⟨_, fun next hnext => ih next hnext.2⟩

section Discipline

variable {key : Bytes} {events : List (Event Node)} {leaf : Node}

variable (Frame) in
omit [DecidableEq Frame] in
theorem Descent.disciplined {node : Node}
    (h : Descent isLeaf (fun node => findChildNode node key) node events leaf) :
    Disciplined (Above isLeaf findChildNode) [node]
      (events.map (Event.command : Event Node → Command Node (Access Frame))) [leaf] := by
  induction h with
  | leaf hleaf => exact ⟨List.mem_cons_self, rfl⟩
  | @child node leaf events hinternal hne _ ih =>
    have hstep : Disciplined (Above isLeaf findChildNode) [node]
        ([.access node .test, .acquire (findChildNode node key), .release node] :
          List (Command Node (Access Frame))) [findChildNode node key] :=
      .handOver .test ⟨hinternal, key, rfl⟩ hne
    exact hstep.append ih

omit [DecidableEq Node] [DecidableEq Frame] in
/-- What `find` acquires on the way down is part of the tree. -/
theorem Descent.acquires_inTree {node latch : Node}
    (h : Descent isLeaf (fun node => findChildNode node key) node events leaf)
    (htree : IsTree isLeaf (IsChild findChildNode) node)
    (hlatch : .acquire latch ∈ events.map (Event.command : Event Node → Command Node (Access Frame))) :
    IsTree isLeaf (IsChild findChildNode) latch := by
  induction h with
  | leaf hleaf => simp [Event.command] at hlatch
  | @child node leaf events hinternal hne _ ih =>
    have hchild : IsTree isLeaf (IsChild findChildNode) (findChildNode node key) := by
      cases htree with
      | leaf hleaf =>
        rw [hleaf] at hinternal
        cases hinternal
      | internal _ hchildren => exact hchildren _ ⟨key, rfl⟩
    simp only [List.map_cons, Event.command, List.mem_cons, reduceCtorEq, Command.acquire.injEq,
      false_or] at hlatch
    rcases hlatch with rfl | hlatch
    · exact hchild
    · exact ih hchild hlatch

section Order

variable {before : Node → Node → Prop}

omit [DecidableEq Frame] in
/-- Whatever is unwound first, the latch of the root is held in the end and no other. -/
theorem lockRoot_disciplined {unwinding : Option (Unwinding Frame)}
    (hroot : ∀ unwinding' ∈ unwinding, node unwinding'.last ≠ root → before (node unwinding'.last) root) :
    Disciplined before [] (lockRootCommands node root unwinding) [root] := by
  cases unwinding with
  | none => exact ⟨Command.allowed_first before root, rfl⟩
  | some unwinding =>
    refine (Disciplined.flatMap fun frame _ => .criticalSection before (node frame) (.erase frame)).append ?_
    unfold unwindRootFrameCommands
    by_cases hlast : node unwinding.last = root
    · rw [if_neg (not_not.mpr hlast), hlast, List.append_nil]
      exact ⟨Command.allowed_first before root, List.mem_cons_self, rfl⟩
    · have hfree : root ∉ [node unwinding.last] := fun hmem => hlast (List.mem_singleton.mp hmem).symm
      have hbefore : ∀ other ∈ [node unwinding.last], before other root := by
        intro other hother
        obtain rfl := List.mem_singleton.mp hother
        exact hroot unwinding rfl hlast
      have hleft : [root, node unwinding.last].erase (node unwinding.last) = [root] := by
        rw [List.erase_cons_tail (by simpa using Ne.symm hlast), List.erase_cons_head]
      rw [if_pos hlast]
      exact ⟨Command.allowed_first before _, List.mem_cons_self, ⟨hfree, hbefore⟩,
        List.mem_cons_of_mem _ List.mem_cons_self, hleft⟩

variable (habove : ∀ node next, Above isLeaf findChildNode node next → before node next)
include habove

omit [DecidableEq Frame] in
theorem FindCall.disciplined (call : FindCall isLeaf findChildNode node root)
    (hroot : ∀ unwinding ∈ call.unwinding, node unwinding.last ≠ root → before (node unwinding.last) root) :
    Disciplined before [] call.commands [] := by
  refine ((lockRoot_disciplined hroot).append ((call.descent.disciplined Frame).mono habove)).append ?_
  exact ⟨List.mem_cons_self, List.erase_cons_head _ _⟩

end Order

omit [DecidableEq Frame] in
theorem ThreadCall.disciplined {call : ThreadCall isLeaf findChildNode node root} (hroot : call.AtRoot) :
    Disciplined (Above isLeaf findChildNode) [] call.commands [] := by
  cases call with
  | find call =>
    exact call.disciplined (fun _ _ h => h) fun unwinding hunwinding hne =>
      absurd (hroot unwinding hunwinding) hne
  | store leafNode hleaf key value => exact .criticalSection _ leafNode (.insert key value)
  | unpositioned => exact rfl

omit [DecidableEq Frame] in
/-- Calls acquire latches of the tree only. -/
theorem ThreadCall.acquires_inTree (htree : IsTree isLeaf (IsChild findChildNode) root)
    {call : ThreadCall isLeaf findChildNode node root} {latch : Node}
    (hlatch : .acquire latch ∈ call.commands) : IsTree isLeaf (IsChild findChildNode) latch := by
  cases call with
  | find call =>
    rw [ThreadCall.commands, FindCall.commands, List.mem_append, List.mem_append] at hlatch
    rcases hlatch with (hlock | hdown) | hrelease
    · have hinTree := call.inTree
      cases hunwinding : call.unwinding with
      | none =>
        rw [hunwinding] at hlock
        obtain rfl := Command.acquire.inj (List.mem_singleton.mp hlock)
        exact htree
      | some unwinding =>
        rw [hunwinding] at hlock
        rcases List.mem_append.mp hlock with hupper | hlast
        · obtain ⟨frame, hframe, hacquire⟩ := List.mem_flatMap.mp hupper
          simp only [unwindFrameCommands, List.mem_cons, Command.acquire.injEq, reduceCtorEq,
            List.not_mem_nil, or_false] at hacquire
          subst hacquire
          exact hinTree unwinding hunwinding frame (List.mem_cons_of_mem _ (List.mem_reverse.mp hframe))
        · have hnode : latch = node unwinding.last ∨ latch = root := by
            unfold unwindRootFrameCommands at hlast
            split at hlast <;> simp_all
          rcases hnode with rfl | rfl
          · exact hinTree unwinding hunwinding _ List.mem_cons_self
          · exact htree
    · exact call.descent.acquires_inTree htree hdown
    · cases List.mem_singleton.mp hrelease
  | store leafNode hleaf key value =>
    simp only [ThreadCall.commands, List.mem_cons, Command.acquire.injEq, reduceCtorEq, List.not_mem_nil,
      or_false] at hlatch
    subst hlatch
    exact .leaf hleaf
  | unpositioned => cases hlatch

end Discipline

section Completion

variable {Cursor Thread : Type} [DecidableEq Cursor] [DecidableEq Thread]

/-- Threads that call cursors, each one call after the other, get through in every order of
their steps, as long as no cursor takes another node for the root: a thread takes as many
steps as its calls have, and when no thread has a step left all calls are done and all
latches free. -/
theorem calls_complete (htree : IsTree isLeaf (IsChild findChildNode) root)
    (sessions : Thread → ThreadSession Cursor isLeaf findChildNode node root)
    (hroot : ∀ t, ∀ call ∈ (sessions t).calls, call.AtRoot) (data : Node → Guarded Frame)
    {schedule : List Thread} {s : System Thread Node (Access Frame) (Guarded Frame)}
    (hrun : run (step Access.perform) (start (fun t => (sessions t).commands) data) schedule = some s) :
    (∀ t, schedule.count t ≤ (sessions t).commands.length) ∧
      ((∀ t, step Access.perform s t = none) → (∀ t, s.todo t = []) ∧ ∀ latch, s.holder latch = none) := by
  have hdisciplined : ∀ t, Disciplined (Above isLeaf findChildNode) [] (sessions t).commands [] :=
    fun t => .flatMap fun call hcall => ThreadCall.disciplined (hroot t call hcall)
  refine ⟨fun t => (run_todo hrun t).2, completed hdisciplined ?_ hrun⟩
  intro t latch hlatch
  obtain ⟨call, _, hacquire⟩ := List.mem_flatMap.mp hlatch
  exact (ThreadCall.acquires_inTree htree hacquire).acc

/-- A search from the root to the only leaf, by a cursor without a position. -/
def findBelowRoot : FindCall (fun node : Nat => decide (1 ≤ node)) (fun node _ => node + 1)
    (fun frame : Nat => frame) 0 where
  key := .repeated 1 7
  unwinding := none
  events := [⟨.tested, 0, [0]⟩, ⟨.requested, 1, [0]⟩, ⟨.released, 0, [1, 0]⟩, ⟨.tested, 1, [1]⟩]
  leaf := 1
  descent := .child rfl (by decide) (.leaf rfl)
  inTree := fun _ h => nomatch h

theorem descent_belowRoot : Descent (fun node : Nat => decide (1 ≤ node)) (fun node => node + 1) 0
    findBelowRoot.events 1 :=
  findBelowRoot.descent

theorem isLeaf_belowRoot : decide (1 ≤ 1) = true := rfl

theorem isTree_twoLevels : IsTree (fun node : Nat => decide (1 ≤ node)) (IsChild fun node _ => node + 1) 0 := by
  refine .internal rfl fun next hnext => ?_
  obtain ⟨key, rfl⟩ := hnext
  exact .leaf rfl

/-- A stack of 32 frames, which is unwound to its bottom. -/
def halfFull : Unwinding Nat where
  left := []
  last := 0
  upper := (List.range 31).map Nat.succ
  fits := by decide
  rounds := by decide

theorem isTree_belowRoot (frame : Nat) :
    IsTree (fun node : Nat => decide (1 ≤ node)) (IsChild fun node _ => node + 1) (min frame 1) := by
  cases frame with
  | zero => exact isTree_twoLevels
  | succ frame => exact .leaf (decide_eq_true (by omega))

/-- Two cursors, one of them with a single frame, at the leaf, and the key 7. -/
def cursorAtLeaf (cursor : Bool) : Position Nat :=
  if cursor then ⟨.repeated 1 7, [1]⟩ else ⟨.empty, []⟩

theorem issues_belowRoot : Issues cursorAtLeaf [(false, .find findBelowRoot.key)] [.find findBelowRoot]
    (Function.update cursorAtLeaf false ⟨findBelowRoot.key, []⟩) :=
  .find findBelowRoot rfl .nil

theorem issues_storeFirst :
    Issues cursorAtLeaf [(true, .store .empty), (false, .find findBelowRoot.key), (false, .store .empty)]
      [.store 1 isLeaf_belowRoot (.repeated 1 7) .empty, .find findBelowRoot, .unpositioned]
      (Function.update cursorAtLeaf false ⟨findBelowRoot.key, []⟩) := by
  have hstored : (cursorAtLeaf true).frames = [] ++ [1] := rfl
  exact .store .empty hstored isLeaf_belowRoot (.find findBelowRoot rfl (.unpositioned .empty rfl .nil))

/-- One thread searches. The other one stores in the leaf, searches with its other cursor, and
cannot store through that one. -/
def findAndStore (t : Bool) : ThreadSession Bool (fun node : Nat => decide (1 ≤ node)) (fun node _ => node + 1)
    (fun frame : Nat => frame) 0 :=
  if t then ⟨_, _, _, _, issues_belowRoot⟩ else ⟨_, _, _, _, issues_storeFirst⟩

/-- The search waits for the leaf while the other thread stores. -/
theorem calls_complete_findAndStore :
    ∃ s, run (step Access.perform) (start (fun t => (findAndStore t).commands)
          fun _ => ⟨[], slow.LeafNode.construct⟩)
        [false, true, true, false, false, true, true, true, true, false] = some s ∧
      (∀ t, List.count t [false, true, true, false, false, true, true, true, true, false] ≤
        (findAndStore t).commands.length) ∧
      ((∀ t, step Access.perform s t = none) → (∀ t, s.todo t = []) ∧ ∀ latch, s.holder latch = none) := by
  have hroot : ∀ t, ∀ call ∈ (findAndStore t).calls, call.AtRoot := by
    intro t call hcall
    cases t with
    | false =>
      rcases List.mem_cons.mp hcall with rfl | hcall
      · trivial
      · rcases List.mem_cons.mp hcall with rfl | hcall
        · exact fun _ h => nomatch h
        · obtain rfl := List.mem_singleton.mp hcall
          trivial
    | true =>
      obtain rfl := List.mem_singleton.mp hcall
      exact fun _ h => nomatch h
  exact ⟨_, rfl, calls_complete isTree_twoLevels findAndStore hroot _ rfl⟩

end Completion

end tupl.pvt.ops
