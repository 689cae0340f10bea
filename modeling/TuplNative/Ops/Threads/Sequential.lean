import TuplNative.Ops.Threads.Alone
import TuplNative.Ops.Threads.Stores

open Latching

namespace tupl.pvt.ops

variable {Cursor Node Frame : Type} [DecidableEq Cursor] [DecidableEq Node] [DecidableEq Frame]
  {isLeaf : Node → Bool} {findChildNode : Node → Bytes → Node} {node : Frame → Node} {root : Node}
  {call : FindCall isLeaf findChildNode node root} {session : Session Cursor Node Frame}
  {positions : Cursor → Position Frame}

/-- The cursors have the positions, no two of them the same frame. -/
structure Session.At (session : Session Cursor Node Frame) (node : Frame → Node) (root : Node)
    (positions : Cursor → Position Frame) : Prop where
  key : ∀ cursor, session.key cursor = (positions cursor).key
  positioned : ∀ cursor, Positioned (session.thread cursor) (positions cursor).frames
  apart : ∀ cursor other, cursor ≠ other → (positions cursor).frames.Disjoint (positions other).frames
  once : ∀ node, (session.visitorFrames node).Nodup
  unlatched : session.latched = []
  node : session.node = node
  root : session.root = root

/-- The nodes are what the session has. -/
def Session.guarded (session : Session Cursor Node Frame) (visited : Node) : Guarded Frame :=
  ⟨session.visitorFrames visited, session.leaf visited⟩

omit [DecidableEq Node] [DecidableEq Frame] [DecidableEq Cursor] in
theorem Session.At.starts (h : session.At node root positions) {cursor : Cursor}
    (hstack : call.frames = (positions cursor).frames) : call.Starts (session.finding cursor) := by
  have hpositioned := h.positioned cursor
  refine ⟨h.node, h.root, h.once, h.unlatched, fun hnone => ?_, fun unwinding hunwinding => ?_⟩
  · have hempty : (positions cursor).frames = [] := by
      rw [← hstack, FindCall.frames, hnone]
      rfl
    have hstack := hpositioned.stack
    rw [hempty, ArrayStackGeneric.ofList_nil] at hstack
    exact congrArg ArrayStackGeneric.mTop hstack
  · have hframes : (positions cursor).frames = unwinding.frames := by
      rw [← hstack, FindCall.frames, hunwinding]
      rfl
    rw [hframes] at hpositioned
    exact hpositioned

omit [DecidableEq Node] in
/-- After a search its cursor has the frames that stay, and the others have what they had. -/
theorem Session.At.searched (h : session.At node root positions) {cursor : Cursor}
    (hstack : call.frames = (positions cursor).frames) {after : FindState Node Frame}
    (hends : call.Ends (session.finding cursor) after) :
    (session.withThread cursor after.toState after.key).At node root
      (Function.update positions cursor ⟨call.key, call.left⟩) := by
  have hfewer := FindCall.searched_subset hstack
  have honce : ∀ visited, (after.visitorFrames visited).Nodup := fun visited => by
    rw [hends.visitors]
    exact (h.once visited).filter _
  have hnodup : ∀ other, (positions other).frames.Nodup := fun other => (h.positioned other).nodup
  refine ⟨fun other => ?_, fun other => ⟨?_, FindCall.searched_nodup hstack hnodup other,
    fun frame hframe visited => ?_, honce, hends.unlatched⟩, fun other another hne frame hframe hanother => ?_,
    honce, hends.unlatched, hends.node.trans h.node, hends.root.trans h.root⟩
  · by_cases hother : other = cursor
    · subst hother
      rw [Function.update_self]
      exact (Function.update_self _ _ _).trans hends.key
    · rw [Function.update_of_ne hother]
      exact (Function.update_of_ne hother _ _).trans (h.key other)
  · have hbefore := (h.positioned other).stack
    by_cases hother : other = cursor
    · subst hother
      rw [Function.update_self]
      refine (Function.update_self _ _ _).trans ?_
      rw [hends.stack]
      rw [← hstack] at hbefore
      unfold FindCall.frames at hbefore
      unfold FindCall.left
      cases hunwinding : call.unwinding with
      | none =>
        rw [hunwinding] at hbefore
        exact hbefore
      | some unwinding => rfl
    · rw [Function.update_of_ne hother]
      exact (Function.update_of_ne hother _ _).trans hbefore
  · have hstays := FindCall.not_mem_taken hstack hnodup h.apart hframe
    have hlinked := (h.positioned other).linked frame (hfewer other hframe) visited
    change frame ∈ after.visitorFrames visited ↔ visited = after.node frame
    rw [hends.visitors, hends.node, List.mem_filter, decide_eq_true_iff, and_iff_left hstays]
    exact hlinked
  · exact h.apart other another hne (hfewer _ hframe) (hfewer _ hanother)

omit [DecidableEq Node] [DecidableEq Frame] [DecidableEq Cursor] in
theorem Session.At.withLeaves (h : session.At node root positions) (leaf : Node → slow.LeafNode) :
    (session.withLeaves leaf).At node root positions :=
  ⟨h.key, h.positioned, h.apart, h.once, h.unlatched, h.node, h.root⟩

/-- What stores nothing leaves the leaves as they are. -/
theorem foldl_performed_leaf {program : List (Command Node (Access Frame))}
    (hstores : ∀ command ∈ program, ∀ visited key value, command ≠ .access visited (.insert key value))
    (data : Node → Guarded Frame) (visited : Node) :
    (program.foldl (Command.performed Access.perform) data visited).leaf = (data visited).leaf := by
  induction program generalizing data with
  | nil => rfl
  | cons command program ih =>
    rw [List.foldl_cons, ih fun other hother => hstores other (List.mem_cons_of_mem _ hother)]
    cases command with
    | acquire latch => rfl
    | release latch => rfl
    | access latch how =>
      rw [Command.performed]
      by_cases hlatch : visited = latch
      · subst hlatch
        rw [Function.update_self]
        cases how with
        | test => rfl
        | erase frame => rfl
        | insert key value => exact absurd rfl (hstores _ List.mem_cons_self visited key value)
      · rw [Function.update_of_ne hlatch]

/-- A call that returns or throws. -/
theorem Session.callCaught_of_exec (findValue : Node → Bytes → Except String Unit)
    {rounds : Nat} {cursor : Cursor} {request : Request} {outcome : Except Exit Unit}
    {after : Session Cursor Node Frame}
    (hexec : (Session.call true isLeaf findChildNode findValue rounds cursor request).exec session =
      (outcome, after))
    (hexception : ∀ exit, outcome = .error exit → exit.isException = true)
    (outcomes : List (Except Exit Unit)) :
    Session.callCaught true isLeaf findChildNode findValue rounds (session, outcomes) (cursor, request) =
      some (after, outcomes ++ [outcome]) := by
  unfold Session.callCaught
  rw [hexec]
  cases outcome with
  | ok _ => rfl
  | error exit => exact if_pos (hexception exit rfl)

/-- A search in a session. -/
theorem Session.At.callCaught_find (h : session.At node root positions)
    (htree : IsTree isLeaf (IsChild findChildNode) root) (findValue : Node → Bytes → Except String Unit)
    {cursor : Cursor} (hstack : call.frames = (positions cursor).frames) (outcomes : List (Except Exit Unit)) :
    ∃ enough after, (∀ rounds, enough ≤ rounds →
        Session.callCaught true isLeaf findChildNode findValue rounds (session, outcomes)
          (cursor, .find call.key) =
            some (after, outcomes ++ [(findValue call.leaf call.key).mapError .logicError])) ∧
      after.At node root (Function.update positions cursor ⟨call.key, call.left⟩) ∧
      call.commands.foldl (Command.performed Access.perform) session.guarded = after.guarded := by
  have hstarts := h.starts hstack
  obtain ⟨enough, after, hfind, hends⟩ := hstarts.exec_find htree findValue
  refine ⟨enough, session.withThread cursor after.toState after.key, fun rounds hrounds => ?_,
    h.searched hstack hends, funext fun visited => ?_⟩
  · unfold Session.callCaught
    dsimp only
    rw [Session.call, Call.exec_within, hfind rounds hrounds]
    cases findValue call.leaf call.key <;> rfl
  · have hvisitors := (ThreadCall.find call).performed_visitorFrames session.guarded (h.once visited)
      fun frame hframe hmem => hstarts.linked hframe hmem
    have hleaf := foldl_performed_leaf (fun command hcommand => call.stores_nothing hcommand) session.guarded
      visited
    exact congrArg₂ Guarded.mk (hvisitors.trans (hends.visitors visited).symm) hleaf

omit [DecidableEq Cursor] [DecidableEq Frame] in
theorem Session.guarded_withLeaves {leafNode : Node} {guarded : Guarded Frame}
    (hvisitors : guarded.visitorFrames = session.visitorFrames leafNode) :
    (session.withLeaves (Function.update session.leaf leafNode guarded.leaf)).guarded =
      Function.update session.guarded leafNode guarded := by
  funext visited
  unfold Session.guarded Session.withLeaves
  dsimp only
  by_cases hvisited : visited = leafNode
  · subst hvisited
    rw [Function.update_self, Function.update_self, ← hvisitors]
  · rw [Function.update_of_ne hvisited, Function.update_of_ne hvisited]

omit [DecidableEq Cursor] in
/-- A store on a leaf leaves it as the access does, whether it returns or throws. -/
theorem Session.At.exec_storing (h : session.At node root positions) {cursor : Cursor} {left : List Frame}
    {frame : Frame} (hstack : (positions cursor).frames = left ++ [frame]) (value : Bytes) :
    ∃ outcome : Except Exit Unit,
      (store true value).exec ((session.withLeaves session.leaf).storing cursor) =
        (outcome, { (session.withLeaves session.leaf).storing cursor with
          leaf := Function.update session.leaf (node frame)
            (Access.perform (.insert (positions cursor).key value) (session.guarded (node frame))).leaf }) ∧
      ∀ exit, outcome = .error exit → exit.isException = true := by
  obtain rfl := h.node
  have htop : session.stackFrames cursor = ArrayStackGeneric.ofList (left ++ [frame]) := by
    rw [← hstack]
    exact (h.positioned cursor).stack
  have hguarded : session.guarded (session.node frame) =
      ⟨session.visitorFrames (session.node frame), session.leaf (session.node frame)⟩ := rfl
  rw [Session.exec_storing htop h.unlatched session.leaf value, h.key cursor, Access.perform, hguarded]
  dsimp only
  have hkept := Function.update_eq_self (session.node frame) session.leaf
  by_cases hbig : (session.leaf (session.node frame)).TooBig (positions cursor).key value
  · rw [if_pos hbig, if_pos (Or.inl hbig), hkept]
    exact ⟨_, rfl, fun exit hexit => by cases hexit; rfl⟩
  rw [if_neg hbig]
  by_cases hroom : (session.leaf (session.node frame)).LacksRoom (positions cursor).key value
  · rw [if_pos hroom, if_pos (Or.inr hroom), hkept]
    exact ⟨_, rfl, fun exit hexit => by cases hexit; rfl⟩
  · rw [if_neg hroom, if_neg (not_or.mpr ⟨hbig, hroom⟩)]
    exact ⟨_, rfl, fun exit hexit => by cases hexit⟩

variable (findChildNode) in
/-- A store in a session, through a cursor that is at a leaf. -/
theorem Session.At.callCaught_store (h : session.At node root positions)
    (findValue : Node → Bytes → Except String Unit) {cursor : Cursor} {left : List Frame} {frame : Frame}
    (hstack : (positions cursor).frames = left ++ [frame]) (hleaf : isLeaf (node frame) = true)
    (value : Bytes) :
    ∃ after outcome, (∀ rounds outcomes,
        Session.callCaught true isLeaf findChildNode findValue rounds (session, outcomes)
          (cursor, .store value) = some (after, outcomes ++ [outcome])) ∧
      after.At node root positions ∧
      (ThreadCall.store (node frame) hleaf (positions cursor).key value :
        ThreadCall isLeaf findChildNode node root).commands.foldl (Command.performed Access.perform)
          session.guarded = after.guarded := by
  obtain ⟨outcome, hstore, hexception⟩ := h.exec_storing hstack value
  refine ⟨_, outcome, fun rounds outcomes => Session.callCaught_of_exec findValue
    (Session.exec_call_store true isLeaf findChildNode findValue rounds hstore) hexception outcomes,
    h.withLeaves _, ?_⟩
  refine (Session.guarded_withLeaves ?_).symm
  rw [Access.perform]
  split <;> rfl

/-- A store in a session, through a cursor without a position. -/
theorem Session.At.callCaught_unpositioned (h : session.At node root positions)
    (findValue : Node → Bytes → Except String Unit) {cursor : Cursor} (hstack : (positions cursor).frames = [])
    (value : Bytes) (rounds : Nat) (outcomes : List (Except Exit Unit)) :
    Session.callCaught true isLeaf findChildNode findValue rounds (session, outcomes) (cursor, .store value) =
      some (session, outcomes ++ [.error (.runtimeError "unpositioned")]) := by
  have hempty : session.stackFrames cursor = ArrayStackGeneric.construct := by
    rw [← ArrayStackGeneric.ofList_nil, ← hstack]
    exact (h.positioned cursor).stack
  have htop : ((session.withLeaves session.leaf).storing cursor).stackFrames.mTop = -1 :=
    congrArg ArrayStackGeneric.mTop hempty
  have hstore := exec_store_unpositioned true htop value
  exact Session.callCaught_of_exec findValue
    (Session.exec_call_store true isLeaf findChildNode findValue rounds hstore)
    (fun exit hexit => by cases hexit; rfl) outcomes

/-- The calls of a session in the code, one after the other. -/
theorem Issues.run_callCaught (htree : IsTree isLeaf (IsChild findChildNode) root)
    (findValue : Node → Bytes → Except String Unit) {after : Cursor → Position Frame}
    {requests : List (Cursor × Request)} {calls : List (ThreadCall isLeaf findChildNode node root)}
    (h : Issues positions requests calls after) (hat : session.At node root positions)
    (outcomes : List (Except Exit Unit)) :
    ∃ enough last ended, (∀ rounds, enough ≤ rounds →
        run (Session.callCaught true isLeaf findChildNode findValue rounds) (session, outcomes) requests =
          some (last, ended)) ∧
      last.At node root after ∧
      (sessionCommands calls).foldl (Command.performed Access.perform) session.guarded = last.guarded := by
  induction h generalizing session outcomes with
  | nil => exact ⟨0, session, outcomes, fun _ _ => rfl, hat, rfl⟩
  | find call hstack _ ih =>
    obtain ⟨enough, next, hcall, hnext, hdid⟩ := hat.callCaught_find htree findValue hstack outcomes
    obtain ⟨enough', last, ended, hrun, hlast, hdone⟩ := ih hnext _
    refine ⟨max enough enough', last, ended, fun rounds hrounds => ?_, hlast, ?_⟩
    · rw [run.run_cons, hcall rounds (Nat.le_trans (Nat.le_max_left _ _) hrounds)]
      exact hrun rounds (Nat.le_trans (Nat.le_max_right _ _) hrounds)
    · rw [← hdone, ← hdid, ← List.foldl_append]
      rfl
  | store value hstack hleaf _ ih =>
    obtain ⟨next, outcome, hcall, hnext, hdid⟩ :=
      hat.callCaught_store findChildNode findValue hstack hleaf value
    obtain ⟨enough, last, ended, hrun, hlast, hdone⟩ := ih hnext (outcomes ++ [outcome])
    refine ⟨enough, last, ended, fun rounds hrounds => ?_, hlast, ?_⟩
    · rw [run.run_cons, hcall rounds outcomes]
      exact hrun rounds hrounds
    · rw [← hdone, ← hdid, ← List.foldl_append]
      rfl
  | unpositioned value hstack _ ih =>
    obtain ⟨enough, last, ended, hrun, hlast, hdone⟩ := ih hat _
    refine ⟨enough, last, ended, fun rounds hrounds => ?_, hlast, hdone⟩
    rw [run.run_cons, hat.callCaught_unpositioned findValue hstack value rounds outcomes]
    exact hrun rounds hrounds

/-- A thread that runs alone does with latches, lists and leaves what the calls of its session do,
and its cursors have the positions afterwards that the session says. -/
theorem session_alone (htree : IsTree isLeaf (IsChild findChildNode) root)
    (findValue : Node → Bytes → Except String Unit)
    (calls : ThreadSession Cursor isLeaf findChildNode node root) (hat : session.At node root calls.positions) :
    ∃ enough last outcomes s, (∀ rounds, enough ≤ rounds →
        run (Session.callCaught true isLeaf findChildNode findValue rounds) (session, []) calls.requests =
          some (last, outcomes)) ∧
      last.At node root calls.after ∧
      run (step Access.perform) (start (fun _ : Unit => calls.commands) session.guarded)
        (List.replicate calls.commands.length ()) = some s ∧
      s.todo () = [] ∧ s.data = last.guarded ∧ ∀ latch, s.holder latch = none := by
  obtain ⟨enough, last, outcomes, hcalls, hlast, hdone⟩ := calls.issues.run_callCaught htree findValue hat []
  have hdisciplined : Disciplined (fun _ _ => True) [] calls.commands [] :=
    .flatMap fun call _ => call.disciplined_alone
  obtain ⟨s, hrun, htodo, hdata, hfree⟩ := run_only Access.perform hdisciplined session.guarded
  exact ⟨enough, last, outcomes, s, hcalls, hlast, hrun, htodo, hdata.trans hdone, hfree⟩

end tupl.pvt.ops
