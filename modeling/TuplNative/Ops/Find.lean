import TuplNative.Ops.Unwind
import TuplNative.Slow.Node

namespace tupl.pvt.ops

/-- What `find` does with a latch, and the test of its loop condition. -/
inductive Action where
  | requested
  | released
  | tested
deriving DecidableEq, Repr

/-- An action on a node, with the latches that are held when it begins. -/
structure Event (Node : Type) where
  action : Action
  node : Node
  held : List Node

/-- What `find` works on: the thread, the key of the cursor, and the nodes whose latches
its two lock objects own. The events are a history. -/
structure FindState (Node Frame : Type) extends State Node Frame where
  key : slow.Buffer
  parentLock : Option Node
  childLock : Option Node
  events : List (Event Node)

variable {Node Frame : Type}

namespace FindState

/-- A call on what the thread has. -/
def onThread {α : Type} (call : Call Fault (State Node Frame) α) : Call Exit (FindState Node Frame) α :=
  Call.within FindState.toState (fun thread state => { state with toState := thread }) Exit.fault call

/-- An action is about to begin. -/
def record (action : Action) (node : Node) (state : FindState Node Frame) : FindState Node Frame :=
  { state with events := state.events ++ [⟨action, node, state.latched⟩] }

variable [DecidableEq Node]

/-- `Latch::scoped_exclusive_lock{*node}`. -/
def lock (node : Node) : Call Exit (FindState Node Frame) Unit := do
  modify (record .requested node)
  onThread (lockExclusive node)

/-- The end of a lock that owns the latch of a node. -/
def unlock (node : Node) (state : FindState Node Frame) : FindState Node Frame :=
  { state.record .released node with latched := state.latched.erase node }

/-- The destructor of `parentLock`. -/
def destroyParentLock (state : FindState Node Frame) : FindState Node Frame :=
  match state.parentLock with
  | none => state
  | some node => { state.unlock node with parentLock := none }

/-- The destructor of `childLock`. -/
def destroyChildLock (state : FindState Node Frame) : FindState Node Frame :=
  match state.childLock with
  | none => state
  | some node => { state.unlock node with childLock := none }

end FindState

/-- `isSplit(node)`. -/
def isSplit (_ : Node) : Bool := false

/-- `ops::bubbleSplitUpOneLevel`. -/
def bubbleSplitUpOneLevel (_splitNodeParent _splitNode : Node) : Call Exit (FindState Node Frame) Unit :=
  throw (.logicError "unimplemented")

variable [DecidableEq Node]

/-- The scope of `childLock`. The swap leaves the latch of the parent to the destructor of
`childLock`. Without it, for a child that is split, the loop goes on at the parent. -/
def lockChild (childNode node : Node) : Call Exit (FindState Node Frame) Bool :=
  Call.inScope Exit.isException FindState.destroyChildLock do
    FindState.lock childNode
    modify fun state => { state with childLock := some childNode }
    if isSplit childNode then
      bubbleSplitUpOneLevel childNode node
      return false
    modify fun state => { state with parentLock := state.childLock, childLock := state.parentLock }
    return true

/-- `Bytes::Bytes(data, size)`, which tells of `data` only whether it is null. -/
def constructBytes (ndebug isNull : Bool) (size : UInt64) : Call Exit (FindState Node Frame) Unit := do
  check ndebug (0 < size → isNull = false)
  check ndebug (isNull = true → 0 < size)

/-- `CursorFrame frame;`. The frame is in no list and ends with its scope; what it does is to
construct `notFoundKey` as `Bytes{nullptr, 0}`. -/
def constructCursorFrame (ndebug : Bool) : Call Exit (FindState Node Frame) Unit :=
  constructBytes ndebug true 0

/-- The loop of `find`, for a number of rounds. -/
def findLeaf (ndebug : Bool) (isLeaf : Node → Bool) (findChildNode : Node → Bytes → Node) (key : Bytes) :
    Nat → Node → Call Exit (FindState Node Frame) Node
  | 0, _ => throw .endless
  | rounds + 1, node => do
    modify (FindState.record .tested node)
    if isLeaf node then
      return node
    let childNode := findChildNode node key
    if ← lockChild childNode node then
      constructCursorFrame ndebug
      findLeaf ndebug isLeaf findChildNode key rounds childNode
    else
      findLeaf ndebug isLeaf findChildNode key rounds node

variable [DecidableEq Frame]

/-- The latch on the root that `find` begins with. -/
def lockRoot (ndebug : Bool) : Call Exit (FindState Node Frame) Unit := do
  if ← FindState.onThread (onStack (ArrayStackGeneric.empty ndebug)) then
    let root := (← get).root
    FindState.lock root
    modify fun state => { state with parentLock := some root }
  else
    let root ← FindState.onThread (unwindAndLockRoot ndebug)
    modify fun state => { state with parentLock := some root }

/-- The part of `find` in the scope of `parentLock`. The root that is read for `node` is no
null pointer. -/
def findLatched (ndebug : Bool) (isLeaf : Node → Bool) (findChildNode : Node → Bytes → Node)
    (findValue : Node → Bytes → Except String Unit) (rounds : Nat) (key : Bytes) :
    Call Exit (FindState Node Frame) Unit := do
  lockRoot ndebug
  let root := (← get).root
  let node ← findLeaf ndebug isLeaf findChildNode key rounds root
  check ndebug (isLeaf node = true)
  let state ← get
  check ndebug (state.parentLock.isSome = true)
  match findValue node key with
  | .ok _ => constructCursorFrame ndebug
  | .error what => throw (.logicError what)

/-- `ops::find(tree, visitor, key)`. Which child `findChildNode` selects, what `findValue`
returns or throws, and the number of rounds of the loop are parameters. -/
def find (ndebug : Bool) (isLeaf : Node → Bool) (findChildNode : Node → Bytes → Node)
    (findValue : Node → Bytes → Except String Unit) (rounds : Nat) (key : Bytes) :
    Call Exit (FindState Node Frame) Unit := do
  modify fun state => { state with key := key, parentLock := none, childLock := none }
  Call.inScope Exit.isException FindState.destroyParentLock
    (findLatched ndebug isLeaf findChildNode findValue rounds key)

/-- A finite tree below a node: every way down ends at a leaf. -/
inductive IsTree (isLeaf : Node → Bool) (child : Node → Node → Prop) : Node → Prop where
  | leaf {node : Node} (hleaf : isLeaf node = true) : IsTree isLeaf child node
  | internal {node : Node} (hinternal : isLeaf node = false)
    (hchildren : ∀ next, child node next → IsTree isLeaf child next) : IsTree isLeaf child node

omit [DecidableEq Node] [DecidableEq Frame] in
/-- No internal node of a tree is its own child. -/
theorem IsTree.child_ne {isLeaf : Node → Bool} {child : Node → Node → Prop} {node next : Node}
    (htree : IsTree isLeaf child node) (hinternal : isLeaf node = false) (hchild : child node next) :
    next ≠ node := by
  induction htree generalizing next with
  | leaf hleaf =>
    rw [hleaf] at hinternal
    cases hinternal
  | internal _ _ ih =>
    rintro rfl
    exact ih _ hchild hinternal hchild rfl

/-- The events on the way from a node down to a leaf, with the latch of the node held. -/
inductive Descent (isLeaf : Node → Bool) (next : Node → Node) : Node → List (Event Node) → Node → Prop where
  | leaf {node : Node} (hleaf : isLeaf node = true) : Descent isLeaf next node [⟨.tested, node, [node]⟩] node
  | child {node leaf : Node} {events : List (Event Node)} (hinternal : isLeaf node = false)
    (hne : next node ≠ node) (hrest : Descent isLeaf next (next node) events leaf) :
    Descent isLeaf next node
      (⟨.tested, node, [node]⟩ :: ⟨.requested, next node, [node]⟩ ::
        ⟨.released, node, [next node, node]⟩ :: events) leaf

omit [DecidableEq Node] [DecidableEq Frame] in
theorem Descent.leaf_isLeaf {isLeaf : Node → Bool} {next : Node → Node} {node leaf : Node}
    {events : List (Event Node)} (h : Descent isLeaf next node events leaf) : isLeaf leaf = true := by
  induction h with
  | leaf hleaf => exact hleaf
  | child _ _ _ ih => exact ih

omit [DecidableEq Node] [DecidableEq Frame] in
/-- There is one way down. -/
theorem Descent.unique {isLeaf : Node → Bool} {next : Node → Node} {node leaf leaf' : Node}
    {events events' : List (Event Node)} (h : Descent isLeaf next node events leaf)
    (h' : Descent isLeaf next node events' leaf') : events = events' ∧ leaf = leaf' := by
  induction h generalizing events' leaf' with
  | leaf hleaf =>
    cases h' with
    | leaf _ => exact ⟨rfl, rfl⟩
    | child hinternal _ _ =>
      rw [hleaf] at hinternal
      cases hinternal
  | child hinternal _ _ ih =>
    cases h' with
    | leaf hleaf =>
      rw [hleaf] at hinternal
      cases hinternal
    | child _ _ hrest =>
      obtain ⟨rfl, rfl⟩ := ih hrest
      exact ⟨rfl, rfl⟩

section Exec

variable {state : FindState Node Frame} {node : Node}

omit [DecidableEq Node] [DecidableEq Frame] in
theorem FindState.exec_onThread_ok {α : Type} {call : Call Fault (State Node Frame) α} {a : α}
    {thread : State Node Frame} (hcall : call.exec state.toState = (.ok a, thread)) :
    (FindState.onThread call).exec state = (.ok a, { state with toState := thread }) :=
  Call.exec_within_ok hcall

omit [DecidableEq Frame] in
theorem FindState.exec_lock (hfree : node ∉ state.latched) :
    (FindState.lock node).exec state = (.ok (), { state with
      latched := node :: state.latched
      events := state.events ++ [⟨.requested, node, state.latched⟩] }) := by
  unfold FindState.lock
  rw [Call.exec_modify_bind]
  exact FindState.exec_onThread_ok (exec_lockExclusive hfree)

omit [DecidableEq Frame] in
/-- The latch of the child is there before the one of the parent goes. -/
theorem exec_lockChild (state : FindState Node Frame) {childNode : Node} (hlatched : state.latched = [node])
    (hparent : state.parentLock = some node) (hne : childNode ≠ node) :
    (lockChild childNode node).exec state = (.ok true, { state with
      latched := [childNode]
      parentLock := some childNode
      childLock := none
      events := state.events ++
        [⟨.requested, childNode, [node]⟩, ⟨.released, node, [childNode, node]⟩] }) := by
  have hfree : childNode ∉ state.latched := by
    rw [hlatched, List.mem_singleton]
    exact hne
  have hends : [childNode, node].erase node = [childNode] := by
    rw [List.erase_cons_tail (by simpa using hne), List.erase_cons_head]
  let swapped : FindState Node Frame := { state with
    latched := [childNode, node]
    parentLock := some childNode
    childLock := state.parentLock
    events := state.events ++ [⟨.requested, childNode, [node]⟩] }
  unfold lockChild
  refine (Call.exec_inScope_ok (?_ : _ = (Except.ok true, swapped))).trans ?_
  · rw [Call.exec_bind_ok (FindState.exec_lock hfree), hlatched]
    rfl
  · unfold FindState.destroyChildLock FindState.unlock FindState.record
    dsimp only [swapped]
    rw [hparent]
    dsimp only
    rw [hends, List.append_assoc]
    rfl

omit [DecidableEq Node] [DecidableEq Frame] in
/-- With assertions disabled nothing comes of the frame. -/
theorem exec_constructCursorFrame (state : FindState Node Frame) :
    (constructCursorFrame true).exec state = (.ok (), state) := rfl

omit [DecidableEq Node] [DecidableEq Frame] in
/-- With assertions enabled no frame can be constructed: a null pointer needs a size. -/
theorem exec_constructCursorFrame_checked (state : FindState Node Frame) :
    (constructCursorFrame false).exec state = (.error (.fault (.failed .assertion)), state) := rfl

omit [DecidableEq Frame] in
/-- The loop ends at a leaf. -/
theorem exec_findLeaf_leaf (ndebug : Bool) {isLeaf : Node → Bool} (findChildNode : Node → Bytes → Node)
    (key : Bytes) (rounds : Nat) (hleaf : isLeaf node = true) (state : FindState Node Frame)
    (hlatched : state.latched = [node]) :
    (findLeaf ndebug isLeaf findChildNode key (rounds + 1) node).exec state =
      (.ok node, { state with events := state.events ++ [⟨.tested, node, [node]⟩] }) := by
  rw [findLeaf, Call.exec_modify_bind, if_pos hleaf]
  unfold FindState.record
  rw [hlatched]
  rfl

omit [DecidableEq Frame] in
/-- A round at an internal node hands the latch over to its child, and then constructs a frame. -/
theorem exec_findLeaf_internal (ndebug : Bool) {isLeaf : Node → Bool} {findChildNode : Node → Bytes → Node}
    {key : Bytes} (rounds : Nat) (hinternal : isLeaf node = false) (hne : findChildNode node key ≠ node)
    (state : FindState Node Frame) (hlatched : state.latched = [node]) (hparent : state.parentLock = some node) :
    (findLeaf ndebug isLeaf findChildNode key (rounds + 1) node).exec state =
      (constructCursorFrame ndebug >>= fun _ =>
        findLeaf ndebug isLeaf findChildNode key rounds (findChildNode node key)).exec { state with
          latched := [findChildNode node key]
          parentLock := some (findChildNode node key)
          childLock := none
          events := state.events ++ [⟨.tested, node, [node]⟩, ⟨.requested, findChildNode node key, [node]⟩,
            ⟨.released, node, [findChildNode node key, node]⟩] } := by
  have hnode : ¬ isLeaf node = true := by
    rw [hinternal]
    exact Bool.false_ne_true
  rw [findLeaf, Call.exec_modify_bind, if_neg hnode]
  dsimp only
  rw [Call.exec_bind_ok (exec_lockChild (state.record .tested node) hlatched hparent hne), if_pos rfl]
  unfold FindState.record
  dsimp only
  rw [hlatched, List.append_assoc]
  rfl

variable (Frame) in
omit [DecidableEq Frame] in
/-- In a tree the loop ends, with the latch of the leaf held and no other one, if assertions are
disabled or it begins at the leaf. -/
theorem exec_findLeaf (ndebug : Bool) {isLeaf : Node → Bool} {child : Node → Node → Prop}
    {findChildNode : Node → Bytes → Node} {key : Bytes}
    (hselect : ∀ node, isLeaf node = false → child node (findChildNode node key))
    (htree : IsTree isLeaf child node) (hframes : ndebug = true ∨ isLeaf node = true) :
    ∃ events leaf enough, Descent isLeaf (fun node => findChildNode node key) node events leaf ∧
      ∀ rounds, enough ≤ rounds → ∀ state : FindState Node Frame, state.latched = [node] →
        state.parentLock = some node → state.childLock = none →
        (findLeaf ndebug isLeaf findChildNode key rounds node).exec state = (.ok leaf, { state with
          latched := [leaf]
          parentLock := some leaf
          events := state.events ++ events }) := by
  induction htree with
  | @leaf node hleaf =>
    refine ⟨_, _, 1, .leaf hleaf, ?_⟩
    intro rounds hrounds state hlatched hparent _
    obtain ⟨rounds, rfl⟩ := Nat.exists_eq_add_of_le' hrounds
    rw [exec_findLeaf_leaf ndebug findChildNode key rounds hleaf state hlatched, ← hparent, ← hlatched]
  | @internal node hinternal hchildren ih =>
    have htree : IsTree isLeaf child node := .internal hinternal hchildren
    have hchild := hselect node hinternal
    have hne := htree.child_ne hinternal hchild
    have hndebug : ndebug = true := by
      refine hframes.resolve_right ?_
      rw [hinternal]
      exact Bool.false_ne_true
    obtain ⟨events, leaf, enough, hrest, hexec⟩ := ih _ hchild (Or.inl hndebug)
    refine ⟨_, leaf, enough + 1, .child hinternal hne hrest, ?_⟩
    intro rounds hrounds state hlatched hparent hchildLock
    obtain ⟨rounds, rfl⟩ := Nat.exists_eq_add_of_le' (Nat.le_trans (Nat.le_add_left 1 enough) hrounds)
    subst hndebug
    rw [exec_findLeaf_internal true rounds hinternal hne state hlatched hparent,
      Call.exec_bind_ok (exec_constructCursorFrame _), hexec rounds (by omega) _ rfl rfl rfl]
    dsimp only
    rw [hchildLock, List.append_assoc]
    rfl

/-- With an empty stack `find` begins with the latch of the root. -/
theorem exec_lockRoot (state : FindState Node Frame) (ndebug : Bool) (hstack : state.stackFrames.mTop = -1)
    (hlatched : state.latched = []) :
    (lockRoot ndebug).exec state = (.ok (), { state with
      latched := [state.root]
      parentLock := some state.root
      events := state.events ++ [⟨.requested, state.root, []⟩] }) := by
  have hempty : (ArrayStackGeneric.empty ndebug).exec state.stackFrames = (.ok true, state.stackFrames) := by
    unfold ArrayStackGeneric.empty
    rw [Call.exec_get_bind, Call.exec_bind_ok (exec_assert ndebug hstack _), hstack]
    rfl
  have hfree : state.root ∉ state.latched := by
    rw [hlatched]
    exact List.not_mem_nil
  unfold lockRoot
  rw [Call.exec_bind_ok (FindState.exec_onThread_ok (exec_onStack hempty)), if_pos rfl, Call.exec_get_bind]
  dsimp only
  rw [Call.exec_bind_ok (FindState.exec_lock hfree), hlatched]
  rfl

section Tree

variable {isLeaf : Node → Bool} {child : Node → Node → Prop} {findChildNode : Node → Bytes → Node}
  {key : Bytes} {locked : FindState Node Frame}

/-- Once the root is latched, `find` goes down to the leaf, ends as `findValue` does and leaves no
latch behind, if assertions are disabled or no frame is constructed on the way. -/
theorem exec_find_of_lockRoot (ndebug : Bool) (findValue : Node → Bytes → Except String Unit)
    (hlock : (lockRoot ndebug).exec { state with key := key, parentLock := none, childLock := none } =
      (.ok (), locked))
    (hselect : ∀ node, isLeaf node = false → child node (findChildNode node key))
    (htree : IsTree isLeaf child locked.root) (hlatched : locked.latched = [locked.root])
    (hparent : locked.parentLock = some locked.root) (hchildLock : locked.childLock = none)
    (hframes : ndebug = true ∨ isLeaf locked.root = true ∧ ∃ what, findValue locked.root key = .error what) :
    ∃ events leaf enough, Descent isLeaf (fun node => findChildNode node key) locked.root events leaf ∧
      ∀ rounds, enough ≤ rounds →
        (find ndebug isLeaf findChildNode findValue rounds key).exec state =
          ((findValue leaf key).mapError .logicError, { locked with
            latched := []
            parentLock := none
            events := locked.events ++ events ++ [⟨.released, leaf, [leaf]⟩] }) := by
  obtain ⟨events, leaf, enough, hdescent, hloop⟩ :=
    exec_findLeaf Frame ndebug hselect htree (hframes.imp_right And.left)
  have hvalue : ndebug = true ∨ ∃ what, findValue leaf key = .error what := by
    refine hframes.imp_right ?_
    rintro ⟨hleaf, hthrows⟩
    obtain ⟨_, rfl⟩ := hdescent.unique (.leaf hleaf)
    exact hthrows
  refine ⟨events, leaf, enough, hdescent, fun rounds hrounds => ?_⟩
  have hdown := hloop rounds hrounds locked hlatched hparent hchildLock
  have hbody : (findLatched ndebug isLeaf findChildNode findValue rounds key).exec
      { state with key := key, parentLock := none, childLock := none } =
        ((findValue leaf key).mapError .logicError, { locked with
          latched := [leaf]
          parentLock := some leaf
          events := locked.events ++ events }) := by
    unfold findLatched
    rw [Call.exec_bind_ok hlock, Call.exec_get_bind]
    dsimp only
    rw [Call.exec_bind_ok hdown, Call.exec_bind_ok (exec_check ndebug hdescent.leaf_isLeaf _),
      Call.exec_get_bind]
    dsimp only
    rw [Call.exec_bind_ok (exec_check ndebug Option.isSome_some _)]
    rcases hvalue with rfl | ⟨what, hthrows⟩
    · cases findValue leaf key with
      | ok _ => exact exec_constructCursorFrame _
      | error what => rfl
    · rw [hthrows]
      rfl
  have hexception : ∀ exit, (findValue leaf key).mapError Exit.logicError = .error exit →
      exit.isException = true := by
    intro exit hexit
    cases hvalue : findValue leaf key with
    | ok _ =>
      rw [hvalue] at hexit
      cases hexit
    | error what =>
      rw [hvalue] at hexit
      cases hexit
      rfl
  unfold find
  rw [Call.exec_modify_bind, Call.exec_inScope_leaves hbody hexception]
  unfold FindState.destroyParentLock FindState.unlock FindState.record
  dsimp only
  rw [List.erase_cons_head]

/-- A search of a cursor without a position. -/
theorem exec_find (state : FindState Node Frame) (ndebug : Bool)
    (findValue : Node → Bytes → Except String Unit)
    (hselect : ∀ node, isLeaf node = false → child node (findChildNode node key))
    (hstack : state.stackFrames.mTop = -1) (hlatched : state.latched = [])
    (htree : IsTree isLeaf child state.root)
    (hframes : ndebug = true ∨ isLeaf state.root = true ∧ ∃ what, findValue state.root key = .error what) :
    ∃ events leaf enough, Descent isLeaf (fun node => findChildNode node key) state.root events leaf ∧
      ∀ rounds, enough ≤ rounds →
        (find ndebug isLeaf findChildNode findValue rounds key).exec state =
          ((findValue leaf key).mapError .logicError, { state with
            latched := []
            key := key
            parentLock := none
            childLock := none
            events := state.events ++ [⟨.requested, state.root, []⟩] ++ events ++
              [⟨.released, leaf, [leaf]⟩] }) :=
  exec_find_of_lockRoot ndebug findValue
    (exec_lockRoot { state with key := key, parentLock := none, childLock := none } ndebug hstack hlatched)
    hselect htree rfl rfl rfl hframes

/-- With assertions enabled, a search that constructs a frame aborts at the first one. -/
theorem exec_find_checked (state : FindState Node Frame) (findValue : Node → Bytes → Except String Unit)
    (hselect : ∀ node, isLeaf node = false → child node (findChildNode node key))
    (hstack : state.stackFrames.mTop = -1) (hlatched : state.latched = [])
    (htree : IsTree isLeaf child state.root)
    (hframe : ¬ (isLeaf state.root = true ∧ ∃ what, findValue state.root key = .error what)) (rounds : Nat) :
    ((find false isLeaf findChildNode findValue (rounds + 1) key).exec state).1 =
      .error (.fault (.failed .assertion)) := by
  let begun : FindState Node Frame := { state with key := key, parentLock := none, childLock := none }
  have hlock := exec_lockRoot begun false hstack hlatched
  have hbody : ∃ failed, (findLatched false isLeaf findChildNode findValue (rounds + 1) key).exec begun =
      (.error (.fault (.failed .assertion)), failed) := by
    unfold findLatched
    rw [Call.exec_bind_ok hlock, Call.exec_get_bind]
    dsimp only
    cases hroot : isLeaf state.root with
    | false =>
      have hne := htree.child_ne hroot (hselect _ hroot)
      exact ⟨_, Call.exec_bind_error ((exec_findLeaf_internal false rounds hroot hne _ rfl rfl).trans
        (Call.exec_bind_error (exec_constructCursorFrame_checked _)))⟩
    | true =>
      rw [Call.exec_bind_ok (exec_findLeaf_leaf false findChildNode key rounds hroot _ rfl),
        Call.exec_bind_ok (exec_check false hroot _), Call.exec_get_bind]
      dsimp only
      rw [Call.exec_bind_ok (exec_check false Option.isSome_some _)]
      cases hvalue : findValue state.root key with
      | ok _ => exact ⟨_, exec_constructCursorFrame_checked _⟩
      | error what => exact absurd ⟨hroot, what, hvalue⟩ hframe
  obtain ⟨failed, hfailed⟩ := hbody
  unfold find
  rw [Call.exec_modify_bind, Call.exec_inScope_aborted hfailed rfl]

end Tree

end Exec

/-- A test finds the latch of its node held and no other, a latch that is requested is not
held yet, and when the one of an internal node is released a child's is held. -/
def Event.Coupled (isLeaf : Node → Bool) (child : Node → Node → Prop) (event : Event Node) : Prop :=
  match event.action with
  | .tested => event.held = [event.node]
  | .requested => event.node ∉ event.held
  | .released => event.node ∈ event.held ∧
    (isLeaf event.node = false → ∃ next, child event.node next ∧ next ∈ event.held)

omit [DecidableEq Node] [DecidableEq Frame] in
/-- The last event on the way down is the test that finds the leaf. -/
theorem Descent.ends {isLeaf : Node → Bool} {next : Node → Node} {node leaf : Node}
    {events : List (Event Node)} (h : Descent isLeaf next node events leaf) :
    ∃ before, events = before ++ [⟨.tested, leaf, [leaf]⟩] := by
  induction h with
  | leaf hleaf => exact ⟨[], rfl⟩
  | child _ _ _ ih =>
    obtain ⟨before, rfl⟩ := ih
    exact ⟨_ :: _ :: _ :: before, rfl⟩

omit [DecidableEq Node] [DecidableEq Frame] in
theorem Descent.coupled {isLeaf : Node → Bool} {child : Node → Node → Prop} {next : Node → Node}
    (hselect : ∀ node, isLeaf node = false → child node (next node)) {node leaf : Node}
    {events : List (Event Node)} (h : Descent isLeaf next node events leaf) :
    ∀ event ∈ events, event.Coupled isLeaf child := by
  induction h with
  | leaf hleaf =>
    intro event hevent
    obtain rfl := List.mem_singleton.mp hevent
    exact rfl
  | @child node leaf events hinternal hne _ ih =>
    intro event hevent
    simp only [List.mem_cons] at hevent
    rcases hevent with rfl | rfl | rfl | hevent
    · exact rfl
    · exact fun hmem => hne (List.mem_singleton.mp hmem)
    · exact ⟨List.mem_cons_of_mem _ List.mem_cons_self,
        fun _ => ⟨next node, hselect node hinternal, List.mem_cons_self⟩⟩
    · exact ih event hevent

/-- What the latches of a search are for. The search goes down to a leaf by the children that are
selected; it couples the latches without a gap, requests none that it holds, tests the loop
condition with the latch of the node held and no other, and ends as `findValue` does with all
latches released. -/
def Couples (ndebug : Bool) (isLeaf : Node → Bool) (child : Node → Node → Prop)
    (findChildNode : Node → Bytes → Node) (findValue : Node → Bytes → Except String Unit) (key : Bytes)
    (state : FindState Node Frame) : Prop :=
  ∃ events leaf enough, Descent isLeaf (fun node => findChildNode node key) state.root events leaf ∧
    (∀ event ∈ ⟨.requested, state.root, []⟩ :: events ++ [⟨.released, leaf, [leaf]⟩],
      event.Coupled isLeaf child) ∧
    ∀ rounds, enough ≤ rounds → ∃ after,
      (find ndebug isLeaf findChildNode findValue rounds key).exec state =
        ((findValue leaf key).mapError .logicError, after) ∧
      after.events =
        state.events ++ (⟨.requested, state.root, []⟩ :: events ++ [⟨.released, leaf, [leaf]⟩]) ∧
      after.latched = []

omit [DecidableEq Node] [DecidableEq Frame] in
/-- The events of a search that begins with the root and releases the leaf in the end. -/
theorem Descent.search_coupled {isLeaf : Node → Bool} {child : Node → Node → Prop} {next : Node → Node}
    (hselect : ∀ node, isLeaf node = false → child node (next node)) {root leaf : Node}
    {events : List (Event Node)} (h : Descent isLeaf next root events leaf) :
    ∀ event ∈ ⟨.requested, root, []⟩ :: events ++ [⟨.released, leaf, [leaf]⟩], event.Coupled isLeaf child := by
  intro event hevent
  rcases List.mem_append.mp hevent with hevent | hevent
  · rcases List.mem_cons.mp hevent with rfl | hevent
    · exact List.not_mem_nil
    · exact h.coupled hselect event hevent
  · obtain rfl := List.mem_singleton.mp hevent
    refine ⟨List.mem_cons_self, fun hinternal => ?_⟩
    rw [h.leaf_isLeaf] at hinternal
    cases hinternal

/-- With an empty stack and no latch held, in a tree that no one else changes and whatever
children are selected, `find` couples the latches exactly if assertions are disabled or it
constructs no frame, which takes a root that is a leaf at which `findValue` throws. The first
frame that it constructs fails the assertion of `Bytes::Bytes`. -/
theorem find_couples_iff (ndebug : Bool) {isLeaf : Node → Bool} {child : Node → Node → Prop}
    {findChildNode : Node → Bytes → Node} (findValue : Node → Bytes → Except String Unit) {key : Bytes}
    (hselect : ∀ node, isLeaf node = false → child node (findChildNode node key))
    (state : FindState Node Frame) (hstack : state.stackFrames.mTop = -1) (hlatched : state.latched = [])
    (htree : IsTree isLeaf child state.root) :
    Couples ndebug isLeaf child findChildNode findValue key state ↔
      ndebug = true ∨ isLeaf state.root = true ∧ ∃ what, findValue state.root key = .error what := by
  constructor
  · rintro ⟨events, leaf, enough, _, _, hends⟩
    cases ndebug with
    | true => exact Or.inl rfl
    | false =>
      refine Or.inr ?_
      by_contra hframe
      have haborts := exec_find_checked state findValue hselect hstack hlatched htree hframe enough
      obtain ⟨after, hexec, _⟩ := hends (enough + 1) (Nat.le_succ enough)
      rw [hexec] at haborts
      cases hvalue : findValue leaf key with
      | ok _ =>
        rw [hvalue] at haborts
        cases haborts
      | error what =>
        rw [hvalue] at haborts
        cases haborts
  · intro hframes
    obtain ⟨events, leaf, enough, hdescent, hfind⟩ :=
      exec_find state ndebug findValue hselect hstack hlatched htree hframes
    refine ⟨events, leaf, enough, hdescent, hdescent.search_coupled hselect, fun rounds hrounds => ?_⟩
    refine ⟨_, hfind rounds hrounds, ?_, rfl⟩
    simp only [List.append_assoc, List.nil_append, List.cons_append]

/-- A cursor without a position, before it searches a tree with the nodes numbered from the root
down. -/
def unpositionedAtRoot : FindState Nat Unit :=
  ⟨⟨ArrayStackGeneric.construct, fun _ => 0, fun _ => [], [], 0⟩, .empty, none, none, []⟩

/-- The leaves are two levels below the root. -/
theorem isTree_threeLevels :
    IsTree (fun node : Nat => decide (2 ≤ node)) (fun node next => next = node + 1) 0 := by
  refine .internal rfl fun next hnext => ?_
  subst hnext
  refine .internal rfl fun next hnext => ?_
  subst hnext
  exact .leaf rfl

/-- With assertions disabled the search gets to the leaf, at which `findValue` throws. -/
theorem find_couples_threeLevels :
    Couples true (fun node => decide (2 ≤ node)) (fun node next => next = node + 1) (fun node _ => node + 1)
      (fun _ _ => .error "unimplemented") (.repeated 1 7) unpositionedAtRoot := by
  refine (find_couples_iff true (fun _ _ => .error "unimplemented") ?_ unpositionedAtRoot rfl rfl
    isTree_threeLevels).mpr (Or.inl rfl)
  exact fun _ _ => rfl

/-- With assertions enabled the search ends in its first round. -/
theorem not_find_couples_threeLevels :
    ¬ Couples false (fun node => decide (2 ≤ node)) (fun node next => next = node + 1) (fun node _ => node + 1)
      (fun _ _ => .error "unimplemented") (.repeated 1 7) unpositionedAtRoot := by
  rintro ⟨events, leaf, enough, _, _, hends⟩
  obtain ⟨after, hexec, _⟩ := hends (enough + 1) (Nat.le_succ enough)
  have haborts : ((find false (fun node => decide (2 ≤ node)) (fun node _ => node + 1)
      (fun _ _ => .error "unimplemented") (enough + 1) (.repeated 1 7)).exec unpositionedAtRoot).1 =
        .error (.fault (.failed .assertion)) := rfl
  rw [hexec] at haborts
  cases haborts

end tupl.pvt.ops
