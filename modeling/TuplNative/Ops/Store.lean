import TuplNative.Ops.Unwind
import TuplNative.Slow.LeafNode.Insert

namespace tupl.pvt.ops

/-- What `store` works on: the thread, the key of the cursor, and the leaf nodes. -/
structure StoreState (Node Frame : Type) extends State Node Frame where
  key : slow.Buffer
  leaf : Node → slow.LeafNode

variable {Node Frame : Type}

/-- A call on what the thread has. -/
def StoreState.onThread {α : Type} (call : Call Fault (State Node Frame) α) :
    Call Exit (StoreState Node Frame) α :=
  Call.within StoreState.toState (fun thread state => { state with toState := thread }) Exit.fault call

variable [DecidableEq Node]

/-- A call on a leaf node. -/
def StoreState.onLeaf {α : Type} (node : Node) (call : Call Failure slow.LeafNode α) :
    Call Exit (StoreState Node Frame) α :=
  Call.within (fun state => state.leaf node)
    (fun leaf state => { state with leaf := Function.update state.leaf node leaf })
    (fun failure => .fault (.failed failure)) call

omit [DecidableEq Node] in
/-- `ops::splitLeaf`. -/
def splitLeaf : Call Exit (StoreState Node Frame) Unit := throw (.logicError "unimplemented")

/-- The end of the lock on the leaf. -/
def StoreState.unlock (node : Node) (state : StoreState Node Frame) : StoreState Node Frame :=
  { state with latched := state.latched.erase node }

/-- The part of `store` under the latch of the leaf. -/
def storeLatched (ndebug : Bool) (leafNode : Node) (value : Bytes) :
    Call Exit (StoreState Node Frame) Unit := do
  let state ← get
  let endIt := (state.leaf leafNode).mChildren.length
  let insertResult ← StoreState.onLeaf leafNode (slow.LeafNode.insertAt endIt state.key value)
  if insertResult = .failedNoSpace then
    check ndebug (insertResult = .inserted)
    splitLeaf

/-- `ops::store(tree, visitor, value)` on a visitor whose top frame points to a leaf. -/
def store (ndebug : Bool) (value : Bytes) : Call Exit (StoreState Node Frame) Unit := do
  if ← StoreState.onThread (onStack (ArrayStackGeneric.empty ndebug)) then
    throw (.runtimeError "unpositioned")
  let frame ← StoreState.onThread (topFrame ndebug)
  let leafNode := (← get).node frame
  StoreState.onThread (lockExclusive leafNode)
  Call.inScope Exit.isException (StoreState.unlock leafNode) (storeLatched ndebug leafNode value)

section Exec

variable {state : StoreState Node Frame} {left : List Frame} {frame : Frame} {value : Bytes}

omit [DecidableEq Node] in
theorem StoreState.exec_onThread_ok {α : Type} {call : Call Fault (State Node Frame) α} {a : α}
    {thread : State Node Frame} (hcall : call.exec state.toState = (.ok a, thread)) :
    (StoreState.onThread call).exec state = (.ok a, { state with toState := thread }) :=
  Call.exec_within_ok hcall

omit [DecidableEq Node] in
theorem StoreState.exec_onThread_error {α : Type} {call : Call Fault (State Node Frame) α} {fault : Fault}
    {thread : State Node Frame} (hcall : call.exec state.toState = (.error fault, thread)) :
    (StoreState.onThread call).exec state = (.error (.fault fault), { state with toState := thread }) :=
  Call.exec_within_error hcall

theorem StoreState.exec_onLeaf_ok {α : Type} {call : Call Failure slow.LeafNode α} {node : Node} {a : α}
    {leaf : slow.LeafNode} (hcall : call.exec (state.leaf node) = (.ok a, leaf)) :
    (StoreState.onLeaf node call).exec state =
      (.ok a, { state with leaf := Function.update state.leaf node leaf }) :=
  Call.exec_within_ok hcall

theorem StoreState.exec_onLeaf_error {α : Type} {call : Call Failure slow.LeafNode α} {node : Node}
    {failure : Failure} {leaf : slow.LeafNode}
    (hcall : call.exec (state.leaf node) = (.error failure, leaf)) :
    (StoreState.onLeaf node call).exec state =
      (.error (.fault (.failed failure)), { state with leaf := Function.update state.leaf node leaf }) :=
  Call.exec_within_error hcall

/-- With assertions enabled, the check whether there is a position aborts if there is one. -/
theorem exec_store_checked (hstack : state.stackFrames = ArrayStackGeneric.ofList (left ++ [frame])) :
    (store false value).exec state = (.error (.fault (.failed .assertion)), state) := by
  have htop : ¬ state.stackFrames.mTop = -1 := by
    rw [hstack, ArrayStackGeneric.ofList_concat_mTop]
    omega
  have hempty : (ArrayStackGeneric.empty false).exec state.stackFrames =
      (.error .assertion, state.stackFrames) := by
    unfold ArrayStackGeneric.empty
    rw [Call.exec_get_bind, Call.exec_bind_error (exec_assert_false htop _)]
  have hthread : (onStack (ArrayStackGeneric.empty false)).exec state.toState =
      (.error (.failed .assertion), state.toState) := by
    unfold onStack
    rw [Call.exec_get_bind, hempty]
    rfl
  exact Call.exec_bind_error (StoreState.exec_onThread_error hthread)

/-- The leaf with the entry behind all others. -/
def appended (leaf : slow.LeafNode) (key value : Bytes) : slow.LeafNode :=
  leaf.withEntry leaf.mChildren.length key value

theorem appended_mChildren (leaf : slow.LeafNode) (key value : Bytes) :
    (appended leaf key value).mChildren = leaf.mChildren ++ [(key, value)] := by
  have happend := insertIdx_append leaf.mChildren [] (key, value)
  rw [List.append_nil] at happend
  exact happend

/-- The leaf refuses an entry that is too big and cannot be split. Otherwise it gets the
entry behind all others. -/
theorem exec_storeLatched (state : StoreState Node Frame) (node : Node) (value : Bytes) :
    (storeLatched true node value).exec state =
      if (state.leaf node).TooBig state.key value then
        (.error (.fault (.failed (.invalidArgument "entry too big"))), state)
      else if (state.leaf node).LacksRoom state.key value then (.error (.logicError "unimplemented"), state)
      else (.ok (), { state with
        leaf := Function.update state.leaf node (appended (state.leaf node) state.key value) }) := by
  have hinsert := slow.LeafNode.insertAt_exec (state.leaf node) state.key value (Nat.le_refl _)
  have hkept : { state with leaf := Function.update state.leaf node (state.leaf node) } = state := by
    rw [Function.update_eq_self]
  unfold storeLatched
  rw [Call.exec_get_bind]
  dsimp only
  by_cases hbig : (state.leaf node).TooBig state.key value
  · rw [if_pos hbig] at hinsert ⊢
    rw [Call.exec_bind_error (StoreState.exec_onLeaf_error hinsert), hkept]
  rw [if_neg hbig] at hinsert ⊢
  by_cases hroom : (state.leaf node).LacksRoom state.key value
  · rw [if_pos hroom] at hinsert ⊢
    rw [Call.exec_bind_ok (StoreState.exec_onLeaf_ok hinsert), hkept]
    rfl
  · rw [if_neg hroom] at hinsert ⊢
    rw [Call.exec_bind_ok (StoreState.exec_onLeaf_ok hinsert)]
    rfl

/-- The latch of the leaf is released however the part under it ends. -/
theorem exec_inScope_storeLatched {node : Node} :
    (Call.inScope Exit.isException (StoreState.unlock node) (storeLatched true node value)).exec
        { state with latched := node :: state.latched } =
      (storeLatched true node value).exec state := by
  have hunlock : ∀ leaf, StoreState.unlock node
      { state with latched := node :: state.latched, leaf := leaf } = { state with leaf := leaf } := by
    intro leaf
    rw [StoreState.unlock, List.erase_cons_head]
  have hinside := exec_storeLatched { state with latched := node :: state.latched } node value
  rw [exec_storeLatched]
  dsimp only at hinside
  by_cases hbig : (state.leaf node).TooBig state.key value
  · rw [if_pos hbig] at hinside ⊢
    rw [Call.exec_inScope_exception hinside rfl, hunlock]
  rw [if_neg hbig] at hinside ⊢
  by_cases hroom : (state.leaf node).LacksRoom state.key value
  · rw [if_pos hroom] at hinside ⊢
    rw [Call.exec_inScope_exception hinside rfl, hunlock]
  · rw [if_neg hroom] at hinside ⊢
    rw [Call.exec_inScope_ok hinside, hunlock]

/-- With assertions disabled, `store` latches the leaf of the top frame and leaves no
latch behind. -/
theorem exec_store (hstack : state.stackFrames = ArrayStackGeneric.ofList (left ++ [frame])) :
    (store true value).exec state =
      if state.node frame ∈ state.latched then (.error (.fault .deadlock), state)
      else (storeLatched true (state.node frame) value).exec state := by
  have hempty : (onStack (ArrayStackGeneric.empty true)).exec state.toState = (.ok false, state.toState) := by
    apply exec_onStack
    rw [hstack, ArrayStackGeneric.exec_empty]
    simp
  have htop := exec_topFrame_concat hstack
  unfold store
  rw [Call.exec_bind_ok (StoreState.exec_onThread_ok hempty)]
  dsimp only
  rw [if_neg Bool.false_ne_true, Call.exec_bind_ok (StoreState.exec_onThread_ok htop), Call.exec_get_bind]
  by_cases hheld : state.node frame ∈ state.latched
  · rw [if_pos hheld, Call.exec_bind_error (StoreState.exec_onThread_error (exec_lockExclusive_held hheld))]
  rw [if_neg hheld, Call.exec_bind_ok (StoreState.exec_onThread_ok (exec_lockExclusive hheld))]
  exact exec_inScope_storeLatched

end Exec

/-- If the call returned, the leaf is a map again, in which the key has the value and
every other key what it had. No other leaf has changed. -/
def StoresKey (node : Node) (value : Bytes) (before : StoreState Node Frame)
    (result : Except Exit Unit × StoreState Node Frame) : Prop :=
  result.1 = .ok () →
    Sorted (result.2.leaf node).mChildren ∧
    (result.2.leaf node).mChildren.filter (fun e => decide (e.1 = before.key)) = [(before.key, value)] ∧
    (result.2.leaf node).mChildren.filter (fun e => decide (e.1 ≠ before.key)) =
      (before.leaf node).mChildren.filter (fun e => decide (e.1 ≠ before.key)) ∧
    ∀ other, other ≠ node → result.2.leaf other = before.leaf other

/-- Nothing keeps the call from returning. -/
def Returns (ndebug : Bool) (node : Node) (value : Bytes) (state : StoreState Node Frame) : Prop :=
  ndebug = true ∧ node ∉ state.latched ∧ ¬ (state.leaf node).TooBig state.key value ∧
    ¬ (state.leaf node).LacksRoom state.key value

section Claim

variable {state : StoreState Node Frame} {left : List Frame} {frame : Frame}

theorem exec_store_of_returns {ndebug : Bool} {value : Bytes}
    (hstack : state.stackFrames = ArrayStackGeneric.ofList (left ++ [frame]))
    (hreturns : Returns ndebug (state.node frame) value state) :
    (store ndebug value).exec state = (.ok (), { state with
      leaf := Function.update state.leaf (state.node frame)
        (appended (state.leaf (state.node frame)) state.key value) }) := by
  obtain ⟨rfl, hfree, hbig, hroom⟩ := hreturns
  rw [exec_store hstack, if_neg hfree, exec_storeLatched, if_neg hbig, if_neg hroom]

theorem exec_store_of_not_returns {ndebug : Bool} {value : Bytes}
    (hstack : state.stackFrames = ArrayStackGeneric.ofList (left ++ [frame]))
    (hreturns : ¬ Returns ndebug (state.node frame) value state) :
    ((store ndebug value).exec state).1 ≠ .ok () := by
  cases ndebug with
  | false =>
    rw [exec_store_checked hstack]
    exact fun hok => nomatch hok
  | true =>
    rw [exec_store hstack]
    by_cases hheld : state.node frame ∈ state.latched
    · rw [if_pos hheld]
      exact fun hok => nomatch hok
    rw [if_neg hheld, exec_storeLatched]
    by_cases hbig : (state.leaf (state.node frame)).TooBig state.key value
    · rw [if_pos hbig]
      exact fun hok => nomatch hok
    rw [if_neg hbig]
    by_cases hroom : (state.leaf (state.node frame)).LacksRoom state.key value
    · rw [if_pos hroom]
      exact fun hok => nomatch hok
    · exact absurd ⟨rfl, hheld, hbig, hroom⟩ hreturns

/-- An entry behind all others keeps the order exactly if its key is above theirs. -/
theorem sorted_concat_iff {entries : List (slow.Buffer × slow.Buffer)} (hsorted : Sorted entries)
    (key value : Bytes) : Sorted (entries ++ [(key, value)]) ↔ ∀ e ∈ entries, e.1 < key := by
  unfold Sorted at hsorted ⊢
  rw [List.pairwise_append]
  constructor
  · intro h e he
    exact h.2.2 e he (key, value) List.mem_cons_self
  · intro h
    refine ⟨hsorted, List.pairwise_singleton _ _, ?_⟩
    intro e he new hnew
    obtain rfl := List.mem_singleton.mp hnew
    exact h e he

/-- Whenever `store` returns, the leaf is a map with the new entry exactly if the key of
the cursor is above all keys of the leaf. It puts the entry behind them, wherever the
cursor stands and whether or not the key is there. -/
theorem store_storesKey_iff (ndebug : Bool) (value : Bytes)
    (hstack : state.stackFrames = ArrayStackGeneric.ofList (left ++ [frame]))
    (hsorted : Sorted (state.leaf (state.node frame)).mChildren) :
    StoresKey (state.node frame) value state ((store ndebug value).exec state) ↔
      (Returns ndebug (state.node frame) value state →
        ∀ e ∈ (state.leaf (state.node frame)).mChildren, e.1 < state.key) := by
  by_cases hreturns : Returns ndebug (state.node frame) value state
  · have hchildren : (Function.update state.leaf (state.node frame)
        (appended (state.leaf (state.node frame)) state.key value) (state.node frame)).mChildren =
          (state.leaf (state.node frame)).mChildren ++ [(state.key, value)] := by
      rw [Function.update_self, appended_mChildren]
    unfold StoresKey
    rw [exec_store_of_returns hstack hreturns]
    dsimp only
    rw [hchildren, sorted_concat_iff hsorted]
    constructor
    · intro hstores _
      exact (hstores rfl).1
    · intro habove _
      refine ⟨habove hreturns, ?_, ?_, fun other hother => Function.update_of_ne hother _ _⟩
      · have hnone : (state.leaf (state.node frame)).mChildren.filter
            (fun e => decide (e.1 = state.key)) = [] := by
          apply List.filter_eq_nil_iff.mpr
          intro e he
          simpa using (habove hreturns e he).ne
        rw [List.filter_append, hnone, List.nil_append, List.filter_cons_of_pos (by simp), List.filter_nil]
      · rw [List.filter_append, List.filter_cons_of_neg (by simp), List.filter_nil, List.append_nil]
  · refine iff_of_true (fun hok => absurd hok (exec_store_of_not_returns hstack hreturns)) ?_
    exact fun h => absurd h hreturns

end Claim

/-- A cursor with one frame on a leaf with one entry. -/
def atLeaf (entry key : byte) : StoreState Unit Unit where
  stackFrames := ArrayStackGeneric.ofList [()]
  node := fun _ => ()
  visitorFrames := fun _ => [()]
  latched := []
  root := ()
  key := .repeated 1 key
  leaf := fun _ => ⟨2, ⟨none, .left, .empty⟩, [(.repeated 1 entry, .repeated 1 entry)]⟩

/-- The key 2 goes behind the key 1. -/
theorem storesKey_above :
    StoresKey () (.repeated 1 9) (atLeaf 1 2) ((store true (.repeated 1 9)).exec (atLeaf 1 2)) := by
  have hstack : (atLeaf 1 2).stackFrames = ArrayStackGeneric.ofList ([] ++ [()]) := rfl
  refine (store_storesKey_iff true (.repeated 1 9) hstack (List.pairwise_singleton _ _)).mpr fun _ => ?_
  decide

/-- The key 1 goes behind the key 2, and a key that is there is stored twice. -/
theorem not_storesKey_below :
    ((store true (.repeated 1 9)).exec (atLeaf 2 1)).1 = .ok () ∧
      ¬ StoresKey () (.repeated 1 9) (atLeaf 2 1) ((store true (.repeated 1 9)).exec (atLeaf 2 1)) ∧
      ((store true (.repeated 1 9)).exec (atLeaf 2 2)).1 = .ok () ∧
      ¬ StoresKey () (.repeated 1 9) (atLeaf 2 2) ((store true (.repeated 1 9)).exec (atLeaf 2 2)) := by
  have hbelow : ((store true (.repeated 1 9)).exec (atLeaf 2 1)).1 = .ok () := by decide +kernel
  have hsame : ((store true (.repeated 1 9)).exec (atLeaf 2 2)).1 = .ok () := by decide +kernel
  refine ⟨hbelow, fun hstores => ?_, hsame, fun hstores => ?_⟩
  · exact absurd (hstores hbelow).1 (by unfold Sorted; decide +kernel)
  · exact absurd (hstores hsame).2.1 (by decide +kernel)

end tupl.pvt.ops
