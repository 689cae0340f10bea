import TuplNative.ArrayStackGeneric

namespace tupl.pvt.ops

/-- How a call can end other than by returning. -/
inductive Fault where
  /-- A call on the stack failed. -/
  | failed (failure : Failure)
  /-- A frame was used that is not alive, which is undefined behaviour. -/
  | deadFrame
  /-- A frame was erased from a list that it is not linked in. -/
  | unlinkedFrame
  /-- The thread waits for a latch that it holds itself. -/
  | deadlock
deriving DecidableEq, Repr

/-- How a call of a cursor can end other than by returning. -/
inductive Exit where
  | fault (fault : Fault)
  | runtimeError (what : String)
  | logicError (what : String)
  /-- The loop does not end. -/
  | endless
deriving DecidableEq, Repr

/-- Whether the scopes that the call is in are left on the way to a handler. -/
def Exit.isException : Exit → Bool
  | .fault (.failed failure) => failure.isException
  | .fault _ => false
  | .runtimeError _ => true
  | .logicError _ => true
  | .endless => false

/-- The `assert` macro in a call of a cursor. -/
def check {σ : Type} (ndebug : Bool) (p : Prop) [Decidable p] : Call Exit σ Unit :=
  Call.within id (fun s _ => s) (fun failure => .fault (.failed failure)) (assert ndebug p)

theorem exec_check {σ : Type} (ndebug : Bool) {p : Prop} [Decidable p] (hp : p) (s : σ) :
    (check ndebug p).exec s = (.ok (), s) :=
  Call.exec_within_ok (exec_assert ndebug hp s)

/-- What the thread of a cursor works on: the stack of the cursor, the nodes that all
frames point to, the frames that visit each node, the latches that the thread holds
exclusively, and the root of the tree. -/
structure State (Node Frame : Type) where
  stackFrames : ArrayStackGeneric Frame 64
  node : Frame → Node
  visitorFrames : Node → List Frame
  latched : List Node
  root : Node

variable {Node Frame : Type}

/-- A call on the stack of the cursor. -/
def onStack {α : Type} (call : Call Failure (ArrayStackGeneric Frame 64) α) :
    Call Fault (State Node Frame) α := do
  let state ← get
  let (outcome, stackFrames) := call.exec state.stackFrames
  set { state with stackFrames := stackFrames }
  match outcome with
  | .ok a => pure a
  | .error failure => throw (.failed failure)

/-- `stackFrames.top()`, whose node is read next. -/
def topFrame (ndebug : Bool) : Call Fault (State Node Frame) Frame := do
  match ← onStack (ArrayStackGeneric.top ndebug) with
  | some frame => pure frame
  | none => throw .deadFrame

variable [DecidableEq Node]

/-- `Latch::scoped_exclusive_lock`. The latch is not reentrant. -/
def lockExclusive (node : Node) : Call Fault (State Node Frame) Unit := do
  let state ← get
  if node ∈ state.latched then
    throw .deadlock
  set { state with latched := node :: state.latched }

/-- The end of a `Latch::scoped_exclusive_lock`. -/
def unlockExclusive (node : Node) : Call Fault (State Node Frame) Unit :=
  modify fun state => { state with latched := state.latched.erase node }

variable [DecidableEq Frame]

/-- `node->visitorFrames.erase(toEraseIt)`. -/
def eraseVisitor (node : Node) (frame : Frame) : Call Fault (State Node Frame) Unit := do
  let state ← get
  if frame ∉ state.visitorFrames node then
    throw .unlinkedFrame
  set { state with
    visitorFrames :=
      Function.update state.visitorFrames node ((state.visitorFrames node).erase frame) }

/-- The body of the loop of `unwindAndLockRoot`. -/
def unwindFrame (ndebug : Bool) : Call Fault (State Node Frame) Unit := do
  let frame ← topFrame ndebug
  let node := (← get).node frame
  lockExclusive node
  eraseVisitor node frame
  unlockExclusive node
  onStack (ArrayStackGeneric.pop ndebug)

/-- The loop of `unwindAndLockRoot`. -/
def unwindFrames (ndebug : Bool) : Nat → Call Fault (State Node Frame) Unit
  | 0 => pure ()
  | rounds + 1 => do
    unwindFrame ndebug
    unwindFrames ndebug rounds

/-- The end of `unwindAndLockRoot`, which goes on holding the latch that it returns.
The old lock is released once the new one is there. -/
def unwindRootFrame (ndebug : Bool) : Call Fault (State Node Frame) Node := do
  let frame ← topFrame ndebug
  let stackRoot := (← get).node frame
  lockExclusive stackRoot
  eraseVisitor stackRoot frame
  onStack (ArrayStackGeneric.pop ndebug)
  let root := (← get).root
  if stackRoot ≠ root then
    lockExclusive root
    unlockExclusive stackRoot
    return root
  return stackRoot

/-- `ops::unwindAndLockRoot`. -/
def unwindAndLockRoot (ndebug : Bool) : Call Fault (State Node Frame) Node := do
  let numFrames := (← get).stackFrames.size
  unwindFrames ndebug (numFrames.toNat - 1)
  unwindRootFrame ndebug

end tupl.pvt.ops
