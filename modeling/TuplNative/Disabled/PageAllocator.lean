import Mathlib.Logic.Function.Basic
import TuplNative.Failure

namespace tupl.pvt.disabled

/-- The list of dirty nodes: the pointers of the allocator, and the dirty links of
all nodes. A null pointer is `none`. -/
structure PageAllocator (Node : Type) where
  mFirstDirty : Option Node
  mLastDirty : Option Node
  mFlushNext : Option Node
  nextDirty : Node → Option Node
  prevDirty : Node → Option Node

namespace PageAllocator

variable {Node : Type} [DecidableEq Node]

omit [DecidableEq Node] in
/-- `PageAllocator::PageAllocator`, with no node linked yet. -/
def construct : PageAllocator Node := ⟨none, none, none, fun _ => none, fun _ => none⟩

/-- `node->nextDirty = link`. -/
def setNextDirty (node : Node) (link : Option Node) : Call Failure (PageAllocator Node) Unit :=
  modify fun allocator => { allocator with nextDirty := Function.update allocator.nextDirty node link }

/-- `node->prevDirty = link`. -/
def setPrevDirty (node : Node) (link : Option Node) : Call Failure (PageAllocator Node) Unit :=
  modify fun allocator => { allocator with prevDirty := Function.update allocator.prevDirty node link }

/-- The end of `dirty`: the node is the last one, and the flush iterator steps over
it. -/
def moveLast (node : Node) (next : Option Node) : Call Failure (PageAllocator Node) Unit := do
  modify fun allocator => { allocator with mLastDirty := some node }
  if (← get).mFlushNext = some node then
    modify fun allocator => { allocator with mFlushNext := next }

/-- `PageAllocator::dirty(nodeRef)`, under the latch. -/
def dirty (node : Node) : Call Failure (PageAllocator Node) Unit := do
  let next := (← get).nextDirty node
  let prev := (← get).prevDirty node
  match next, prev with
  | some nextNode, prev =>
    setPrevDirty nextNode prev
    match prev with
    | none => modify fun allocator => { allocator with mFirstDirty := next }
    | some prevNode => setNextDirty prevNode next
    setNextDirty node none
    setPrevDirty node (← get).mLastDirty
    setNextDirty (← dereference (← get).mLastDirty) (some node)
    moveLast node next
  | none, none =>
    let last := (← get).mLastDirty
    if last = some node then
      return
    match last with
    | none => modify fun allocator => { allocator with mFirstDirty := some node }
    | some lastNode =>
      setPrevDirty node last
      setNextDirty lastNode (some node)
    moveLast node next
  | none, some _ => moveLast node next

end PageAllocator

end tupl.pvt.disabled
