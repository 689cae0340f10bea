import TuplNative.Ops

namespace tupl.pvt.ops

/-- The frames that visit each node, in the order of its list, and the position of each
frame among the entries of its node. -/
structure Frames (Node Frame : Type) where
  visitorFrames : Node → List Frame
  position : Frame → UInt64

namespace Frames

variable {Node Frame : Type}

/-- `assert(false)`. -/
def assertFalse (ndebug : Bool) : Call Fault (Frames Node Frame) Unit :=
  Call.within id (fun frames _ => frames) Fault.failed (assert ndebug False)

variable [DecidableEq Frame]

/-- `frame->position = position`. -/
def setPosition (frame : Frame) (position : UInt64) : Call Fault (Frames Node Frame) Unit :=
  modify fun frames => { frames with position := Function.update frames.position frame position }

/-- `++it` for an iterator that is at a frame of a node. The end of the list is `none`. -/
def advance (node : Node) (frame : Frame) : Call Fault (Frames Node Frame) (Option Frame) := do
  let visitors := (← get).visitorFrames node
  if frame ∉ visitors then
    throw .unlinkedFrame
  return visitors[visitors.idxOf frame + 1]?

variable [DecidableEq Node]

/-- `splice(p, x, frame)` with the end of a node's list for `p`. As no list counts its
frames, the one that `splice` is called on has no part in it. -/
def splice (endOf x : Node) (frame : Frame) : Call Fault (Frames Node Frame) Unit := do
  let frames ← get
  if frame ∉ frames.visitorFrames x then
    throw .unlinkedFrame
  let unlinked := Function.update frames.visitorFrames x ((frames.visitorFrames x).erase frame)
  set { frames with visitorFrames := Function.update unlinked endOf (unlinked endOf ++ [frame]) }

end Frames

variable {Node Frame : Type} [DecidableEq Node] [DecidableEq Frame]

/-- The loop body of `moveFrames` at a frame, with where the iterator goes. `dstEndIt` is
the end of the list of the source. -/
def moveFrame (ndebug : Bool) (source : Node) (insertPos splitPos : UInt64) (thisIt : Frame) :
    Call Fault (Frames Node Frame) (Option Frame) := do
  let srcIt ← Frames.advance source thisIt
  let originalPos := (← get).position thisIt
  if originalPos ≥ splitPos then
    if originalPos < insertPos then
      Frames.setPosition thisIt (originalPos - splitPos)
    else if originalPos > insertPos then
      Frames.setPosition thisIt (originalPos - splitPos + 1)
    else
      Frames.assertFalse ndebug
    if insertPos > splitPos then
      Frames.splice source source thisIt
  else
    if originalPos < insertPos then
      pure ()
    else if originalPos > insertPos then
      Frames.setPosition thisIt (originalPos + 1)
    else
      Frames.assertFalse ndebug
    if insertPos ≤ splitPos then
      Frames.splice source source thisIt
  return srcIt

/-- At most so many rounds of the loop of `moveFrames`, with where the iterator is then. -/
def moveFramesFrom (ndebug : Bool) (source : Node) (insertPos splitPos : UInt64) :
    Nat → Option Frame → Call Fault (Frames Node Frame) (Option Frame)
  | 0, srcIt => return srcIt
  | _ + 1, none => return none
  | rounds + 1, some thisIt => do
    let srcIt ← moveFrame ndebug source insertPos splitPos thisIt
    moveFramesFrom ndebug source insertPos splitPos rounds srcIt

/-- `ops::moveFrames(source, sibling, insertPos, splitPos)` for a number of rounds. It has
returned if the iterator is at the end. -/
def moveFrames (ndebug : Bool) (source _sibling : Node) (insertPos splitPos : UInt64) (rounds : Nat) :
    Call Fault (Frames Node Frame) (Option Frame) := do
  let srcIt := ((← get).visitorFrames source).head?
  moveFramesFrom ndebug source insertPos splitPos rounds srcIt

end tupl.pvt.ops
