import TuplNative.Algorithm.LowerBound
import TuplNative.Failure
import TuplNative.Types

namespace tupl.pvt.slow

inductive NodeType where
  | leaf
  | internal
  | fragment
  | root
  | undoLog
deriving DecidableEq, Repr

inductive SiblingDirection where
  | left
  | right
deriving DecidableEq, Repr

inductive InsertResult where
  | failedNoSpace
  | inserted
deriving DecidableEq, Repr

/-- `pvt::Buffer`, a byte string that owns its bytes. -/
abbrev Buffer := Bytes

/-- A `Node*` that is not null: the node's place among the leaf nodes or among
the internal nodes. -/
inductive NodePtr where
  | leaf (index : Nat)
  | internal (index : Nat)
deriving DecidableEq, Repr

structure Split where
  sibling : Option NodePtr
  direction : SiblingDirection
  key : Buffer
deriving DecidableEq

/-- A node whose children are entries with values of type `V`. The byte count is
a `uint_fast16_t`, which has 64 bits on the 64-bit platform. The members that no
operation here reads (latch, frames, eviction hooks) are left out. -/
structure Node (V : Type) where
  mBytes : UInt64
  mSplit : Split
  mChildren : List (Buffer × V)
deriving DecidableEq

/-- What the two overloads for leaf values and child pointers differ in. -/
class NodeValue (V : Type) where
  nodeType : NodeType
  valueSize : V → UInt64

instance : NodeValue Buffer := ⟨.leaf, Bytes.size⟩

/-- `sizeof(&node)` is 8 on the 64-bit platform. -/
instance : NodeValue NodePtr := ⟨.internal, fun _ => 8⟩

abbrev LeafNode := Node Buffer

abbrev InternalNode := Node NodePtr

section Node

variable {V : Type} [NodeValue V]

def Node.type (_ : Node V) : NodeType := NodeValue.nodeType V

def Node.bytes (node : Node V) : UInt64 := node.mBytes

/-- `mCapacity(4096)`, set by the constructor and constant since. -/
def Node.capacity (_ : Node V) : UInt64 := 4096

def Node.hasSibling (node : Node V) : Bool := node.mSplit.sibling.isSome

/-- `Node::Node`, with no children yet. -/
def Node.construct : Node V := ⟨0, ⟨none, .left, .empty⟩, []⟩

/-- `recordSplit`, which counts on there being no earlier split. -/
def Node.recordSplit (ndebug : Bool) (node : Node V) (sibling : NodePtr)
    (direction : SiblingDirection) (splitKey : Buffer) {σ : Type} : Call Failure σ (Node V) := do
  assert ndebug (node.mSplit.sibling = none)
  pure { node with mSplit := ⟨some sibling, direction, splitKey⟩ }

/-- `KeyLesser()(entry, key)`. -/
def keyLesser (key : Bytes) (entry : Buffer × V) : Bool :=
  std.lexicographicalCompare (fun a b => decide (a < b)) entry.1.data key.data

/-- `KeyEquals()(key, entry)`. -/
def keyEquals (key : Bytes) (entry : Buffer × V) : Bool :=
  key.size == entry.1.size && std.equal entry.1.data key.data

/-- `position != end && KeyEquals()(key, *position)`. -/
def keyEqualsAt (key : Bytes) (children : List (Buffer × V)) (position : Nat) : Bool :=
  (children[position]?).any (keyEquals key)

/-- `iterator->first`; an iterator at the end has none. -/
def keyAt (children : List (Buffer × V)) (position : Nat) : Buffer :=
  (children[position]?).elim .empty Prod.fst

def verifiedEntrySize (node : Node V) (keyBytes valueBytes : UInt64) {σ : Type} :
    Call Failure σ UInt64 := do
  let kvBytes := keyBytes + valueBytes
  let maxEntry := node.capacity / 4
  if kvBytes > maxEntry then
    throw (.invalidArgument "entry too big")
  pure kvBytes

/-- The `entrySize` function object of `recalculateBytesUsed`. -/
def entrySize (kvPair : Buffer × V) : UInt64 :=
  kvPair.1.size + NodeValue.valueSize kvPair.2

namespace Ops

/-- `Ops::insert(position, key, value, node)`. -/
def insertAt (position : Nat) (key : Bytes) (value : V) : Call Failure (Node V) InsertResult := do
  let node ← get
  let entrySize ← verifiedEntrySize node key.size (NodeValue.valueSize value)
  let usedBytes := node.bytes
  let availableBytes := node.capacity - usedBytes
  if entrySize > availableBytes then
    return .failedNoSpace
  let oldSize := node.mChildren.length
  let children := node.mChildren.insertIdx position (key, value)
  set { node with mChildren := children }
  if oldSize = children.length then
    throw (.invalidArgument "key exists")
  set { node with mBytes := usedBytes + entrySize, mChildren := children }
  return .inserted

/-- `recalculateBytesUsed`. -/
def recalculateBytesUsed (node : Node V) : Node V :=
  { node with
    mBytes := node.mChildren.foldl (fun total kvPair => total + entrySize kvPair) 0 }

/-- What `splitAndInsert` checks of the original before it gets at the sibling. It returns the
place of the key. -/
def checkSplit (original : Node V) (key : Bytes) (value : V) {σ : Type} : Call Failure σ Nat := do
  let entryBytes ← verifiedEntrySize original key.size (NodeValue.valueSize value)
  let usedBytes := original.bytes
  let availableBytes := original.capacity - usedBytes
  let size := original.mChildren.length
  if entryBytes < availableBytes ∨ size < 3 then
    throw (.domainError "split is not required")
  let origInsertIt := std.lowerBound (keyLesser key) original.mChildren
  if keyEqualsAt key original.mChildren origInsertIt then
    throw (.invalidArgument "duplicate key not allowed")
  return origInsertIt

/-- `Ops::splitAndInsert` on the original and its sibling, which `sibling` is the
address of. The assertion that both have one type holds by their types. -/
def splitAndInsert (ndebug : Bool) (sibling : NodePtr) (key : Bytes) (value : V) :
    Call Failure (Node V × Node V) Unit := do
  let (original, siblingNode) ← get
  let origInsertIt ← checkSplit original key value
  let size := original.mChildren.length
  let splitBeginIt := (size + 1) / 2
  let goesLeft := origInsertIt < splitBeginIt
  let siblingDirection := if goesLeft then SiblingDirection.left else .right
  let moveBeginIt := if goesLeft then 0 else splitBeginIt
  let moveEndIt := if goesLeft then splitBeginIt else size
  let splitKey := keyAt original.mChildren splitBeginIt
  -- An internal node gives its split key up to the parent by swapping it out.
  let children := if original.type = .leaf then original.mChildren
    else original.mChildren.modify splitBeginIt (fun kv => (.empty, kv.2))
  let siblingNode := { siblingNode with
    mChildren := siblingNode.mChildren ++ (children.extract moveBeginIt origInsertIt ++ [(key, value)] ++
      children.extract origInsertIt moveEndIt) }
  let original := { original with mChildren := children.take moveBeginIt ++ children.drop moveEndIt }
  set (original, siblingNode)
  let original ← original.recordSplit ndebug sibling siblingDirection splitKey
  set (recalculateBytesUsed original, recalculateBytesUsed siblingNode)

/-- `Ops::splitAndInsert` with a reference to a sibling that is not there. The assertion on the
types of both nodes reads the sibling; without it the first entry that moves is the first
access to it. -/
def splitAndInsertNull (ndebug : Bool) (key : Bytes) (value : V) : Call Failure (Node V) Unit := do
  if ndebug = false then
    throw .nullDereference
  let original ← get
  let _ ← checkSplit original key value
  throw .nullDereference

end Ops

end Node

namespace LeafNode

/-- `LeafNode::LeafNode()`. -/
def construct : LeafNode := Node.construct

/-- `LeafNode::insert(key, value)`. -/
def insert (key value : Bytes) : Call Failure LeafNode InsertResult := do
  let children := (← get).mChildren
  let insertPos := std.lowerBound (keyLesser key) children
  if keyEqualsAt key children insertPos then
    throw (.invalidArgument "duplicate key not allowed")
  Ops.insertAt insertPos key value

/-- `LeafNode::insert(position, key, value)`. -/
def insertAt (position : Nat) (key value : Bytes) : Call Failure LeafNode InsertResult :=
  Ops.insertAt position key value

/-- `LeafNode::splitAndInsert(key, value, sibling)`. -/
def splitAndInsert (ndebug : Bool) (sibling : NodePtr) (key value : Bytes) :
    Call Failure (LeafNode × LeafNode) Unit :=
  Ops.splitAndInsert ndebug sibling key value

end LeafNode

namespace InternalNode

/-- `InternalNode::InternalNode(leftestChild)`: the sentinel entry is added after
the base constructor has set the byte count. -/
def construct (leftestChild : NodePtr) : InternalNode :=
  { (Node.construct : InternalNode) with mChildren := [(.empty, leftestChild)] }

/-- `InternalNode::insert(key, value)`: the search starts behind the first entry. -/
def insert (key : Bytes) (value : NodePtr) : Call Failure InternalNode InsertResult := do
  let children := (← get).mChildren
  let insertPos := 1 + std.lowerBound (keyLesser key) (children.drop 1)
  if keyEqualsAt key children insertPos then
    throw (.invalidArgument "duplicate key not allowed")
  Ops.insertAt (insertPos - 1) key value

/-- `InternalNode::insert(position, key, value)`. -/
def insertAt (position : Nat) (key : Bytes) (value : NodePtr) :
    Call Failure InternalNode InsertResult :=
  Ops.insertAt position key value

/-- `InternalNode::splitAndInsert(key, value, sibling)`. -/
def splitAndInsert (ndebug : Bool) (sibling : NodePtr) (key : Bytes) (value : NodePtr) :
    Call Failure (InternalNode × InternalNode) Unit :=
  Ops.splitAndInsert ndebug sibling key value

/-- `InternalNode::splitAndInsert(key, value, sibling)` with a null reference for the sibling. -/
def splitAndInsertNull (ndebug : Bool) (key : Bytes) (value : NodePtr) : Call Failure InternalNode Unit :=
  Ops.splitAndInsertNull ndebug key value

end InternalNode

end tupl.pvt.slow
