import Mathlib.Data.List.MinMax
import TuplNative.Floor
import TuplNative.Slow.Node

namespace tupl.pvt.slow

/-- The keys of the entries of an internal node, the sentinel's included. -/
def separators (node : InternalNode) : Set Bytes := {k | k ∈ node.mChildren.map Prod.fst}

/-- `InternalNode::find`, which has no body yet, as the tree relies on it. It
returns an entry with the greatest key that is at most the searched key, or the
first entry when there is no such key. -/
structure ChildSearch where
  find : InternalNode → Bytes → Nat
  greatest : ∀ node key, (∃ e ∈ node.mChildren, e.1 ≤ key) →
    ∃ e, node.mChildren[find node key]? = some e ∧ IsFloor (separators node) key e.1
  first : ∀ node key, (∀ e ∈ node.mChildren, ¬ e.1 ≤ key) → find node key = 0

namespace ChildSearch

/-- Among the entries up to a key there is one with the greatest key. -/
theorem exists_greatest {entries : List (Buffer × NodePtr)} {key : Bytes}
    (h : ∃ e ∈ entries, e.1 ≤ key) :
    ∃ e ∈ entries, e.1 ≤ key ∧ ∀ other ∈ entries, other.1 ≤ key → other.1 ≤ e.1 := by
  have hsome : (entries.filter fun e => decide (e.1 ≤ key)).argmax Prod.fst ≠ none := by
    obtain ⟨e, he, hle⟩ := h
    intro hnone
    have hmem : e ∈ entries.filter fun e => decide (e.1 ≤ key) :=
      List.mem_filter.mpr ⟨he, decide_eq_true hle⟩
    rw [List.argmax_eq_none.mp hnone] at hmem
    cases hmem
  obtain ⟨e, hmax⟩ := Option.ne_none_iff_exists'.mp hsome
  obtain ⟨he, hle⟩ := List.mem_filter.mp (List.argmax_mem hmax)
  refine ⟨e, he, of_decide_eq_true hle, ?_⟩
  intro other hother hotherle
  exact List.le_of_mem_argmax (List.mem_filter.mpr ⟨hother, decide_eq_true hotherle⟩) hmax

/-- The entry is at most the key, and no other entry up to the key is greater. -/
def isGreatest (entries : List (Buffer × NodePtr)) (key : Bytes) (e : Buffer × NodePtr) : Bool :=
  decide (e.1 ≤ key ∧ ∀ other ∈ entries, other.1 ≤ key → other.1 ≤ e.1)

/-- The search that takes the leftmost entry of those with the greatest key. -/
def leftmost : ChildSearch where
  find node key := (node.mChildren.findIdx? (isGreatest node.mChildren key)).getD 0
  greatest := by
    intro node key h
    obtain ⟨e, he, hgreatest⟩ := exists_greatest h
    cases hposition : node.mChildren.findIdx? (isGreatest node.mChildren key) with
    | none =>
      have hmissed := List.findIdx?_eq_none_iff.mp hposition e he
      exact absurd hgreatest (of_decide_eq_false hmissed)
    | some index =>
      obtain ⟨hinside, hfound, _⟩ := List.findIdx?_eq_some_iff_getElem.mp hposition
      obtain ⟨hle, hfound⟩ := of_decide_eq_true hfound
      refine ⟨node.mChildren[index], List.getElem?_eq_getElem hinside, ?_, ?_⟩
      · exact ⟨List.mem_map_of_mem (List.getElem_mem hinside), hle⟩
      · rintro k ⟨hk, hkle⟩
        obtain ⟨other, hother, rfl⟩ := List.mem_map.mp hk
        exact hfound other hother hkle
  first := by
    intro node key h
    have hposition : node.mChildren.findIdx? (isGreatest node.mChildren key) = none := by
      rw [List.findIdx?_eq_none_iff]
      intro e he
      exact decide_eq_false fun hfound => h e he hfound.1
    rw [hposition]
    rfl

end ChildSearch

/-- A tree owns its nodes. The root is named by its place among the internal
nodes, and a `unique_ptr` to an internal node may be null. -/
structure Tree where
  mRoot : Nat
  mLeafNodes : List LeafNode
  mInternalNodes : List (Option InternalNode)
deriving DecidableEq

namespace Tree

/-- `Tree::Tree()`. -/
def construct : Tree := ⟨0, [LeafNode.construct], [some (InternalNode.construct (.leaf 0))]⟩

/-- `allocateLeaf`, which returns the place of the new leaf. -/
def allocateLeaf : Call Failure Tree Nat := do
  let tree ← get
  set { tree with mLeafNodes := tree.mLeafNodes ++ [LeafNode.construct] }
  return tree.mLeafNodes.length

/-- `allocateInternal`. The pointer it stores and returns is a `unique_ptr` that
nothing was allocated for. -/
def allocateInternal : Call Failure Tree (Option Nat) := do
  let newInternal : Option InternalNode := none
  let tree ← get
  set { tree with mInternalNodes := tree.mInternalNodes ++ [newInternal] }
  return newInternal.map fun _ => tree.mInternalNodes.length

def internalAt (tree : Tree) (index : Nat) : Option InternalNode := (tree.mInternalNodes[index]?).join

/-- The split of the node that a pointer points to. -/
def splitAt (tree : Tree) : NodePtr → Option Split
  | .leaf index => (tree.mLeafNodes[index]?).map Node.mSplit
  | .internal index => (tree.internalAt index).map Node.mSplit

def setInternal (index : Nat) (node : InternalNode) (tree : Tree) : Tree :=
  { tree with mInternalNodes := tree.mInternalNodes.set index (some node) }

/-- A call on one leaf. -/
def onLeaf {α : Type} (index : Nat) (call : Call Failure LeafNode α) : Call Failure Tree α :=
  call.zoom (fun tree => tree.mLeafNodes[index]?)
    (fun leaf tree => { tree with mLeafNodes := tree.mLeafNodes.set index leaf }) .nullDereference

/-- A call on a leaf and its sibling. -/
def onLeaves {α : Type} (index sibling : Nat) (call : Call Failure (LeafNode × LeafNode) α) :
    Call Failure Tree α :=
  call.zoom (fun tree => do return (← tree.mLeafNodes[index]?, ← tree.mLeafNodes[sibling]?))
    (fun leaves tree =>
      { tree with mLeafNodes := (tree.mLeafNodes.set index leaves.1).set sibling leaves.2 })
    .nullDereference

/-- A call on one internal node. -/
def onInternal {α : Type} (index : Nat) (call : Call Failure InternalNode α) : Call Failure Tree α :=
  call.zoom (fun tree => tree.internalAt index) (setInternal index) .nullDereference

/-- A call on an internal node and its sibling. -/
def onInternals {α : Type} (index sibling : Nat) (call : Call Failure (InternalNode × InternalNode) α) :
    Call Failure Tree α :=
  call.zoom (fun tree => do return (← tree.internalAt index, ← tree.internalAt sibling))
    (fun nodes tree => setInternal sibling nodes.2 (setInternal index nodes.1 tree)) .nullDereference

/-- The end of `insertRecursive` at an internal node: when the child that was
descended into has a sibling, the sibling gets an entry of its own. The reference
that `allocateInternal`'s null pointer is dereferenced to goes on to the split. -/
def absorbSplit (ndebug : Bool) (index nextIt : Nat) (next : NodePtr) : Call Failure Tree Unit := do
  let split ← dereference ((← get).splitAt next)
  match split.sibling with
  | none => pure ()
  | some sibling =>
    let nextIt := if split.direction = .right then nextIt + 1 else nextIt
    let insertResult ← onInternal index (InternalNode.insertAt nextIt split.key sibling)
    if insertResult = .failedNoSpace then
      match ← allocateInternal with
      | some newInternal =>
        onInternals index newInternal
          (InternalNode.splitAndInsert ndebug (.internal newInternal) split.key sibling)
      | none => onInternal index (InternalNode.splitAndInsertNull ndebug split.key sibling)
    else
      assert ndebug (insertResult = .inserted)

/-- `insertRecursive`. The descent goes through every internal node at most once,
or it never ends. -/
def insertRecursive (search : ChildSearch) (ndebug : Bool) (key value : Bytes) :
    Nat → NodePtr → Call Failure Tree Unit
  | 0, _ => throw .stackOverflow
  | _ + 1, .leaf index => do
    let insertResult ← onLeaf index (LeafNode.insert key value)
    if insertResult ≠ .inserted then
      assert ndebug (insertResult = .failedNoSpace)
      let sibling ← allocateLeaf
      onLeaves index sibling (LeafNode.splitAndInsert ndebug (.leaf sibling) key value)
  | fuel + 1, .internal index => do
    let node ← dereference ((← get).internalAt index)
    let nextIt := search.find node key
    let (_, next) ← dereference node.mChildren[nextIt]?
    insertRecursive search ndebug key value fuel next
    absorbSplit ndebug index nextIt next

/-- `Tree::insert(key, value)`. -/
def insert (search : ChildSearch) (ndebug : Bool) (key value : Bytes) : Call Failure Tree Unit := do
  let tree ← get
  insertRecursive search ndebug key value (tree.mInternalNodes.length + 1) (.internal tree.mRoot)

/-- The leaf that the search reaches by going down from a node. -/
def descend (search : ChildSearch) (tree : Tree) (key : Bytes) : Nat → NodePtr → Option LeafNode
  | 0, _ => none
  | _ + 1, .leaf index => tree.mLeafNodes[index]?
  | fuel + 1, .internal index => do
    let node ← tree.internalAt index
    let (_, next) ← node.mChildren[search.find node key]?
    descend search tree key fuel next

/-- The leaf that the search reaches by going down from the root. -/
def leafFor (search : ChildSearch) (tree : Tree) (key : Bytes) : Option LeafNode :=
  descend search tree key (tree.mInternalNodes.length + 1) (.internal tree.mRoot)

end Tree

end tupl.pvt.slow
