import TuplNative.Slow.Tree.Insert

namespace tupl.pvt.slow.Tree

/-- Some internal node on the way down from a node answers that it has no space
for the separator of the child that was descended into. The last tree is the one
at that moment. -/
inductive Overflows (search : ChildSearch) (ndebug : Bool) (key value : Bytes) :
    Nat → Tree → NodePtr → Tree → Prop where
  | here {fuel index : Nat} {tree after full : Tree} {node : InternalNode} {separator : Bytes}
      {next sibling : NodePtr} {split : Split} (hnode : tree.internalAt index = some node)
      (hnext : node.mChildren[search.find node key]? = some (separator, next))
      (hchild : (insertRecursive search ndebug key value fuel next).exec tree = (.ok (), after))
      (hsplit : after.splitAt next = some split) (hsibling : split.sibling = some sibling)
      (hinsert : (onInternal index (InternalNode.insertAt
        (if split.direction = .right then search.find node key + 1 else search.find node key) split.key
        sibling)).exec after = (.ok .failedNoSpace, full)) :
    Overflows search ndebug key value (fuel + 1) tree (.internal index) full
  | deeper {fuel index : Nat} {tree full : Tree} {node : InternalNode} {separator : Bytes} {next : NodePtr}
      (hnode : tree.internalAt index = some node)
      (hnext : node.mChildren[search.find node key]? = some (separator, next))
      (hchild : Overflows search ndebug key value fuel tree next full) :
    Overflows search ndebug key value (fuel + 1) tree (.internal index) full

/-- An internal node overflows while an entry is inserted. -/
def InsertOverflows (search : ChildSearch) (ndebug : Bool) (key value : Bytes) (tree full : Tree) :
    Prop :=
  Overflows search ndebug key value (tree.mInternalNodes.length + 1) tree (.internal tree.mRoot) full

/-- The overflow of an internal node is handled: the split gets a new internal
node without entries for a sibling, which the tree owns, and an insert that
returns leaves no half of the root behind. -/
structure OverflowHandled (search : ChildSearch) (ndebug : Bool) (key value : Bytes)
    (tree full : Tree) : Prop where
  sibling : ∃ node, node.mChildren = [] ∧ allocateInternal.exec full =
    (.ok (some full.mInternalNodes.length),
      { full with mInternalNodes := full.mInternalNodes ++ [some node] })
  root : ∀ after, (Tree.insert search ndebug key value).exec tree = (.ok (), after) →
    ∀ split, after.splitAt (.internal after.mRoot) = some split → split.sibling = none

variable {search : ChildSearch} {ndebug : Bool} {key value : Bytes}

theorem not_overflowHandled (tree full : Tree) :
    ¬ OverflowHandled search ndebug key value tree full := by
  intro hhandled
  obtain ⟨node, _, halloc⟩ := hhandled.sibling
  rw [allocateInternal_exec] at halloc
  cases halloc

/-- The split of an internal node has no sibling to move entries to. -/
theorem Overflows.exec_eq {fuel : Nat} {tree full : Tree} {pointer : NodePtr}
    (h : Overflows search ndebug key value fuel tree pointer full) :
    ∃ failure failed, (insertRecursive search ndebug key value fuel pointer).exec tree =
      (.error failure, failed) ∧ (ndebug = false → failure = .nullDereference) := by
  induction h with
  | @here fuel index tree after full node separator next sibling split hnode hnext hchild hsplit hsibling
      hinsert =>
    obtain ⟨failure, failed, hfails, hasserts⟩ := onInternal_splitAndInsertNull ndebug index split.key sibling
      { full with mInternalNodes := full.mInternalNodes ++ [none] }
    refine ⟨failure, failed, ?_, hasserts⟩
    unfold insertRecursive
    rw [Call.exec_get_bind, hnode, exec_dereference_bind]
    dsimp only
    rw [hnext, exec_dereference_bind, Call.exec_bind_ok hchild]
    unfold absorbSplit
    rw [Call.exec_get_bind, hsplit, exec_dereference_bind, hsibling]
    dsimp only
    rw [Call.exec_bind_ok hinsert, if_pos rfl, Call.exec_bind_ok (allocateInternal_exec full)]
    exact hfails
  | @deeper fuel index tree full node separator next hnode hnext hchild ih =>
    obtain ⟨failure, failed, hfailed, hasserts⟩ := ih
    refine ⟨failure, failed, ?_, hasserts⟩
    unfold insertRecursive
    rw [Call.exec_get_bind, hnode, exec_dereference_bind]
    dsimp only
    rw [hnext, exec_dereference_bind, Call.exec_bind_error hfailed]

/-- On a tree of two levels the null pointer is read for no other reason. -/
theorem Linked.overflows_of_nullDereference {nulls : Nat} {root : InternalNode} {leaves : List LeafNode}
    (hlinked : Linked root leaves)
    (hnull : ((Tree.insert search ndebug key value).exec (twoLevel nulls root leaves)).1 =
      .error .nullDereference) :
    ∃ full, InsertOverflows search ndebug key value (twoLevel nulls root leaves) full := by
  obtain ⟨separator, index, leaf, hleads⟩ := hlinked.exists_leadsTo search key
  have houtcome := hleads.outcome hlinked nulls ndebug value
  generalize (Tree.insert search ndebug key value).exec (twoLevel nulls root leaves) = result at hnull houtcome
  cases houtcome with
  | refused hrefuses what => cases hnull
  | blocked hblocked failed => cases hnull
  | settled hrefuses hblocked hsibling => cases hnull
  | tooBig hrefuses hblocked sibling hsibling hbig => cases hnull
  | absorbed hrefuses hblocked sibling hsibling hbig hspace position hpos hafter => cases hnull
  | repeated hrefuses hblocked sibling hsibling hbig hroom hndebug hfound => cases hnull
  | overflow hrefuses hblocked sibling hsibling hbig hroom hnew failed =>
    obtain ⟨what, aborted, hchild⟩ := insertRecursive_leaf_exec nulls root key value
      search ndebug nulls hleads.leaf_eq (hlinked.counted leaf (List.mem_of_getElem? hleads.leaf_eq))
    rw [if_neg hrefuses, if_neg hblocked] at hchild
    obtain ⟨after, hafter, hpending⟩ := settled_getElem? hleads.leaf_eq key value
    have hposition := (List.getElem?_eq_some_iff.mp hleads.entry).1
    have hplace : (if (pending leaves leaf key value).direction = .right then search.find root key + 1
        else search.find root key) ≤ root.mChildren.length := by
      split <;> omega
    have hinsert := Ops.insertAt_exec root (pending leaves leaf key value).key (.leaf sibling) hplace
    rw [if_neg fun htoo => hbig ((InternalNode.tooBig_iff _ _ _).mp htoo), if_pos hroom] at hinsert
    refine ⟨twoLevel nulls root (Tree.settled leaves index leaf key value), ?_⟩
    have hroot : (twoLevel nulls root leaves).internalAt 0 = some root := rfl
    rw [InsertOverflows, length_mInternalNodes]
    apply Overflows.here hroot hleads.entry hchild _ hsibling
    · rw [exec_onInternal, InternalNode.insertAt, hinsert]
    · change ((Tree.settled leaves index leaf key value)[index]?).map Node.mSplit = _
      rw [hafter, Option.map_some, hpending]

/-- Overflow of an internal node is handled in no run: `allocateInternal` makes no
node, so the split that needs one never returns. With assertions it dereferences a null
pointer. -/
theorem overflow_never_handled (search : ChildSearch) (ndebug : Bool) (entries : List (Bytes × Bytes)) :
    run.Always (insertCaught search ndebug) construct
      (fun _ tree => ∀ key value full, InsertOverflows search ndebug key value tree full →
        ¬ OverflowHandled search ndebug key value tree full ∧
          ((Tree.insert search ndebug key value).exec tree).1 ≠ .ok () ∧
          (ndebug = false → ((Tree.insert search ndebug key value).exec tree).1 = .error .nullDereference))
      entries := by
  intro done _ tree hrun key value full hoverflows
  obtain ⟨failure, failed, hfailed, hasserts⟩ := Overflows.exec_eq hoverflows
  have hinsert : ((Tree.insert search ndebug key value).exec tree).1 = .error failure := by
    unfold Tree.insert
    rw [Call.exec_get_bind, hfailed]
  rw [hinsert]
  refine ⟨not_overflowHandled tree full, ?_, ?_⟩
  · intro hreturned
    cases hreturned
  · intro hndebug
    rw [hasserts hndebug]

/-- The fifth entry splits a leaf at a key of 1016 bytes. The root takes the
sibling with that key again for each of the small entries. -/
def crowdingEntries : List (Bytes × Bytes) :=
  [(.repeated 1016 1, .empty), (.repeated 1016 2, .empty), (.repeated 1016 3, .empty),
    (.repeated 1016 4, .empty), (.repeated 1016 5, .empty), (.repeated 1 0, .empty),
    (.repeated 2 0, .empty), (.repeated 3 0, .empty)]

theorem not_overflowHandled_crowdingEntries :
    ¬ run.Always (insertCaught .leftmost false) construct
      (fun _ tree => ∀ key value full, InsertOverflows .leftmost false key value tree full →
        OverflowHandled .leftmost false key value tree full)
      crowdingEntries := by
  intro halways
  have hcomputed : (run (insertCaught .leftmost false) construct crowdingEntries).any (fun tree =>
      decide (((Tree.insert .leftmost false (.fill 4 0 (by decide)) .empty).exec tree).1 =
        .error .nullDereference)) = true := by
    decide +kernel
  obtain ⟨tree, hrun, hnull⟩ := (Option.any_eq_true _ _).mp hcomputed
  obtain ⟨nulls, root, leaves, rfl, hlinked⟩ := reached_twoLevel hrun
  obtain ⟨full, hoverflows⟩ := hlinked.overflows_of_nullDereference (of_decide_eq_true hnull)
  exact not_overflowHandled _ full (halways _ List.prefix_rfl _ hrun _ _ full hoverflows)

/-- With assertions disabled the root finds that it has the separator. The call throws, and the
leaf has taken the entry. -/
example : (run (insertCaught .leftmost true) construct crowdingEntries).map (fun tree =>
    (((Tree.insert .leftmost true (.fill 4 0 (by decide)) .empty).exec tree).1,
      (tree.mLeafNodes[0]?).map fun leaf => leaf.mChildren.length,
      (((Tree.insert .leftmost true (.fill 4 0 (by decide)) .empty).exec tree).2.mLeafNodes[0]?).map
        fun leaf => leaf.mChildren.length)) =
      some (.error (.invalidArgument "duplicate key not allowed"), some 5, some 6) := by
  decide +kernel

end tupl.pvt.slow.Tree
