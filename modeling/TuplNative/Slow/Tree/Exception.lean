import TuplNative.Slow.Tree.Insert

namespace tupl.pvt.slow.Tree

/-- Every node of the first tree is in the second one with the same entries, byte
count and split. -/
structure Unchanged (before after : Tree) : Prop where
  root : after.mRoot = before.mRoot
  leaves : ∀ (index : Nat) (leaf : LeafNode), before.mLeafNodes[index]? = some leaf →
    after.mLeafNodes[index]? = some leaf
  internals : ∀ (index : Nat) (node : InternalNode), before.internalAt index = some node →
    after.internalAt index = some node

/-- The separator that an insert makes the root check, as the state before it
tells: the key at the cut of a leaf that is split, or the split key of a leaf
that was split before. -/
def offered (search : ChildSearch) (ndebug : Bool) (tree : Tree) (key value : Bytes) :
    Option Buffer := do
  let leaf ← tree.leafFor search key
  if leaf.Refuses key value ∨ leaf.Blocked ndebug key value then none
  else if leaf.FullFor key value then some leaf.splitKey
  else if leaf.hasSibling then some leaf.mSplit.key
  else none

/-- The root throws at a separator: it is too big, or the root has no room left for it and has
it already, which its split finds unless an assertion makes it read the sibling first. -/
def RootThrows (ndebug : Bool) (tree : Tree) (separator : Bytes) : Prop :=
  1024 < separator.data.length + 8 ∨
    ndebug = true ∧ ∃ root, tree.internalAt tree.mRoot = some root ∧
      root.LacksRoom separator (.leaf 0) ∧ root.FindsKey separator

section TwoLevel

variable {search : ChildSearch} {nulls : Nat} {root : InternalNode} {leaves : List LeafNode} {index : Nat}
  {leaf : LeafNode} {key value separator : Bytes}

theorem LeadsTo.offered_eq (h : LeadsTo search root leaves key separator index leaf) (nulls : Nat)
    (ndebug : Bool) (value : Bytes) :
    offered search ndebug (twoLevel nulls root leaves) key value =
      if leaf.Refuses key value ∨ leaf.Blocked ndebug key value then none
      else (pending leaves leaf key value).sibling.map fun _ => (pending leaves leaf key value).key := by
  unfold offered
  rw [h.leafFor_eq]
  dsimp only [Option.bind_eq_bind, Option.bind_some]
  by_cases hno : leaf.Refuses key value ∨ leaf.Blocked ndebug key value
  · rw [if_pos hno, if_pos hno]
  rw [if_neg hno, if_neg hno, pending]
  by_cases hfull : leaf.FullFor key value
  · rw [if_pos hfull, if_pos hfull]
    rfl
  · rw [if_neg hfull, if_neg hfull, Node.hasSibling]
    cases leaf.mSplit.sibling <;> rfl

/-- The separator of a split that the leaf has on record is offered. -/
theorem LeadsTo.mem_offered (h : LeadsTo search root leaves key separator index leaf) {ndebug : Bool}
    (hrefuses : ¬ leaf.Refuses key value) (hblocked : ¬ leaf.Blocked ndebug key value) {sibling : NodePtr}
    (hsibling : (pending leaves leaf key value).sibling = some sibling) :
    (pending leaves leaf key value).key ∈ offered search ndebug (twoLevel nulls root leaves) key value := by
  rw [h.offered_eq, if_neg (not_or.mpr ⟨hrefuses, hblocked⟩), hsibling]
  rfl

theorem rootThrows_twoLevel (ndebug : Bool) (separator : Bytes) :
    RootThrows ndebug (twoLevel nulls root leaves) separator ↔
      1024 < separator.data.length + 8 ∨
        ndebug = true ∧ root.LacksRoom separator (.leaf 0) ∧ root.FindsKey separator := by
  constructor
  · rintro (hbig | ⟨hndebug, node, hnode, hroom, hfound⟩)
    · exact Or.inl hbig
    · obtain rfl := Option.some.inj hnode
      exact Or.inr ⟨hndebug, hroom, hfound⟩
  · rintro (hbig | ⟨hndebug, hroom, hfound⟩)
    · exact Or.inl hbig
    · exact Or.inr ⟨hndebug, root, rfl, hroom, hfound⟩

/-- A leaf that takes an entry changes. -/
theorem settled_getElem?_ne (hlinked : Linked root leaves) (hleaf : leaves[index]? = some leaf) :
    (settled leaves index leaf key value)[index]? ≠ some leaf := by
  have hinside : index < leaves.length := (List.getElem?_eq_some_iff.mp hleaf).1
  intro hsame
  unfold settled at hsame
  by_cases hfull : leaf.FullFor key value
  · obtain ⟨after, hafter, hsplit⟩ := settled_getElem? hleaf key value
    unfold settled at hafter
    rw [hsame] at hafter
    obtain rfl := Option.some.inj hafter
    have hsibling : leaf.mSplit.sibling = some (.leaf leaves.length) := by
      rw [hsplit, pending, if_pos hfull]
      rfl
    obtain ⟨sibling, hrange, heq⟩ := hlinked.siblings leaf (List.mem_of_getElem? hleaf) _ hsibling
    cases heq
    exact Nat.lt_irrefl _ hrange
  · rw [if_neg hfull, List.getElem?_set_self hinside] at hsame
    have hchildren := congrArg (fun leaf => leaf.mChildren.length) (Option.some.inj hsame)
    have hlength := List.length_insertIdx_of_le_length (a := (key, value))
      (std.lowerBound_le_length (keyLesser key) leaf.mChildren)
    change (leaf.mChildren.insertIdx (leaf.insertIt key) (key, value)).length = _ at hchildren
    unfold Node.insertIt at hchildren
    omega

/-- One insert keeps the tree when it throws, if and only if the root does not throw at
what it is offered: by then the leaf has settled the entry. -/
theorem LeadsTo.unchanged_iff (hlinked : Linked root leaves)
    (h : LeadsTo search root leaves key separator index leaf) (ndebug : Bool) (value : Bytes) :
    (∀ failure after, (Tree.insert search ndebug key value).exec (twoLevel nulls root leaves) =
        (.error failure, after) → failure.isException = true → Unchanged (twoLevel nulls root leaves) after) ↔
      ∀ separator ∈ offered search ndebug (twoLevel nulls root leaves) key value,
        ¬ RootThrows ndebug (twoLevel nulls root leaves) separator := by
  have houtcome := h.outcome hlinked nulls ndebug value
  simp only [rootThrows_twoLevel]
  rw [h.offered_eq]
  generalize (Tree.insert search ndebug key value).exec (twoLevel nulls root leaves) = result at houtcome
  cases houtcome with
  | refused hrefuses what =>
    rw [if_pos (Or.inl hrefuses)]
    refine ⟨fun _ _ hnone => absurd hnone (by simp), ?_⟩
    intro _ failure after heq _
    cases heq
    exact ⟨rfl, fun _ _ h => h, fun _ _ h => h⟩
  | blocked hblocked failed =>
    rw [if_pos (Or.inr hblocked)]
    refine ⟨fun _ _ hnone => absurd hnone (by simp), ?_⟩
    intro _ failure after heq hexception
    cases heq
    cases hexception
  | settled hrefuses hblocked hsibling =>
    rw [if_neg (not_or.mpr ⟨hrefuses, hblocked⟩), hsibling]
    refine ⟨fun _ _ hnone => absurd hnone (by simp), ?_⟩
    intro _ failure after heq _
    cases heq
  | tooBig hrefuses hblocked sibling hsibling hbig =>
    rw [if_neg (not_or.mpr ⟨hrefuses, hblocked⟩), hsibling]
    constructor
    · intro hunchanged
      have hsame := (hunchanged _ _ rfl rfl).leaves index leaf h.leaf_eq
      exact absurd hsame (settled_getElem?_ne hlinked h.leaf_eq)
    · intro hfits
      exact absurd (Or.inl hbig) (hfits _ rfl)
  | overflow hrefuses hblocked sibling hsibling hbig hroom hnew failed =>
    rw [if_neg (not_or.mpr ⟨hrefuses, hblocked⟩), hsibling]
    constructor
    · intro _ separator hseparator
      cases hseparator
      rintro (hover | ⟨hndebug, _, hfound⟩)
      · exact hbig hover
      · exact hnew ⟨hndebug, hfound⟩
    · intro _ failure after heq hexception
      cases heq
      cases hexception
  | repeated hrefuses hblocked sibling hsibling hbig hroom hndebug hfound =>
    rw [if_neg (not_or.mpr ⟨hrefuses, hblocked⟩), hsibling]
    constructor
    · intro hunchanged
      have hsame := (hunchanged _ _ rfl rfl).leaves index leaf h.leaf_eq
      exact absurd hsame (settled_getElem?_ne hlinked h.leaf_eq)
    · intro hfits
      exact absurd (Or.inr ⟨hndebug, hroom, hfound⟩) (hfits _ rfl)
  | absorbed hrefuses hblocked sibling hsibling hbig hspace position hpos hafter =>
    rw [if_neg (not_or.mpr ⟨hrefuses, hblocked⟩), hsibling]
    constructor
    · intro _ separator hseparator
      cases hseparator
      rintro (hover | ⟨_, hroom, _⟩)
      · exact hbig hover
      · exact hspace hroom
    · intro _ failure after heq _
      cases heq

end TwoLevel

/-- An insert that throws leaves a reachable tree as it was exactly when the root does
not throw at the separator that it is offered, neither at its size nor, with assertions
disabled, as at a duplicate for which it has no room. The root's checks come after the leaf
has been changed. -/
theorem unchanged_iff_offered_fits (search : ChildSearch) (ndebug : Bool)
    (entries : List (Bytes × Bytes)) :
    run.Always (insertCaught search ndebug) construct
      (fun _ tree => ∀ key value,
        (∀ failure after, (Tree.insert search ndebug key value).exec tree = (.error failure, after) →
            failure.isException = true → Unchanged tree after) ↔
          ∀ separator ∈ offered search ndebug tree key value, ¬ RootThrows ndebug tree separator)
      entries := by
  intro done _ tree hrun key value
  obtain ⟨nulls, root, leaves, rfl, hlinked⟩ := reached_twoLevel hrun
  obtain ⟨separator, index, leaf, hleads⟩ := hlinked.exists_leadsTo search key
  exact hleads.unchanged_iff hlinked ndebug value

/-- Four entries of 1020 bytes, all of them in their keys. -/
def longKeys : List (Bytes × Bytes) :=
  [(.repeated 1020 1, .empty), (.repeated 1020 2, .empty), (.repeated 1020 3, .empty),
    (.repeated 1020 4, .empty)]

/-- A fifth such entry splits the leaf at a key that the leaf had accepted. The
root turns that key down, and the exception leaves the leaf with two entries. -/
theorem not_unchanged_longKeys :
    ¬ run.Always (insertCaught .leftmost false) construct
      (fun _ tree => ∀ key value failure after,
        (Tree.insert .leftmost false key value).exec tree = (.error failure, after) →
          failure.isException = true → Unchanged tree after)
      longKeys := by
  intro halways
  have hcomputed : ∃ tree, run (insertCaught .leftmost false) construct longKeys = some tree ∧
      ((Tree.insert .leftmost false (.fill 1020 5 (by decide)) .empty).exec tree).1 =
        .error (.invalidArgument "entry too big") ∧
      (tree.mLeafNodes[0]?).map (fun leaf => leaf.mChildren.length) = some 4 ∧
      ((((Tree.insert .leftmost false (.fill 1020 5 (by decide)) .empty).exec tree).2).mLeafNodes[0]?).map
        (fun leaf => leaf.mChildren.length) = some 2 := by
    have hany : (run (insertCaught .leftmost false) construct longKeys).any (fun tree =>
        decide (((Tree.insert .leftmost false (.fill 1020 5 (by decide)) .empty).exec tree).1 =
            .error (.invalidArgument "entry too big") ∧
          (tree.mLeafNodes[0]?).map (fun leaf => leaf.mChildren.length) = some 4 ∧
          ((((Tree.insert .leftmost false (.fill 1020 5 (by decide)) .empty).exec tree).2).mLeafNodes[0]?).map
            (fun leaf => leaf.mChildren.length) = some 2)) = true := by
      decide +kernel
    obtain ⟨tree, hrun, hchecks⟩ := (Option.any_eq_true _ _).mp hany
    exact ⟨tree, hrun, of_decide_eq_true hchecks⟩
  obtain ⟨tree, hrun, hthrow, hbefore, hafter⟩ := hcomputed
  obtain ⟨leaf, hleaf, hfour⟩ := Option.map_eq_some_iff.mp hbefore
  have hunchanged := halways _ List.prefix_rfl tree hrun _ _ _ _ (Prod.ext hthrow rfl) rfl
  rw [hunchanged.leaves 0 leaf hleaf, Option.map_some, hfour] at hafter
  exact absurd hafter (by decide)

end tupl.pvt.slow.Tree
