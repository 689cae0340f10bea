import TuplNative.Slow.Tree.Insert

namespace tupl.pvt.slow.Tree

/-- The child pointers in the entries of all internal nodes. -/
def childPointers (tree : Tree) : List NodePtr :=
  tree.mInternalNodes.flatMap fun node => node.elim [] fun node => node.mChildren.map Prod.snd

/-- Every split has been absorbed: no child reports a sibling, no child is
pointed to twice, and no insert finds an earlier sibling in the leaf that it
splits. -/
structure Absorbed (search : ChildSearch) (tree : Tree) : Prop where
  siblings : ∀ child ∈ tree.childPointers, ∀ split, tree.splitAt child = some split →
    split.sibling = none
  pointers : tree.childPointers.Nodup
  assertion : ∀ key value, ((Tree.insert search false key value).exec tree).1 ≠ .error .assertion

/-- Caught inserts, with a record of whether one of them found its leaf full. -/
def insertWatched (search : ChildSearch) (ndebug : Bool) (state : Tree × Bool) (entry : Bytes × Bytes) :
    Option (Tree × Bool) :=
  (insertCaught search ndebug state.1 entry).map fun tree =>
    (tree, state.2 || (state.1.leafFor search entry.1).any fun leaf => decide (leaf.FullFor entry.1 entry.2))

section TwoLevel

variable {search : ChildSearch} {nulls : Nat} {root : InternalNode} {leaves : List LeafNode} {key value : Bytes}

theorem childPointers_twoLevel :
    (twoLevel nulls root leaves).childPointers = root.mChildren.map Prod.snd := by
  have hnulls : (List.replicate nulls (none : Option InternalNode)).flatMap
      (fun node => node.elim [] fun node => node.mChildren.map Prod.snd) = [] :=
    List.flatMap_replicate.trans (List.flatten_replicate_nil)
  rw [childPointers, twoLevel, List.flatMap_cons, hnulls]
  exact List.append_nil _

/-- No leaf has been split yet. -/
structure Unsplit (root : InternalNode) (leaves : List LeafNode) : Prop where
  only : root.mChildren = [(.empty, .leaf 0)]
  siblings : ∀ leaf ∈ leaves, leaf.mSplit.sibling = none

/-- Some leaf below the root has been split. It never stops to report its sibling. -/
def HasSplit (root : InternalNode) (leaves : List LeafNode) : Prop :=
  ∃ separator index leaf, (separator, .leaf index) ∈ root.mChildren ∧ leaves[index]? = some leaf ∧
    leaf.hasSibling = true

theorem Unsplit.absorbed (hlinked : Linked root leaves) (h : Unsplit root leaves) :
    Absorbed search (twoLevel nulls root leaves) := by
  refine ⟨?_, ?_, ?_⟩
  · intro child hchild split hsplit
    rw [childPointers_twoLevel, h.only] at hchild
    obtain rfl := List.mem_singleton.mp hchild
    obtain ⟨leaf, hleaf, rfl⟩ := Option.map_eq_some_iff.mp hsplit
    exact h.siblings leaf (List.mem_of_getElem? hleaf)
  · rw [childPointers_twoLevel, h.only]
    exact List.nodup_singleton _
  · intro key value hassertion
    obtain ⟨separator, index, leaf, hleads⟩ := hlinked.exists_leadsTo search key
    have houtcome := hleads.outcome hlinked nulls false value
    have hsibling := h.siblings leaf (List.mem_of_getElem? hleads.leaf_eq)
    generalize (Tree.insert search false key value).exec (twoLevel nulls root leaves) = result
      at hassertion houtcome
    cases houtcome with
    | blocked hblocked failed =>
      have hhas := hblocked.2.2
      rw [Node.hasSibling, hsibling] at hhas
      cases hhas
    | refused hrefuses what => cases hassertion
    | settled hrefuses hblocked hnone => cases hassertion
    | tooBig hrefuses hblocked sibling hpending hbig => cases hassertion
    | overflow hrefuses hblocked sibling hpending hbig hroom hnew failed => cases hassertion
    | repeated hrefuses hblocked sibling hpending hbig hroom hndebug hfound => cases hassertion
    | absorbed hrefuses hblocked sibling hpending hbig hspace position hpos hafter => cases hassertion

theorem HasSplit.not_absorbed (h : HasSplit root leaves) :
    ¬ Absorbed search (twoLevel nulls root leaves) := by
  obtain ⟨separator, index, leaf, hentry, hleaf, hsibling⟩ := h
  intro habsorbed
  have hchild : NodePtr.leaf index ∈ (twoLevel nulls root leaves).childPointers := by
    rw [childPointers_twoLevel]
    exact List.mem_map_of_mem hentry
  have hsplit : (twoLevel nulls root leaves).splitAt (.leaf index) = some leaf.mSplit := by
    change (leaves[index]?).map Node.mSplit = _
    rw [hleaf]
    rfl
  rw [Node.hasSibling, habsorbed.siblings _ hchild _ hsplit] at hsibling
  cases hsibling

/-- A leaf keeps its sibling through all that settles entries. -/
theorem HasSplit.settled {index : Nat} {leaf : LeafNode} (h : HasSplit root leaves)
    (hleaf : leaves[index]? = some leaf) : HasSplit root (settled leaves index leaf key value) := by
  obtain ⟨separator, split, other, hentry, hother, hsibling⟩ := h
  by_cases hsame : index = split
  · subst hsame
    rw [hleaf] at hother
    obtain rfl := Option.some.inj hother
    obtain ⟨after, hafter, hpending⟩ := settled_getElem? hleaf key value
    refine ⟨separator, index, after, hentry, hafter, ?_⟩
    rw [Node.hasSibling, hpending, pending]
    split
    · rfl
    · exact hsibling
  · have hinside := (List.getElem?_eq_some_iff.mp hother).1
    refine ⟨separator, split, other, hentry, ?_, hsibling⟩
    rw [settled_getElem?_of_ne _ _ _ hinside hsame, hother]

theorem HasSplit.withEntry {position : Nat} {separator : Bytes} {child : NodePtr}
    (h : HasSplit root leaves)
    (hpos : position ≤ root.mChildren.length) :
    HasSplit (root.withEntry position separator child) leaves := by
  obtain ⟨other, index, leaf, hentry, hleaf, hsibling⟩ := h
  exact ⟨other, index, leaf, (List.mem_insertIdx hpos).mpr (Or.inr hentry), hleaf, hsibling⟩

/-- A full leaf is split and reports its sibling. -/
theorem LeadsTo.split_of_full {separator : Bytes} {index : Nat} {leaf : LeafNode}
    (h : LeadsTo search root leaves key separator index leaf) (hfull : leaf.FullFor key value) :
    HasSplit root (Tree.settled leaves index leaf key value) := by
  obtain ⟨after, hafter, hpending⟩ := settled_getElem? h.leaf_eq key value
  refine ⟨separator, index, after, List.mem_of_getElem? h.entry, hafter, ?_⟩
  rw [Node.hasSibling, hpending, pending, if_pos hfull]
  rfl

theorem Unsplit.settled {index : Nat} {leaf : LeafNode} (h : Unsplit root leaves)
    (hleaf : leaves[index]? = some leaf) (hfull : ¬ leaf.FullFor key value) :
    Unsplit root (Tree.settled leaves index leaf key value) := by
  refine ⟨h.only, ?_⟩
  intro other hother
  rcases mem_settled hother with hother | ⟨hyes, _⟩ | ⟨_, rfl⟩
  · exact h.siblings other hother
  · exact absurd hyes hfull
  · exact h.siblings leaf (List.mem_of_getElem? hleaf)

end TwoLevel

/-- What a watched run keeps: all splits are still to come until a leaf is found
full, and from then on one is always on record. -/
def Watched (found : Bool) (root : InternalNode) (leaves : List LeafNode) : Prop :=
  if found then HasSplit root leaves else Unsplit root leaves

section Watched

variable {search : ChildSearch} {root : InternalNode} {leaves : List LeafNode} {index : Nat} {leaf : LeafNode}
  {key value separator : Bytes} {found : Bool}

theorem Watched.settled (h : Watched found root leaves)
    (hleads : LeadsTo search root leaves key separator index leaf) (value : Bytes) :
    Watched (found || decide (leaf.FullFor key value)) root (Tree.settled leaves index leaf key value) := by
  cases found with
  | true => exact HasSplit.settled h hleads.leaf_eq
  | false =>
    by_cases hfull : leaf.FullFor key value
    · rw [decide_eq_true hfull]
      exact hleads.split_of_full hfull
    · rw [decide_eq_false hfull]
      exact Unsplit.settled h hleads.leaf_eq hfull

/-- A leaf with a sibling to offer has been found full. -/
theorem Watched.eq_true_of_pending (h : Watched found root leaves)
    (hleads : LeadsTo search root leaves key separator index leaf) {sibling : NodePtr}
    (hpending : (pending leaves leaf key value).sibling = some sibling) :
    (found || decide (leaf.FullFor key value)) = true := by
  cases found with
  | true => rfl
  | false =>
    by_cases hfull : leaf.FullFor key value
    · exact decide_eq_true hfull
    · have hunsplit : Unsplit root leaves := h
      rw [pending, if_neg hfull,
        hunsplit.siblings leaf (List.mem_of_getElem? hleads.leaf_eq)] at hpending
      cases hpending

end Watched

theorem Watched.insertWatched {search : ChildSearch} {ndebug : Bool} {nulls : Nat} {root : InternalNode}
    {leaves : List LeafNode}
    {found : Bool} {state' : Tree × Bool} {entry : Bytes × Bytes} (hlinked : Linked root leaves)
    (h : Watched found root leaves)
    (hstep : insertWatched search ndebug (twoLevel nulls root leaves, found) entry = some state') :
    ∃ nulls' root' leaves', state'.1 = twoLevel nulls' root' leaves' ∧ Linked root' leaves' ∧
      Watched state'.2 root' leaves' := by
  obtain ⟨separator, index, leaf, hleads⟩ := hlinked.exists_leadsTo search entry.1
  obtain ⟨after, hcaught, rfl⟩ := Option.map_eq_some_iff.mp hstep
  have houtcome := hleads.outcome hlinked nulls ndebug entry.2
  have hsettled := h.settled hleads entry.2
  rw [hleads.leafFor_eq, Option.any_some]
  unfold insertCaught at hcaught
  generalize (Tree.insert search ndebug entry.1 entry.2).exec (twoLevel nulls root leaves) = result
    at hcaught houtcome
  cases houtcome with
  | refused hrefuses what =>
    cases hcaught
    refine ⟨nulls, root, leaves, rfl, hlinked, ?_⟩
    rw [decide_eq_false fun hfull => hfull.1 hrefuses, Bool.or_false]
    exact h
  | blocked hblocked failed => cases hcaught
  | settled hrefuses hblocked hsibling =>
    cases hcaught
    exact ⟨_, _, _, rfl, hlinked.settled hleads.leaf_eq hrefuses, hsettled⟩
  | tooBig hrefuses hblocked sibling hsibling hbig =>
    cases hcaught
    exact ⟨_, _, _, rfl, hlinked.settled hleads.leaf_eq hrefuses, hsettled⟩
  | overflow hrefuses hblocked sibling hsibling hbig hroom hnew failed => cases hcaught
  | repeated hrefuses hblocked sibling hsibling hbig hroom hndebug hfound =>
    cases hcaught
    exact ⟨_, _, _, rfl, hlinked.settled hleads.leaf_eq hrefuses, hsettled⟩
  | absorbed hrefuses hblocked sibling hsibling hbig hspace position hpos hafter =>
    cases hcaught
    refine ⟨_, _, _, rfl, hafter, ?_⟩
    rw [h.eq_true_of_pending hleads hsibling] at hsettled ⊢
    exact HasSplit.withEntry hsettled hpos

/-- In every state of every run, all splits are absorbed if and only if no call so
far found its leaf full: nothing ever clears the split of a leaf. -/
theorem absorbed_iff_none_full (search : ChildSearch) (ndebug : Bool) (entries : List (Bytes × Bytes)) :
    run.Always (insertWatched search ndebug) (construct, false)
      (fun _ state => Absorbed search state.1 ↔ state.2 = false) entries := by
  intro done _ state hrun
  have hreached : ∃ nulls root leaves, state.1 = twoLevel nulls root leaves ∧ Linked root leaves ∧
      Watched state.2 root leaves := by
    apply run.preserved (fun state => ∃ nulls root leaves, state.1 = twoLevel nulls root leaves ∧
      Linked root leaves ∧ Watched state.2 root leaves) _ _ hrun
    · refine ⟨0, _, _, rfl, Linked.construct, rfl, ?_⟩
      intro leaf hmem
      rw [List.mem_singleton.mp hmem]
      rfl
    · rintro ⟨tree, found⟩ entry state' ⟨nulls, root, leaves, htree, hlinked, hwatched⟩ hstep
      obtain rfl : tree = twoLevel nulls root leaves := htree
      exact Watched.insertWatched hlinked hwatched hstep
  obtain ⟨nulls, root, leaves, htree, hlinked, hfound⟩ := hreached
  rw [htree]
  cases hflag : state.2 with
  | false =>
    rw [hflag] at hfound
    exact ⟨fun _ => rfl, fun _ => Unsplit.absorbed hlinked hfound⟩
  | true =>
    rw [hflag] at hfound
    exact ⟨fun habsorbed => absurd habsorbed (HasSplit.not_absorbed hfound),
      fun hfalse => by cases hfalse⟩

/-- The fifth entry splits the leaf, and the sixth goes to the leaf that was
split and makes the root take its sibling a second time. -/
def sixEntries : List (Bytes × Bytes) :=
  [thousand 1, thousand 2, thousand 3, thousand 4, thousand 5, thousand 0]

theorem not_absorbed_sixEntries :
    (sixEntries.map Prod.fst).Nodup ∧
      ¬ run.Always (insertCaught .leftmost false) construct (fun _ tree => Absorbed .leftmost tree)
        sixEntries := by
  refine ⟨by decide, ?_⟩
  intro halways
  have hcomputed : (run (insertCaught .leftmost false) construct sixEntries).any (fun tree =>
      decide (tree.childPointers = [.leaf 0, .leaf 1, .leaf 1])) = true := by
    decide +kernel
  obtain ⟨tree, hrun, hpointers⟩ := (Option.any_eq_true _ _).mp hcomputed
  have hnodup := (halways _ List.prefix_rfl tree hrun).pointers
  rw [of_decide_eq_true hpointers] at hnodup
  exact absurd hnodup (by decide)

end tupl.pvt.slow.Tree
