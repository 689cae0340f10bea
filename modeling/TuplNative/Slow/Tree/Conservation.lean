import TuplNative.Slow.Tree.Contents

namespace tupl.pvt.slow.Tree

/-- The entries of all leaves that the tree owns, whether the root leads to them or not. -/
def contents (tree : Tree) : List (Buffer × Buffer) := tree.mLeafNodes.flatMap Node.mChildren

/-- Whether the leaf that the key leads to takes the entry, by a split if need be. -/
def accepts (search : ChildSearch) (tree : Tree) (entry : Bytes × Bytes) : Bool :=
  (tree.leafFor search entry.1).any fun leaf => decide (¬ leaf.Refuses entry.1 entry.2)

/-- A caught insert, with a history of the entries that a leaf has accepted. -/
def insertTracked (search : ChildSearch) (ndebug : Bool) (state : Tree × List (Bytes × Bytes))
    (entry : Bytes × Bytes) : Option (Tree × List (Bytes × Bytes)) :=
  (insertCaught search ndebug state.1 entry).map fun tree =>
    (tree, if accepts search state.1 entry then state.2 ++ [entry] else state.2)

section Leaf

variable {leaf : LeafNode} {key value : Bytes}

/-- A split leaves the entries of a leaf and the new one in its two halves. -/
theorem kept_append_moved_perm (hsorted : Sorted leaf.mChildren) (key value : Bytes) :
    (leaf.kept key ++ leaf.moved key value).Perm ((key, value) :: leaf.mChildren) := by
  have hhalves : (leaf.kept key ++ leaf.half key).Perm leaf.mChildren := by
    rw [LeafNode.kept_eq, LeafNode.half]
    split
    · exact List.perm_append_comm.trans (List.Perm.of_eq (List.take_append_drop _ _))
    · exact List.Perm.of_eq (List.take_append_drop _ _)
  rw [LeafNode.moved_eq hsorted]
  exact ((sortedInsert_perm _ _ _).append_left _).trans (List.perm_middle.trans (hhalves.cons _))

/-- One leaf replaced, and the entries of the other leaves. -/
theorem flatMap_set_perm {leaves : List LeafNode} {index : Nat} (hinside : index < leaves.length)
    (after : LeafNode) : ((leaves.set index after).flatMap Node.mChildren).Perm
      (after.mChildren ++ (leaves.take index ++ leaves.drop (index + 1)).flatMap Node.mChildren) := by
  rw [List.set_eq_take_append_cons_drop, if_pos hinside, List.flatMap_append, List.flatMap_cons,
    List.flatMap_append]
  exact List.perm_append_comm_assoc _ _ _

/-- Settling an entry adds it to the leaves and changes nothing else. -/
theorem settled_perm {leaves : List LeafNode} {index : Nat} (hleaf : leaves[index]? = some leaf)
    (hsorted : Sorted leaf.mChildren) (key value : Bytes) :
    ((settled leaves index leaf key value).flatMap Node.mChildren).Perm
      ((key, value) :: leaves.flatMap Node.mChildren) := by
  obtain ⟨hinside, hget⟩ := List.getElem?_eq_some_iff.mp hleaf
  have hbefore := flatMap_set_perm hinside leaf
  rw [← hget, List.set_getElem_self, hget] at hbefore
  unfold settled
  split
  · have hmoved : (LeafNode.construct.grown (leaf.moved key value)).mChildren = leaf.moved key value :=
      List.nil_append _
    have hkept := flatMap_set_perm hinside (leaf.afterSplit (.leaf leaves.length) key)
    rw [List.flatMap_append, List.flatMap_singleton, hmoved]
    refine (hkept.append_right _).trans (.trans ?_ (hbefore.cons (key, value)).symm)
    refine List.perm_append_comm.trans ?_
    rw [← List.append_assoc, ← List.cons_append]
    exact (List.perm_append_comm.trans (kept_append_moved_perm hsorted key value)).append_right _
  · refine (flatMap_set_perm hinside _).trans (.trans ?_ (hbefore.cons (key, value)).symm)
    rw [LeafNode.withEntryAdded_mChildren hsorted, ← List.cons_append]
    exact (sortedInsert_perm _ _ _).append_right _

end Leaf

section Track

variable {search : ChildSearch} {ndebug : Bool} {nulls : Nat} {root : InternalNode} {leaves : List LeafNode}
  {entry : Bytes × Bytes}

theorem accepts_iff {separator : Bytes} {index : Nat} {leaf : LeafNode}
    (hleads : LeadsTo search root leaves entry.1 separator index leaf) :
    accepts search (twoLevel nulls root leaves) entry = true ↔ ¬ leaf.Refuses entry.1 entry.2 := by
  rw [accepts, hleads.leafFor_eq, Option.any_some, decide_eq_true_iff]

/-- A caught insert adds its entry to the leaves if the leaf accepts it, whether the root
then takes the separator or not, and changes no entry else. -/
theorem Linked.insertCaught_contents (h : Linked root leaves) {tree : Tree}
    (hstep : Tree.insertCaught search ndebug (twoLevel nulls root leaves) entry = some tree) :
    (contents tree).Perm (if accepts search (twoLevel nulls root leaves) entry then
      entry :: contents (twoLevel nulls root leaves) else contents (twoLevel nulls root leaves)) := by
  obtain ⟨separator, index, leaf, hleads⟩ := h.exists_leadsTo search entry.1
  have hsorted := (h.counted leaf (List.mem_of_getElem? hleads.leaf_eq)).sorted
  have hsettled := settled_perm hleads.leaf_eq hsorted entry.1 entry.2
  have houtcome := hleads.outcome h nulls ndebug entry.2
  unfold Tree.insertCaught at hstep
  generalize (Tree.insert search ndebug entry.1 entry.2).exec (twoLevel nulls root leaves) = result
    at hstep houtcome
  cases houtcome with
  | refused hrefuses what =>
    cases hstep
    rw [if_neg fun h => (accepts_iff hleads).mp h hrefuses]
  | blocked hblocked failed => cases hstep
  | settled hrefuses hblocked hsibling =>
    cases hstep
    rw [if_pos ((accepts_iff hleads).mpr hrefuses)]
    exact hsettled
  | tooBig hrefuses hblocked sibling hsibling hbig =>
    cases hstep
    rw [if_pos ((accepts_iff hleads).mpr hrefuses)]
    exact hsettled
  | overflow hrefuses hblocked sibling hsibling hbig hroom hnew failed => cases hstep
  | repeated hrefuses hblocked sibling hsibling hbig hroom hndebug hfound =>
    cases hstep
    rw [if_pos ((accepts_iff hleads).mpr hrefuses)]
    exact hsettled
  | absorbed hrefuses hblocked sibling hsibling hbig hspace position hpos hlinked =>
    cases hstep
    rw [if_pos ((accepts_iff hleads).mpr hrefuses)]
    exact hsettled

/-- An insert that returns has been accepted by a leaf. -/
theorem Linked.accepts_of_returned (h : Linked root leaves)
    (hreturned : ((Tree.insert search ndebug entry.1 entry.2).exec (twoLevel nulls root leaves)).1 = .ok ()) :
    accepts search (twoLevel nulls root leaves) entry = true := by
  obtain ⟨separator, index, leaf, hleads⟩ := h.exists_leadsTo search entry.1
  have houtcome := hleads.outcome h nulls ndebug entry.2
  generalize (Tree.insert search ndebug entry.1 entry.2).exec (twoLevel nulls root leaves) = result
    at hreturned houtcome
  rw [accepts_iff hleads]
  cases houtcome with
  | refused hrefuses what => cases hreturned
  | blocked hblocked failed => cases hreturned
  | settled hrefuses hblocked hsibling => exact hrefuses
  | tooBig hrefuses hblocked sibling hsibling hbig => cases hreturned
  | overflow hrefuses hblocked sibling hsibling hbig hroom hnew failed => cases hreturned
  | repeated hrefuses hblocked sibling hsibling hbig hroom hndebug hfound => cases hreturned
  | absorbed hrefuses hblocked sibling hsibling hbig hspace position hpos hlinked => exact hrefuses

end Track

/-- Leaves neither lose nor duplicate an entry. In every run of inserts whose exceptions are
caught, with the splits and the failures in it, the leaves together hold exactly the
entries that a leaf has accepted, each leaf sorted and with a right byte count; and every
insert that returns has had its entry accepted. -/
theorem contents_eq_accepted (search : ChildSearch) (ndebug : Bool) {entries accepted : List (Bytes × Bytes)}
    {tree : Tree}
    (hrun : run (insertTracked search ndebug) (construct, []) entries = some (tree, accepted)) :
    (contents tree).Perm accepted ∧ accepted.Sublist entries ∧ (∀ leaf ∈ tree.mLeafNodes, leaf.Counted) ∧
      ∀ entry, ((Tree.insert search ndebug entry.1 entry.2).exec tree).1 = .ok () →
        accepts search tree entry = true := by
  have hinvariant : ∃ nulls root leaves, tree = twoLevel nulls root leaves ∧ Linked root leaves ∧
      (contents tree).Perm accepted ∧ accepted.Sublist entries := by
    apply run.along (fun entries (state : Tree × List (Bytes × Bytes)) => ∃ nulls root leaves,
      state.1 = twoLevel nulls root leaves ∧ Linked root leaves ∧ (contents state.1).Perm state.2 ∧
        state.2.Sublist entries) ?_ ?_ hrun
    · exact ⟨0, _, _, rfl, Linked.construct, .refl _, .refl _⟩
    · rintro done entry ⟨tree, accepted⟩ state' _ ⟨nulls, root, leaves, htree, hlinked, hperm, hsublist⟩ hstep
      obtain rfl : tree = twoLevel nulls root leaves := htree
      obtain ⟨tree', hcaught, rfl⟩ := Option.map_eq_some_iff.mp hstep
      obtain ⟨nulls', root', leaves', rfl, hlinked'⟩ := hlinked.insertCaught hcaught
      have hcontents := hlinked.insertCaught_contents hcaught
      refine ⟨nulls', root', leaves', rfl, hlinked', hcontents.trans ?_, ?_⟩
      · dsimp only
        split
        · exact (hperm.cons entry).trans (List.perm_append_singleton entry accepted).symm
        · exact hperm
      · dsimp only
        split
        · exact hsublist.append (.refl _)
        · exact hsublist.trans (List.sublist_append_left _ _)
  obtain ⟨nulls, root, leaves, rfl, hlinked, hperm, hsublist⟩ := hinvariant
  exact ⟨hperm, hsublist, hlinked.counted, fun entry => hlinked.accepts_of_returned⟩

/-- A run with a split. -/
theorem contents_eq_accepted_frontEntries :
    ∃ tree accepted, run (insertTracked .leftmost false) (construct, []) frontEntries = some (tree, accepted) ∧
      (contents tree).Perm accepted ∧ accepted.Sublist frontEntries ∧
      (∀ leaf ∈ tree.mLeafNodes, leaf.Counted) ∧
      ∀ entry, ((Tree.insert .leftmost false entry.1 entry.2).exec tree).1 = .ok () →
        accepts .leftmost tree entry = true := by
  have hruns : (run (insertTracked .leftmost false) (construct, []) frontEntries).isSome = true := by
    decide +kernel
  obtain ⟨⟨tree, accepted⟩, hrun⟩ := Option.isSome_iff_exists.mp hruns
  exact ⟨tree, accepted, hrun, contents_eq_accepted .leftmost false hrun⟩

end tupl.pvt.slow.Tree
