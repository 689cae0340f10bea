import TuplNative.Slow.LeafNode.Split

namespace tupl.pvt.slow.LeafNode

variable {original siblingNode : LeafNode} {nodes : LeafNode × LeafNode} {sibling : NodePtr}
  {key value : Bytes} {ndebug : Bool}

/-- The split key on record is above the keys of the lower node and not above those of
the upper node. -/
def SplitKeySeparates (nodes : LeafNode × LeafNode) : Prop :=
  (∀ e ∈ (lowerNode nodes).mChildren, e.1 < nodes.1.mSplit.key) ∧
    ∀ e ∈ (upperNode nodes).mChildren, nodes.1.mSplit.key ≤ e.1

/-- The split key separates the two halves exactly when the new key does not fall
directly below the entry at the cut. There it goes to the upper half, which the split
key is taken from without regard to it. -/
theorem splitKeySeparates_iff (hsorted : Sorted original.mChildren) (hempty : siblingNode.mChildren = [])
    (hexec : (LeafNode.splitAndInsert ndebug sibling key value).exec (original, siblingNode) =
      (.ok (), nodes)) :
    SplitKeySeparates nodes ↔ original.smallerKeys key ≠ (original.keys.length + 1) / 2 := by
  obtain ⟨_, hneeded, habsent, hnodes⟩ := Ops.splitAndInsert_returned hexec
  obtain ⟨low, middle, up, hcut⟩ := Node.exists_cut (Node.three_le_length_of_needed hneeded)
  have hsplitKey : nodes.1.mSplit.key = middle.1 := by
    rw [hnodes]
    exact hcut.splitKey
  obtain ⟨hlow, hup⟩ := hcut.separates hsorted
  have hlength : (original.keys.length + 1) / 2 = original.splitBegin := by
    rw [keys, List.length_map]
    rfl
  rw [SplitKeySeparates, hsplitKey, hlength, ← original.insertIt_eq hsorted]
  rcases hcut.halves_cases hsorted hempty hnodes with
    ⟨hplace, hlower, hupper⟩ | ⟨hplace, hlower, hupper⟩ | ⟨hplace, hlower, hupper⟩
  · refine iff_of_true ⟨?_, ?_⟩ hplace.ne
    · rw [hlower, forall_mem_sortedInsert]
      exact ⟨hcut.lt_of_insertIt_lt hsorted hplace, hlow⟩
    · rw [hupper]
      exact hup
  · refine iff_of_false ?_ (not_not.mpr hplace)
    rintro ⟨_, habove⟩
    have hle : middle.1 ≤ key := by
      rw [hupper] at habove
      exact habove (key, value) List.mem_cons_self
    have hge : key ≤ middle.1 := by
      rw [← not_lt, ← hcut.lt_insertIt_iff hsorted, hplace]
      exact lt_irrefl _
    have hmem : key ∈ original.keys := by
      rw [keys, hcut.children, le_antisymm hge hle]
      exact List.mem_map_of_mem (List.mem_append_right _ List.mem_cons_self)
    exact habsent ((Node.keyEqualsAt_insertIt_iff hsorted).mpr hmem)
  · refine iff_of_true ⟨?_, ?_⟩ hplace.ne'
    · rw [hlower]
      exact hlow
    · rw [hupper, List.forall_mem_cons, forall_mem_sortedInsert]
      obtain ⟨hmiddle, hrest⟩ := List.forall_mem_cons.mp hup
      exact ⟨hmiddle, ((hcut.lt_insertIt_iff hsorted).mp hplace).le, hrest⟩

instance (nodes : LeafNode × LeafNode) : Decidable (SplitKeySeparates nodes) :=
  inferInstanceAs (Decidable (_ ∧ _))

/-- Four entries that fill a leaf, with a key left free in the middle. -/
def gapLeaf : LeafNode :=
  ⟨4096, ⟨none, .left, .empty⟩, [1, 2, 4, 5].map fun b =>
    (Bytes.repeated 1 b, Bytes.repeated 1023 0)⟩

/-- The split of the full leaf for one more key, into a fresh sibling. -/
def splitGapLeaf (key : byte) : Except Failure Unit × LeafNode × LeafNode :=
  (LeafNode.splitAndInsert false (.leaf 1) (.repeated 1 key) .empty).exec
    (gapLeaf, LeafNode.construct)

theorem gapLeaf_sorted : Sorted gapLeaf.mChildren := by
  unfold Sorted
  decide +kernel

theorem splitKeySeparates_aboveGap : SplitKeySeparates (splitGapLeaf 6).2 := by
  have hreturned : splitGapLeaf 6 = (.ok (), (splitGapLeaf 6).2) := rfl
  exact (splitKeySeparates_iff gapLeaf_sorted rfl hreturned).mpr (by decide +kernel)

theorem not_splitKeySeparates_inGap :
    Sorted gapLeaf.mChildren ∧ gapLeaf.hasSibling = false ∧ Bytes.fill 1 3 (by decide) ∉ gapLeaf.keys ∧
      (splitGapLeaf 3).1 = .ok () ∧ ¬ SplitKeySeparates (splitGapLeaf 3).2 :=
  ⟨gapLeaf_sorted, rfl, by decide +kernel, rfl, by decide +kernel⟩

/-- A split that returned has recorded the sibling and is a sorted insertion cut in
two. The original keeps at least half of its entries, the sibling takes at least as
many and the new one, and both byte counts are exact. -/
theorem splitAndInsert_cuts_sortedInsert (hsorted : Sorted original.mChildren)
    (hstored : storedBytes original.mChildren < 2 ^ 63) (hempty : siblingNode.mChildren = [])
    (hexec : (LeafNode.splitAndInsert ndebug sibling key value).exec (original, siblingNode) =
      (.ok (), nodes)) :
    nodes.1.mSplit.sibling = some sibling ∧
      (lowerNode nodes).mChildren ++ (upperNode nodes).mChildren =
        sortedInsert key value original.mChildren ∧
      original.mChildren.length / 2 ≤ nodes.1.mChildren.length ∧
      original.mChildren.length / 2 + 1 ≤ nodes.2.mChildren.length ∧
      nodes.1.bytes.toNat = storedBytes nodes.1.mChildren ∧
      nodes.2.bytes.toNat = storedBytes nodes.2.mChildren := by
  obtain ⟨hsmall, hneeded, _, hnodes⟩ := Ops.splitAndInsert_returned hexec
  obtain ⟨low, middle, up, hcut⟩ := Node.exists_cut (Node.three_le_length_of_needed hneeded)
  have hcontents := hcut.map_halves hsorted hempty hnodes id rfl
  simp only [List.map_id] at hcontents
  have hentry : (entrySize (key, value)).toNat ≤ 1024 := by
    rw [original.tooBig_iff] at hsmall
    exact Nat.le_of_not_lt hsmall
  have htotal : storedBytes nodes.1.mChildren + storedBytes nodes.2.mChildren < 2 ^ 64 := by
    rw [storedBytes_sides, hcontents, storedBytes_perm (sortedInsert_perm _ _ _), storedBytes_cons]
    omega
  have hkept := original.length_kept key
  have hmoved := original.length_moved key value
  subst hnodes
  refine ⟨rfl, hcontents, hkept, ?_, ?_, ?_⟩
  · change _ ≤ (siblingNode.mChildren ++ original.moved key value).length
    rw [hempty]
    exact hmoved
  · exact (recalculateBytesUsed_toNat _).trans
      (Nat.mod_eq_of_lt ((Nat.le_add_right _ _).trans_lt htotal))
  · exact (recalculateBytesUsed_toNat _).trans
      (Nat.mod_eq_of_lt ((Nat.le_add_left _ _).trans_lt htotal))

theorem splitAndInsert_cuts_sortedInsert_inGap :
    (lowerNode (splitGapLeaf 3).2).mChildren ++ (upperNode (splitGapLeaf 3).2).mChildren =
      sortedInsert (Bytes.fill 1 3 (by decide)) .empty gapLeaf.mChildren := by
  have hreturned : splitGapLeaf 3 = (.ok (), (splitGapLeaf 3).2) := rfl
  exact (splitAndInsert_cuts_sortedInsert gapLeaf_sorted (by decide +kernel) rfl hreturned).2.1

end tupl.pvt.slow.LeafNode
