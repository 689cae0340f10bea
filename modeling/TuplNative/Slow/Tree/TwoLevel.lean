import TuplNative.Slow.LeafNode.Split
import TuplNative.Slow.Tree

namespace tupl.pvt.slow.Tree

/-- A root with leaves below it, and the null pointers that the tree owns besides. The missing
allocation of internal nodes keeps every tree at this height. -/
def twoLevel (nulls : Nat) (root : InternalNode) (leaves : List LeafNode) : Tree :=
  ⟨0, leaves, some root :: List.replicate nulls none⟩

/-- All pointers of the root and of the leaves lead to leaves, and the sentinel
leads to the first one. No entry that the root has counted takes more than 1024 bytes. -/
structure Linked (root : InternalNode) (leaves : List LeafNode) : Prop where
  counted : ∀ leaf ∈ leaves, leaf.Counted
  children : ∀ e ∈ root.mChildren, ∃ index < leaves.length, e.2 = .leaf index
  siblings : ∀ leaf ∈ leaves, ∀ sibling, leaf.mSplit.sibling = some sibling →
    ∃ index < leaves.length, sibling = .leaf index
  sentinel : (.empty, .leaf 0) ∈ root.mChildren
  bytes : root.mBytes.toNat + 1024 ≤ 1024 * root.mChildren.length

/-- The search leads to an entry with the greatest separator that is at most the
key, and its pointer to a leaf. -/
structure LeadsTo (search : ChildSearch) (root : InternalNode) (leaves : List LeafNode)
    (key separator : Bytes) (index : Nat) (leaf : LeafNode) : Prop where
  entry : root.mChildren[search.find root key]? = some (separator, .leaf index)
  leaf_eq : leaves[index]? = some leaf
  isFloor : IsFloor (separators root) key separator

theorem Linked.construct : Linked (InternalNode.construct (.leaf 0)) [LeafNode.construct] := by
  refine ⟨?_, ?_, ?_, ?_, Nat.le_refl _⟩
  · intro leaf hmem
    rw [List.mem_singleton.mp hmem]
    exact LeafNode.Counted.construct
  · intro e hmem
    rw [List.mem_singleton.mp hmem]
    exact ⟨0, Nat.zero_lt_one, rfl⟩
  · intro leaf hmem sibling hsibling
    rw [List.mem_singleton.mp hmem] at hsibling
    cases hsibling
  · exact List.mem_singleton.mpr rfl

theorem Linked.exists_leadsTo {root : InternalNode} {leaves : List LeafNode} (h : Linked root leaves)
    (search : ChildSearch) (key : Bytes) :
    ∃ separator index leaf, LeadsTo search root leaves key separator index leaf := by
  obtain ⟨⟨separator, child⟩, hentry, hgreatest⟩ :=
    search.greatest root key ⟨_, h.sentinel, Bytes.empty_le key⟩
  obtain ⟨index, hindex, hchild⟩ := h.children _ (List.mem_of_getElem? hentry)
  obtain rfl : child = .leaf index := hchild
  exact ⟨separator, index, leaves[index], hentry, List.getElem?_eq_getElem hindex, hgreatest⟩

theorem length_mInternalNodes (nulls : Nat) (root : InternalNode) (leaves : List LeafNode) :
    (twoLevel nulls root leaves).mInternalNodes.length = nulls + 1 :=
  congrArg Nat.succ List.length_replicate

theorem LeadsTo.leafFor_eq {search : ChildSearch} {nulls : Nat} {root : InternalNode} {leaves : List LeafNode}
    {key separator : Bytes} {index : Nat} {leaf : LeafNode}
    (h : LeadsTo search root leaves key separator index leaf) :
    leafFor search (twoLevel nulls root leaves) key = some leaf := by
  have hroot : (twoLevel nulls root leaves).internalAt 0 = some root := rfl
  rw [leafFor, length_mInternalNodes]
  change descend search (twoLevel nulls root leaves) key (nulls + 2) (.internal 0) = some leaf
  unfold descend
  rw [hroot]
  dsimp only [Option.bind_eq_bind, Option.bind_some]
  rw [h.entry]
  exact h.leaf_eq

/-- The leaves after one of them has taken an entry, by a split if it was full. -/
def settled (leaves : List LeafNode) (index : Nat) (leaf : LeafNode) (key value : Bytes) :
    List LeafNode :=
  if leaf.FullFor key value then
    leaves.set index (leaf.afterSplit (.leaf leaves.length) key) ++
      [LeafNode.construct.grown (leaf.moved key value)]
  else leaves.set index (leaf.withEntryAdded key value)

/-- The split that the leaf then has on record. -/
def pending (leaves : List LeafNode) (leaf : LeafNode) (key value : Bytes) : Split :=
  if leaf.FullFor key value then leaf.splitRecord (.leaf leaves.length) key else leaf.mSplit

section TwoLevel

variable {root : InternalNode} {leaves : List LeafNode} {index : Nat} {leaf : LeafNode} {key value : Bytes}

theorem settled_getElem? (hleaf : leaves[index]? = some leaf) (key value : Bytes) :
    ∃ after, (settled leaves index leaf key value)[index]? = some after ∧
      after.mSplit = pending leaves leaf key value := by
  have hinside : index < leaves.length := (List.getElem?_eq_some_iff.mp hleaf).1
  unfold settled pending
  by_cases hfull : leaf.FullFor key value
  · rw [if_pos hfull, if_pos hfull]
    refine ⟨leaf.afterSplit (.leaf leaves.length) key, ?_, rfl⟩
    rw [List.getElem?_append_left (by rwa [List.length_set]), List.getElem?_set_self hinside]
  · rw [if_neg hfull, if_neg hfull]
    exact ⟨leaf.withEntryAdded key value, List.getElem?_set_self hinside, rfl⟩

/-- The other leaves stay as they are. -/
theorem settled_getElem?_of_ne (leaf : LeafNode) (key value : Bytes) {other : Nat}
    (hinside : other < leaves.length) (hne : index ≠ other) :
    (settled leaves index leaf key value)[other]? = leaves[other]? := by
  unfold settled
  split
  · rw [List.getElem?_append_left (by rwa [List.length_set]), List.getElem?_set_ne hne]
  · rw [List.getElem?_set_ne hne]

theorem mem_settled {other : LeafNode} (hmem : other ∈ settled leaves index leaf key value) :
    other ∈ leaves ∨
      (leaf.FullFor key value ∧ (other = leaf.afterSplit (.leaf leaves.length) key ∨
        other = LeafNode.construct.grown (leaf.moved key value))) ∨
      (¬ leaf.FullFor key value ∧ other = leaf.withEntryAdded key value) := by
  unfold settled at hmem
  by_cases hfull : leaf.FullFor key value
  · rw [if_pos hfull] at hmem
    cases List.mem_append.mp hmem with
    | inl hmem =>
      cases List.mem_or_eq_of_mem_set hmem with
      | inl hmem => exact Or.inl hmem
      | inr heq => exact Or.inr (Or.inl ⟨hfull, Or.inl heq⟩)
    | inr hmem => exact Or.inr (Or.inl ⟨hfull, Or.inr (List.mem_singleton.mp hmem)⟩)
  · rw [if_neg hfull] at hmem
    cases List.mem_or_eq_of_mem_set hmem with
    | inl hmem => exact Or.inl hmem
    | inr heq => exact Or.inr (Or.inr ⟨hfull, heq⟩)

theorem length_settled : (settled leaves index leaf key value).length =
    if leaf.FullFor key value then leaves.length + 1 else leaves.length := by
  unfold settled
  split
  · rw [List.length_append, List.length_set, List.length_singleton]
  · rw [List.length_set]

/-- The leaves after a split: the two halves, and the other leaves as they were. -/
theorem settled_getElem?_cases (hinside : index < leaves.length) (hfull : leaf.FullFor key value)
    {other : Nat} {found : LeafNode} (hget : (settled leaves index leaf key value)[other]? = some found) :
    (other = index ∧ found = leaf.afterSplit (.leaf leaves.length) key) ∨
      (other = leaves.length ∧ found = LeafNode.construct.grown (leaf.moved key value)) ∨
      (other ≠ index ∧ leaves[other]? = some found) := by
  have hrange := (List.getElem?_eq_some_iff.mp hget).1
  rw [length_settled, if_pos hfull] at hrange
  by_cases hold : other < leaves.length
  · by_cases hsame : index = other
    · subst hsame
      rw [settled, if_pos hfull, List.getElem?_append_left (by rwa [List.length_set]),
        List.getElem?_set_self hinside] at hget
      exact Or.inl ⟨rfl, (Option.some.inj hget).symm⟩
    · rw [settled_getElem?_of_ne _ _ _ hold hsame] at hget
      exact Or.inr (Or.inr ⟨Ne.symm hsame, hget⟩)
  · obtain rfl : other = leaves.length := by omega
    rw [settled, if_pos hfull, List.getElem?_append_right (by rw [List.length_set]), List.length_set,
      Nat.sub_self] at hget
    exact Or.inr (Or.inl ⟨rfl, (Option.some.inj hget).symm⟩)

/-- Settling an entry keeps all pointers on leaves. -/
theorem Linked.settled (h : Linked root leaves) (hleaf : leaves[index]? = some leaf)
    (hrefuses : ¬ leaf.Refuses key value) : Linked root (settled leaves index leaf key value) := by
  have hmem := List.mem_of_getElem? hleaf
  have hcounted := h.counted leaf hmem
  have hlength : leaves.length ≤ (Tree.settled leaves index leaf key value).length := by
    rw [length_settled]
    split <;> omega
  refine ⟨?_, ?_, ?_, h.sentinel, h.bytes⟩
  · intro other hother
    rcases mem_settled hother with hother | ⟨_, rfl | rfl⟩ | ⟨_, rfl⟩
    · exact h.counted other hother
    · exact hcounted.afterSplit _ _
    · exact hcounted.grown hrefuses
    · exact hcounted.withEntryAdded hrefuses
  · intro e he
    obtain ⟨child, hchild, heq⟩ := h.children e he
    exact ⟨child, hchild.trans_le hlength, heq⟩
  · intro other hother sibling hsibling
    rcases mem_settled hother with hother | ⟨hfull, rfl | rfl⟩ | ⟨_, rfl⟩
    · obtain ⟨child, hchild, heq⟩ := h.siblings other hother sibling hsibling
      exact ⟨child, hchild.trans_le hlength, heq⟩
    · refine ⟨leaves.length, ?_, (Option.some.inj hsibling).symm⟩
      rw [length_settled, if_pos hfull]
      exact Nat.lt_succ_self _
    · cases hsibling
    · obtain ⟨child, hchild, heq⟩ := h.siblings leaf hmem sibling hsibling
      exact ⟨child, hchild.trans_le hlength, heq⟩

/-- No entry of the root points to a leaf that is still to come. -/
theorem Linked.child_ne (h : Linked root leaves) {e : Buffer × NodePtr} (he : e ∈ root.mChildren) :
    e.2 ≠ .leaf leaves.length := by
  obtain ⟨child, hchild, heq⟩ := h.children e he
  intro hnew
  rw [hnew] at heq
  cases heq
  exact Nat.lt_irrefl _ hchild

/-- A root that lacks room for an entry that it would take has three entries at least. -/
theorem Linked.three_le_length (h : Linked root leaves) {separator : Bytes} {child : NodePtr}
    (hsmall : ¬ 1024 < separator.data.length + 8) (hroom : root.LacksRoom separator child) :
    3 ≤ root.mChildren.length := by
  by_contra hfew
  have hbytes := h.bytes
  have hused : root.bytes.toNat ≤ 1024 := by
    change root.mBytes.toNat ≤ 1024
    omega
  have hcapacity := capacity_toNat root
  have hle : root.bytes ≤ root.capacity := by
    rw [UInt64.le_iff_toNat_le]
    omega
  rw [Node.LacksRoom, UInt64.lt_iff_toNat_lt, UInt64.toNat_sub_of_le _ _ hle, internal_entrySize_toNat] at hroom
  omega

theorem Linked.withEntry (h : Linked root leaves) {position : Nat} {sibling : Nat}
    (hpos : position ≤ root.mChildren.length) (hsibling : sibling < leaves.length) {separator : Bytes}
    (hsmall : ¬ 1024 < separator.data.length + 8) :
    Linked (root.withEntry position separator (.leaf sibling)) leaves := by
  have hmem : ∀ e, e ∈ (root.withEntry position separator (.leaf sibling)).mChildren ↔
      e = (separator, .leaf sibling) ∨ e ∈ root.mChildren := fun e => List.mem_insertIdx hpos
  refine ⟨h.counted, ?_, h.siblings, (hmem _).mpr (Or.inr h.sentinel), ?_⟩
  · intro e he
    rcases (hmem e).mp he with rfl | he
    · exact ⟨sibling, hsibling, rfl⟩
    · exact h.children e he
  · have hbytes := h.bytes
    have hsize := internal_entrySize_toNat separator (.leaf sibling)
    have hadded := UInt64.toNat_add root.mBytes (entrySize (separator, NodePtr.leaf sibling))
    have hwrap := Nat.mod_le (root.mBytes.toNat + (entrySize (separator, NodePtr.leaf sibling)).toNat) (2 ^ 64)
    change (root.mBytes + entrySize (separator, NodePtr.leaf sibling)).toNat + 1024 ≤
      1024 * (root.mChildren.insertIdx position (separator, .leaf sibling)).length
    rw [List.length_insertIdx_of_le_length hpos]
    omega

end TwoLevel

end tupl.pvt.slow.Tree
