import TuplNative.Slow.Tree.Insert

namespace tupl.pvt.slow.Tree

/-- The entries are spread over the leaves as the separators say. -/
structure Placed (entries : List (Bytes × Bytes)) (root : InternalNode) (leaves : List LeafNode) :
    Prop where
  linked : Linked root leaves
  child_eq : ∀ e ∈ root.mChildren, ∀ e' ∈ root.mChildren, e.1 = e'.1 → e.2 = e'.2
  separator_eq : ∀ e ∈ root.mChildren, ∀ e' ∈ root.mChildren, e.2 = e'.2 → e.1 = e'.1
  covered : ∀ index < leaves.length, ∃ separator, (separator, .leaf index) ∈ root.mChildren
  floor : ∀ index leaf separator, leaves[index]? = some leaf →
    (separator, .leaf index) ∈ root.mChildren →
      ∀ e ∈ leaf.mChildren, IsFloor (separators root) e.1 separator
  contents : ∀ e, (∃ leaf ∈ leaves, e ∈ leaf.mChildren) ↔ e ∈ entries
  recorded : ∀ leaf ∈ leaves, ∀ sibling, leaf.mSplit.sibling = some sibling →
    (leaf.mSplit.key, sibling) ∈ root.mChildren

section Placed

variable {search : ChildSearch} {entries : List (Bytes × Bytes)} {root : InternalNode} {leaves : List LeafNode}
  {index : Nat} {leaf : LeafNode} {key value separator : Bytes}

theorem Placed.construct : Placed [] (InternalNode.construct (.leaf 0)) [LeafNode.construct] := by
  have hone : ∀ e ∈ (InternalNode.construct (.leaf 0)).mChildren, e = (.empty, .leaf 0) :=
    fun e he => List.mem_singleton.mp he
  have hleaf : ∀ leaf ∈ [LeafNode.construct], leaf = LeafNode.construct :=
    fun _ h => List.mem_singleton.mp h
  refine ⟨Linked.construct, ?_, ?_, ?_, ?_, ?_, ?_⟩
  · intro e he e' he' _
    rw [hone e he, hone e' he']
  · intro e he e' he' _
    rw [hone e he, hone e' he']
  · intro index hindex
    obtain rfl : index = 0 := Nat.lt_one_iff.mp hindex
    exact ⟨.empty, Linked.construct.sentinel⟩
  · intro index leaf separator hget _ e he
    rw [hleaf leaf (List.mem_of_getElem? hget)] at he
    cases he
  · intro e
    constructor
    · rintro ⟨leaf, hmem, he⟩
      rw [hleaf leaf hmem] at he
      cases he
    · intro he
      cases he
  · intro leaf hmem sibling hsibling
    rw [hleaf leaf hmem] at hsibling
    cases hsibling

/-- In a tree with placed entries the search for a key that a leaf holds reaches
that leaf. -/
theorem Placed.leafFor_eq (h : Placed entries root leaves) (search : ChildSearch)
    (hleaf : leaves[index]? = some leaf) {e : Bytes × Bytes} (he : e ∈ leaf.mChildren) :
    (twoLevel nulls root leaves).leafFor search e.1 = some leaf := by
  obtain ⟨separator, hentry⟩ := h.covered index (List.getElem?_eq_some_iff.mp hleaf).1
  obtain ⟨other, found, leaf', hleads⟩ := h.linked.exists_leadsTo search e.1
  have hseparator : other = separator :=
    hleads.isFloor.unique (h.floor index leaf separator hleaf hentry e he)
  have hchild := h.child_eq _ (List.mem_of_getElem? hleads.entry) _ hentry hseparator
  cases hchild
  rw [hleads.leafFor_eq, ← hleads.leaf_eq, hleaf]

/-- Each entry of the leaf is still there afterwards, and so is the new one. -/
theorem exists_mem_settled (hsorted : Sorted leaf.mChildren) (hinside : index < leaves.length)
    {e : Buffer × Buffer} (he : e = (key, value) ∨ e ∈ leaf.mChildren) :
    ∃ other ∈ settled leaves index leaf key value, e ∈ other.mChildren := by
  unfold settled
  by_cases hfull : leaf.FullFor key value
  · rw [if_pos hfull]
    have hgrown : e = (key, value) ∨ e ∈ leaf.half key →
        e ∈ (LeafNode.construct.grown (leaf.moved key value)).mChildren :=
      fun he => (LeafNode.mem_moved hsorted e).mpr he
    rw [LeafNode.mem_kept_or_half key] at he
    rcases he with he | he | he
    · exact ⟨_, List.mem_append_right _ List.mem_cons_self, hgrown (Or.inl he)⟩
    · exact ⟨_, List.mem_append_left _ (List.mem_set hinside _), he⟩
    · exact ⟨_, List.mem_append_right _ List.mem_cons_self, hgrown (Or.inr he)⟩
  · rw [if_neg hfull]
    exact ⟨_, List.mem_set hinside _, (LeafNode.mem_withEntryAdded hsorted e).mpr he⟩

/-- The leaves hold what they held and the new entry. -/
theorem exists_mem_settled_iff (hlinked : Linked root leaves) (hleaf : leaves[index]? = some leaf)
    (e : Buffer × Buffer) :
    (∃ other ∈ settled leaves index leaf key value, e ∈ other.mChildren) ↔
      e = (key, value) ∨ ∃ other ∈ leaves, e ∈ other.mChildren := by
  have hmem := List.mem_of_getElem? hleaf
  have hsorted := (hlinked.counted leaf hmem).sorted
  have hinside := (List.getElem?_eq_some_iff.mp hleaf).1
  constructor
  · rintro ⟨other, hother, he⟩
    rcases mem_settled hother with hother | ⟨_, rfl | rfl⟩ | ⟨_, rfl⟩
    · exact Or.inr ⟨other, hother, he⟩
    · exact Or.inr ⟨leaf, hmem, (LeafNode.mem_kept_or_half key e).mpr (Or.inl he)⟩
    · cases (LeafNode.mem_moved hsorted e).mp he with
      | inl heq => exact Or.inl heq
      | inr he => exact Or.inr ⟨leaf, hmem, (LeafNode.mem_kept_or_half key e).mpr (Or.inr he)⟩
    · cases (LeafNode.mem_withEntryAdded hsorted e).mp he with
      | inl heq => exact Or.inl heq
      | inr he => exact Or.inr ⟨leaf, hmem, he⟩
  · rintro (he | ⟨other, hother, he⟩)
    · exact exists_mem_settled hsorted hinside (Or.inl he)
    obtain ⟨place, hplace⟩ := List.mem_iff_getElem?.mp hother
    by_cases hsame : index = place
    · subst hsame
      rw [hleaf] at hplace
      obtain rfl := Option.some.inj hplace
      exact exists_mem_settled hsorted hinside (Or.inr he)
    · have hget := settled_getElem?_of_ne leaf key value (List.getElem?_eq_some_iff.mp hplace).1 hsame
      rw [hplace] at hget
      exact ⟨other, List.mem_of_getElem? hget, he⟩

theorem Placed.contents_settled (h : Placed entries root leaves) (hleaf : leaves[index]? = some leaf)
    (e : Buffer × Buffer) :
    (∃ other ∈ settled leaves index leaf key value, e ∈ other.mChildren) ↔
      e ∈ entries ++ [(key, value)] := by
  rw [exists_mem_settled_iff h.linked hleaf, h.contents, List.mem_append, List.mem_singleton]
  exact or_comm

/-- Entries of the root that were there before change nothing. -/
theorem Placed.of_mem_iff {root' : InternalNode} (h : Placed entries root leaves)
    (hlinked : Linked root' leaves)
    (hmem : ∀ e, e ∈ root'.mChildren ↔ e ∈ root.mChildren) : Placed entries root' leaves := by
  have hseparators : separators root' = separators root := by
    apply Set.ext
    intro k
    simp only [separators, Set.mem_ofPred_eq, List.mem_map, hmem]
  refine ⟨hlinked, ?_, ?_, ?_, ?_, h.contents, ?_⟩
  · intro e he e' he'
    exact h.child_eq e ((hmem e).mp he) e' ((hmem e').mp he')
  · intro e he e' he'
    exact h.separator_eq e ((hmem e).mp he) e' ((hmem e').mp he')
  · intro index hindex
    obtain ⟨separator, hentry⟩ := h.covered index hindex
    exact ⟨separator, (hmem _).mpr hentry⟩
  · intro index leaf separator hleaf hentry e he
    rw [hseparators]
    exact h.floor index leaf separator hleaf ((hmem _).mp hentry) e he
  · intro leaf hleaf sibling hsibling
    exact (hmem _).mpr (h.recorded leaf hleaf sibling hsibling)

/-- The leaf that the key leads to takes the entry. -/
theorem Placed.settled_of_room (h : Placed entries root leaves)
    (hleads : LeadsTo search root leaves key separator index leaf) (hrefuses : ¬ leaf.Refuses key value)
    (hfull : ¬ leaf.FullFor key value) :
    Placed (entries ++ [(key, value)]) root (settled leaves index leaf key value) := by
  have hmem := List.mem_of_getElem? hleads.leaf_eq
  have hinside := (List.getElem?_eq_some_iff.mp hleads.leaf_eq).1
  have hsettled : settled leaves index leaf key value =
      leaves.set index (leaf.withEntryAdded key value) := by
    rw [settled, if_neg hfull]
  have hsorted := (h.linked.counted leaf hmem).sorted
  refine ⟨h.linked.settled hleads.leaf_eq hrefuses, h.child_eq, h.separator_eq, ?_, ?_, ?_, ?_⟩
  · intro other hother
    rw [hsettled, List.length_set] at hother
    exact h.covered other hother
  · intro other otherLeaf otherSeparator hget hentry e he
    rw [hsettled, List.getElem?_set] at hget
    by_cases hsame : index = other
    · subst hsame
      rw [if_pos rfl, if_pos hinside] at hget
      obtain rfl := Option.some.inj hget
      rcases (LeafNode.mem_withEntryAdded hsorted e).mp he with rfl | he
      · obtain rfl : separator = otherSeparator :=
          h.separator_eq _ (List.mem_of_getElem? hleads.entry) _ hentry rfl
        exact hleads.isFloor
      · exact h.floor index leaf otherSeparator hleads.leaf_eq hentry e he
    · rw [if_neg hsame] at hget
      exact h.floor other otherLeaf otherSeparator hget hentry e he
  · exact h.contents_settled hleads.leaf_eq
  · intro other hother sibling hsibling
    rcases mem_settled hother with hother | ⟨hyes, _⟩ | ⟨_, rfl⟩
    · exact h.recorded other hother sibling hsibling
    · exact absurd hyes hfull
    · exact h.recorded leaf hmem sibling hsibling

/-- An entry that the root takes adds its key to the separators. -/
theorem separators_of_mem_iff {root' : InternalNode} {child : NodePtr}
    (hmem : ∀ e, e ∈ root'.mChildren ↔ e = (separator, child) ∨ e ∈ root.mChildren) :
    separators root' = Insert.insert separator (separators root) := by
  apply Set.ext
  intro k
  simp only [separators, Set.mem_ofPred_eq, Set.mem_insert_iff, List.mem_map, hmem]
  constructor
  · rintro ⟨e, rfl | he, rfl⟩
    · exact Or.inl rfl
    · exact Or.inr ⟨e, he, rfl⟩
  · rintro (rfl | ⟨e, he, rfl⟩)
    · exact ⟨_, Or.inl rfl, rfl⟩
    · exact ⟨e, Or.inr he, rfl⟩

/-- The key at the cut of a leaf that the search reaches separates nothing yet. -/
theorem Placed.splitKey_notMem (h : Placed entries root leaves)
    (hleads : LeadsTo search root leaves key separator index leaf) (hfull : leaf.FullFor key value) :
    IsFloor (separators root) leaf.splitKey separator ∧ leaf.splitKey ∉ separators root := by
  have hcounted := h.linked.counted leaf (List.mem_of_getElem? hleads.leaf_eq)
  have hentry := List.mem_of_getElem? hleads.entry
  obtain ⟨⟨middle, hmiddle, hkey⟩, first, hfirst, hlt⟩ :=
    LeafNode.splitKey_mem hcounted.sorted (hcounted.three_le_length hfull)
  have hfloor := h.floor index leaf separator hleads.leaf_eq hentry
  have hsplit : IsFloor (separators root) leaf.splitKey separator := hkey ▸ hfloor middle hmiddle
  refine ⟨hsplit, ?_⟩
  intro hmem
  obtain rfl : separator = leaf.splitKey := hsplit.unique (IsFloor.refl hmem)
  exact absurd ((hfloor first hfirst).le) (not_le.mpr hlt)

/-- Below the cut the keys keep their floor. -/
theorem Placed.floor_kept (h : Placed entries root leaves)
    (hleads : LeadsTo search root leaves key separator index leaf) (hfull : leaf.FullFor key value)
    (habove : leaf.splitKey < key) {e : Buffer × Buffer} (he : e ∈ leaf.kept key) :
    IsFloor (Insert.insert leaf.splitKey (separators root)) e.1 separator := by
  have hcounted := h.linked.counted leaf (List.mem_of_getElem? hleads.leaf_eq)
  have hbelow := (LeafNode.split_above hcounted.sorted (hcounted.three_le_length hfull) habove).1 e he
  have hfloor := h.floor index leaf separator hleads.leaf_eq (List.mem_of_getElem? hleads.entry) e
    ((LeafNode.kept_sublist leaf key).subset he)
  exact hfloor.insert_of_lt hbelow

/-- From the cut on the split key becomes the floor. -/
theorem Placed.floor_moved (h : Placed entries root leaves)
    (hleads : LeadsTo search root leaves key separator index leaf) (hfull : leaf.FullFor key value)
    (habove : leaf.splitKey < key) {e : Buffer × Buffer} (he : e ∈ leaf.moved key value) :
    IsFloor (Insert.insert leaf.splitKey (separators root)) e.1 leaf.splitKey := by
  have hcounted := h.linked.counted leaf (List.mem_of_getElem? hleads.leaf_eq)
  obtain ⟨hsplit, _⟩ := h.splitKey_notMem hleads hfull
  cases (LeafNode.mem_moved hcounted.sorted e).mp he with
  | inl heq =>
    subst heq
    exact hsplit.insert_self hleads.isFloor habove.le
  | inr he =>
    have hfrom := (LeafNode.split_above hcounted.sorted (hcounted.three_le_length hfull) habove).2 e he
    have hfloor := h.floor index leaf separator hleads.leaf_eq (List.mem_of_getElem? hleads.entry) e
      ((LeafNode.half_sublist leaf key).subset he)
    exact hsplit.insert_self hfloor hfrom

/-- The keys of other leaves have another floor than the split key and keep it. -/
theorem Placed.floor_other (h : Placed entries root leaves)
    (hleads : LeadsTo search root leaves key separator index leaf) (hfull : leaf.FullFor key value)
    {other : Nat} {otherLeaf : LeafNode} {otherSeparator : Bytes} (hne : other ≠ index)
    (hother : leaves[other]? = some otherLeaf) (hentry : (otherSeparator, .leaf other) ∈ root.mChildren)
    {e : Buffer × Buffer} (he : e ∈ otherLeaf.mChildren) :
    IsFloor (Insert.insert leaf.splitKey (separators root)) e.1 otherSeparator := by
  obtain ⟨hsplit, _⟩ := h.splitKey_notMem hleads hfull
  apply hsplit.insert_of_ne (h.floor other otherLeaf otherSeparator hother hentry e he)
  intro heq
  have hchild := h.child_eq _ hentry _ (List.mem_of_getElem? hleads.entry) heq
  exact hne (NodePtr.leaf.inj hchild)

/-- A split for a key above the cut spreads the entries of the leaf over the leaf
and its sibling, and the root tells them apart. -/
theorem Placed.absorbed (h : Placed entries root leaves)
    (hleads : LeadsTo search root leaves key separator index leaf) (hfull : leaf.FullFor key value)
    (habove : leaf.splitKey < key) {root' : InternalNode}
    (hlinked : Linked root' (settled leaves index leaf key value))
    (hmem : ∀ e, e ∈ root'.mChildren ↔ e = (leaf.splitKey, .leaf leaves.length) ∨ e ∈ root.mChildren) :
    Placed (entries ++ [(key, value)]) root' (settled leaves index leaf key value) := by
  have hinside := (List.getElem?_eq_some_iff.mp hleads.leaf_eq).1
  obtain ⟨_, hfresh⟩ := h.splitKey_notMem hleads hfull
  have hnokey : ∀ e ∈ root.mChildren, e.1 ≠ leaf.splitKey := by
    intro e he heq
    exact hfresh (heq ▸ List.mem_map_of_mem he)
  have hold : ∀ {other : Nat} {otherSeparator : Bytes}, other < leaves.length →
      (otherSeparator, .leaf other) ∈ root'.mChildren → (otherSeparator, .leaf other) ∈ root.mChildren := by
    intro other otherSeparator hother hentry
    refine ((hmem _).mp hentry).resolve_left ?_
    intro heq
    cases heq
    exact Nat.lt_irrefl _ hother
  refine ⟨hlinked, ?_, ?_, ?_, ?_, h.contents_settled hleads.leaf_eq, ?_⟩
  · exact determines_of_mem_iff h.child_eq hmem hnokey
  · exact determines_of_mem_iff h.separator_eq hmem fun e he => h.linked.child_ne he
  · intro other hother
    rw [length_settled, if_pos hfull] at hother
    cases Nat.lt_succ_iff_lt_or_eq.mp hother with
    | inl hother =>
      obtain ⟨otherSeparator, hentry⟩ := h.covered other hother
      exact ⟨otherSeparator, (hmem _).mpr (Or.inr hentry)⟩
    | inr heq => exact ⟨leaf.splitKey, (hmem _).mpr (Or.inl (by rw [heq]))⟩
  · intro other otherLeaf otherSeparator hget hentry e he
    rw [separators_of_mem_iff hmem]
    rcases settled_getElem?_cases hinside hfull hget with ⟨rfl, rfl⟩ | ⟨rfl, rfl⟩ | ⟨hne, hother⟩
    · obtain rfl : separator = otherSeparator :=
        h.separator_eq _ (List.mem_of_getElem? hleads.entry) _ (hold hinside hentry) rfl
      exact h.floor_kept hleads hfull habove he
    · have hnew := ((hmem _).mp hentry).resolve_right fun hentry => h.linked.child_ne hentry rfl
      obtain rfl : otherSeparator = leaf.splitKey := congrArg Prod.fst hnew
      exact h.floor_moved hleads hfull habove he
    · have hrange := (List.getElem?_eq_some_iff.mp hother).1
      exact h.floor_other hleads hfull hne hother (hold hrange hentry) he
  · intro other hother sibling hsibling
    rcases mem_settled hother with hother | ⟨_, rfl | rfl⟩ | ⟨hnot, _⟩
    · exact (hmem _).mpr (Or.inr (h.recorded other hother sibling hsibling))
    · cases hsibling
      exact (hmem _).mpr (Or.inl rfl)
    · cases hsibling
    · exact absurd hfull hnot

end Placed

end tupl.pvt.slow.Tree
