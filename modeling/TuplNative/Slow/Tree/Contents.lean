import TuplNative.Slow.Tree.Placement

namespace tupl.pvt.slow.Tree

/-- A pointer that a walk from the root over the entries of internal nodes meets. -/
inductive Reachable (tree : Tree) : NodePtr → Prop where
  | root : Reachable tree (.internal tree.mRoot)
  | child {index : Nat} {node : InternalNode} {e : Buffer × NodePtr}
      (hparent : Reachable tree (.internal index)) (hnode : tree.internalAt index = some node)
      (he : e ∈ node.mChildren) : Reachable tree e.2

/-- The tree stores the entries: the search for each key reaches a leaf that holds
the key once and with its value, and the leaves below the root hold no other
keys. -/
structure Stores (search : ChildSearch) (entries : List (Bytes × Bytes)) (tree : Tree) : Prop where
  found : ∀ entry ∈ entries, ∃ leaf, tree.leafFor search entry.1 = some leaf ∧
    leaf.mChildren.filter (fun e => decide (e.1 = entry.1)) = [entry]
  only : ∀ index leaf, tree.Reachable (.leaf index) → tree.mLeafNodes[index]? = some leaf →
    ∀ e ∈ leaf.mChildren, e.1 ∈ entries.map Prod.fst

/-- An insert that has to return. -/
def insertReturned (search : ChildSearch) (ndebug : Bool) (tree : Tree) (entry : Bytes × Bytes) :
    Option Tree :=
  match (Tree.insert search ndebug entry.1 entry.2).exec tree with
  | (.ok (), tree) => some tree
  | (.error _, _) => none

/-- If the leaf that the entry goes to is full, then the key is above the key at
its cut. -/
def AboveCut (search : ChildSearch) (tree : Tree) (entry : Bytes × Bytes) : Prop :=
  ∀ leaf, tree.leafFor search entry.1 = some leaf → leaf.FullFor entry.1 entry.2 →
    leaf.splitKey < entry.1

section Placed

variable {search : ChildSearch} {entries : List (Bytes × Bytes)} {nulls : Nat} {root : InternalNode}
  {leaves : List LeafNode} {index : Nat} {leaf : LeafNode} {key value separator : Bytes}

theorem Placed.stores (h : Placed entries root leaves) (search : ChildSearch) :
    Stores search entries (twoLevel nulls root leaves) := by
  refine ⟨?_, ?_⟩
  · intro entry hentry
    obtain ⟨leaf, hmem, he⟩ := (h.contents entry).mpr hentry
    obtain ⟨index, hleaf⟩ := List.mem_iff_getElem?.mp hmem
    exact ⟨leaf, h.leafFor_eq search hleaf he, (h.linked.counted leaf hmem).sorted.filter_key_eq he⟩
  · intro index leaf _ hleaf e he
    exact List.mem_map_of_mem ((h.contents e).mp ⟨leaf, List.mem_of_getElem? hleaf, he⟩)

/-- What an insert that returned has done. -/
theorem LeadsTo.outcome_of_returned {ndebug : Bool} {entry : Bytes × Bytes} {tree : Tree}
    (hleads : LeadsTo search root leaves entry.1 separator index leaf) (hlinked : Linked root leaves)
    (hstep : insertReturned search ndebug (twoLevel nulls root leaves) entry = some tree) :
    Outcome ndebug nulls root leaves index leaf entry.1 entry.2 (.ok (), tree) := by
  have houtcome := hleads.outcome hlinked nulls ndebug entry.2
  unfold Tree.insertReturned at hstep
  generalize (Tree.insert search ndebug entry.1 entry.2).exec (twoLevel nulls root leaves) = result
    at hstep houtcome
  obtain ⟨outcome, ended⟩ := result
  cases outcome with
  | ok _ =>
    cases hstep
    exact houtcome
  | error _ => cases hstep

/-- A returned insert keeps all entries placed if its key is above the cut of the
leaf that it splits. -/
theorem Placed.step {ndebug : Bool} {entry : Bytes × Bytes} {tree : Tree}
    (h : Placed entries root leaves) (habove : AboveCut search (twoLevel nulls root leaves) entry)
    (hstep : insertReturned search ndebug (twoLevel nulls root leaves) entry = some tree) :
    ∃ root' leaves', tree = twoLevel nulls root' leaves' ∧ Placed (entries ++ [entry]) root' leaves' := by
  obtain ⟨separator, index, leaf, hleads⟩ := h.linked.exists_leadsTo search entry.1
  cases hleads.outcome_of_returned h.linked hstep with
  | settled hrefuses hblocked hsibling =>
    refine ⟨_, _, rfl, h.settled_of_room hleads hrefuses ?_⟩
    intro hfull
    rw [pending, if_pos hfull] at hsibling
    cases hsibling
  | absorbed hrefuses hblocked sibling hsibling hbig hspace position hpos hlinked =>
    refine ⟨_, _, rfl, ?_⟩
    by_cases hfull : leaf.FullFor entry.1 entry.2
    · have hkey : (pending leaves leaf entry.1 entry.2).key = leaf.splitKey := by
        rw [pending, if_pos hfull]
        rfl
      rw [hkey] at hlinked ⊢
      rw [pending, if_pos hfull] at hsibling
      cases hsibling
      exact h.absorbed hleads hfull (habove leaf hleads.leafFor_eq hfull) hlinked
        fun e => List.mem_insertIdx hpos
    · have hpending : pending leaves leaf entry.1 entry.2 = leaf.mSplit := by
        rw [pending, if_neg hfull]
      rw [hpending] at hsibling hlinked ⊢
      apply (h.settled_of_room hleads hrefuses hfull).of_mem_iff hlinked
      intro e
      refine (List.mem_insertIdx hpos).trans ⟨?_, Or.inr⟩
      rintro (rfl | he)
      · exact h.recorded leaf (List.mem_of_getElem? hleads.leaf_eq) _ hsibling
      · exact he

/-- When a leaf is split for a key below its cut, the search for that key still
leads to the leaf, which has not got it. -/
theorem Placed.not_stores_of_below (h : Placed entries root leaves)
    (hleads : LeadsTo search root leaves key separator index leaf) (hfull : leaf.FullFor key value)
    (hbelow : key ≤ leaf.splitKey) {root' : InternalNode} {child : NodePtr}
    (hlinked : Linked root' (settled leaves index leaf key value))
    (hmem : ∀ e, e ∈ root'.mChildren ↔ e = (leaf.splitKey, child) ∨ e ∈ root.mChildren) :
    ¬ Stores search (entries ++ [(key, value)]) (twoLevel nulls root' (settled leaves index leaf key value)) := by
  have hcounted := h.linked.counted leaf (List.mem_of_getElem? hleads.leaf_eq)
  have hinside := (List.getElem?_eq_some_iff.mp hleads.leaf_eq).1
  have habsent : key ∉ leaf.keys := fun hin => hfull.1 (Or.inl hin)
  obtain ⟨⟨middle, hmiddle, hkey⟩, _⟩ :=
    LeafNode.splitKey_mem hcounted.sorted (hcounted.three_le_length hfull)
  have hlt : key < leaf.splitKey := by
    refine lt_of_le_of_ne hbelow ?_
    rintro rfl
    exact habsent (List.mem_map.mpr ⟨middle, hmiddle, hkey⟩)
  obtain ⟨_, hfresh⟩ := h.splitKey_notMem hleads hfull
  have hfloor : IsFloor (separators root') key separator := by
    rw [separators_of_mem_iff hmem]
    exact hleads.isFloor.insert_of_lt hlt
  intro hstores
  obtain ⟨found, hfound, hholds⟩ :=
    hstores.found (key, value) (List.mem_append_right _ (List.mem_singleton.mpr rfl))
  obtain ⟨other, place, leaf', hleads'⟩ := hlinked.exists_leadsTo search key
  obtain rfl : other = separator := hleads'.isFloor.unique hfloor
  have hentry : (other, .leaf place) ∈ root.mChildren := by
    cases (hmem _).mp (List.mem_of_getElem? hleads'.entry) with
    | inl heq =>
      cases heq
      exact absurd hleads.isFloor.mem hfresh
    | inr hentry => exact hentry
  have hchild := h.child_eq _ hentry _ (List.mem_of_getElem? hleads.entry) rfl
  obtain rfl : place = index := NodePtr.leaf.inj hchild
  have hsame : leaf' = leaf.afterSplit (.leaf leaves.length) key := by
    rcases settled_getElem?_cases hinside hfull hleads'.leaf_eq with ⟨_, heq⟩ | ⟨heq, _⟩ | ⟨hne, _⟩
    · exact heq
    · exact absurd hinside (heq ▸ Nat.lt_irrefl _)
    · exact absurd rfl hne
  rw [hleads'.leafFor_eq] at hfound
  obtain rfl := Option.some.inj hfound
  have hheld : (key, value) ∈ leaf'.mChildren := by
    have hin : (key, value) ∈ leaf'.mChildren.filter fun e => decide (e.1 = key) := by
      rw [hholds]
      exact List.mem_singleton.mpr rfl
    exact (List.mem_filter.mp hin).1
  rw [hsame] at hheld
  have hkept : (key, value) ∈ leaf.kept key := hheld
  exact habsent (List.mem_map.mpr ⟨_, (LeafNode.kept_sublist leaf key).subset hkept, rfl⟩)

/-- A returned insert that splits a leaf below its cut loses its own key: the key
moves to the sibling, and the search goes on to the original. -/
theorem Placed.not_stores {ndebug : Bool} {entry : Bytes × Bytes} {tree : Tree}
    (h : Placed entries root leaves) (hbelow : ¬ AboveCut search (twoLevel nulls root leaves) entry)
    (hstep : insertReturned search ndebug (twoLevel nulls root leaves) entry = some tree) :
    ¬ Stores search (entries ++ [entry]) tree := by
  unfold AboveCut at hbelow
  push Not at hbelow
  obtain ⟨leaf, hfound, hfull, hle⟩ := hbelow
  obtain ⟨separator, index, other, hleads⟩ := h.linked.exists_leadsTo search entry.1
  rw [hleads.leafFor_eq] at hfound
  obtain rfl := Option.some.inj hfound
  cases hleads.outcome_of_returned h.linked hstep with
  | settled hrefuses hblocked hsibling =>
    rw [pending, if_pos hfull] at hsibling
    cases hsibling
  | absorbed hrefuses hblocked sibling hsibling hbig hspace position hpos hlinked =>
    have hkey : (pending leaves other entry.1 entry.2).key = other.splitKey := by
      rw [pending, if_pos hfull]
      rfl
    rw [hkey] at hlinked ⊢
    exact h.not_stores_of_below hleads hfull hle hlinked fun e => List.mem_insertIdx hpos

end Placed

/-- No key is lost or misplaced in a run of inserts that return exactly as long as
each entry that finds its leaf full has a key above the one at the cut. Any other
split moves the new key to the sibling, while the root sends the searches for keys
below the cut to the original. -/
theorem stores_iff_aboveCut (search : ChildSearch) (ndebug : Bool) (entries : List (Bytes × Bytes)) :
    run.Always (insertReturned search ndebug) construct (Stores search) entries ↔
      run.EachStep (insertReturned search ndebug) construct (AboveCut search) entries := by
  apply run.always_iff_eachStep (fun _ => True)
    (fun done tree => ∃ root leaves, tree = twoLevel 0 root leaves ∧ Placed done root leaves)
  · exact ⟨_, _, rfl, Placed.construct⟩
  · exact fun _ _ _ _ => trivial
  · rintro done tree ⟨root, leaves, rfl, h⟩
    exact h.stores search
  · rintro done entry tree tree' _ ⟨root, leaves, rfl, h⟩ habove hstep
    exact h.step habove hstep
  · rintro done entry tree tree' _ ⟨root, leaves, rfl, h⟩ hbelow hstep
    exact h.not_stores hbelow hstep
  · trivial

/-- The fifth entry splits the leaf in front of all others. -/
def frontEntries : List (Bytes × Bytes) := [thousand 2, thousand 3, thousand 4, thousand 5, thousand 1]

theorem not_stores_frontEntries :
    (frontEntries.map Prod.fst).Nodup ∧
      ¬ run.Always (insertReturned .leftmost false) construct (Stores .leftmost) frontEntries := by
  refine ⟨by decide, ?_⟩
  intro halways
  have hcomputed : (run (insertReturned .leftmost false) construct frontEntries).any (fun tree =>
      decide ((tree.leafFor .leftmost (thousand 1).1).map LeafNode.keys =
        some [(thousand 4).1, (thousand 5).1])) = true := by
    decide +kernel
  obtain ⟨tree, hrun, hkeys⟩ := (Option.any_eq_true _ _).mp hcomputed
  obtain ⟨leaf, hleaf, hheld⟩ := Option.map_eq_some_iff.mp (of_decide_eq_true hkeys)
  obtain ⟨found, hfound, hholds⟩ :=
    (halways _ List.prefix_rfl tree hrun).found (thousand 1) (by simp [frontEntries])
  rw [hleaf] at hfound
  obtain rfl := Option.some.inj hfound
  have hin : thousand 1 ∈ leaf.mChildren.filter fun e => decide (e.1 = (thousand 1).1) := by
    rw [hholds]
    exact List.mem_singleton.mpr rfl
  have hkey : (thousand 1).1 ∈ leaf.keys := List.mem_map_of_mem (List.mem_filter.mp hin).1
  rw [hheld] at hkey
  exact absurd hkey (by decide)

end tupl.pvt.slow.Tree
