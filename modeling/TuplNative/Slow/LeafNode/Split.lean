import Mathlib.Algebra.Order.BigOperators.Group.List
import Mathlib.Algebra.Order.Ring.Nat
import TuplNative.Slow.LeafNode.Insert
import TuplNative.Slow.Node.Halves

namespace tupl.pvt.slow.LeafNode

variable {leaf : LeafNode} {key value : Bytes}

/-- The half of the entries on the key's side of the cut. -/
def half (leaf : LeafNode) (key : Bytes) : List (Buffer × Buffer) :=
  if leaf.SplitsLeft key then leaf.mChildren.take leaf.splitBegin
  else leaf.mChildren.drop leaf.splitBegin

theorem kept_eq (leaf : LeafNode) (key : Bytes) :
    leaf.kept key = if leaf.SplitsLeft key then leaf.mChildren.drop leaf.splitBegin
      else leaf.mChildren.take leaf.splitBegin := rfl

theorem half_sublist (leaf : LeafNode) (key : Bytes) : (leaf.half key).Sublist leaf.mChildren := by
  unfold half
  split
  · exact List.take_sublist _ _
  · exact List.drop_sublist _ _

theorem kept_sublist (leaf : LeafNode) (key : Bytes) : (leaf.kept key).Sublist leaf.mChildren := by
  rw [kept_eq]
  split
  · exact List.drop_sublist _ _
  · exact List.take_sublist _ _

/-- What moves out is a sorted insertion into the half on the key's side. -/
theorem moved_eq (hsorted : Sorted leaf.mChildren) :
    leaf.moved key value = sortedInsert key value (leaf.half key) := by
  obtain ⟨lower, upper, hsplit, hpos, hlower, hupper, _⟩ := lowerBound_keyLesser key hsorted
  have hinsertIt : lower.length = leaf.insertIt key := hpos
  have hgivenUp : leaf.givenUp = lower ++ upper := hsplit
  unfold Node.moved half
  rw [hgivenUp, hsplit]
  by_cases hleft : leaf.SplitsLeft key
  · have hbefore : lower.length < leaf.splitBegin := by rwa [hinsertIt]
    rw [if_pos hleft, if_pos hleft, ← hinsertIt, List.take_append,
      List.take_of_length_le (Nat.le_of_lt hbefore), insertIdx_append]
    exact (sortedInsert_append hlower fun e he => hupper e (List.mem_of_mem_take he)).symm
  · have hbehind : leaf.splitBegin ≤ lower.length := by
      rw [hinsertIt]
      exact Nat.le_of_not_lt hleft
    have hlength : (lower.drop leaf.splitBegin).length = leaf.insertIt key - leaf.splitBegin := by
      rw [List.length_drop, hinsertIt]
    rw [if_neg hleft, if_neg hleft, List.drop_append, Nat.sub_eq_zero_of_le hbehind, List.drop_zero,
      ← hlength, insertIdx_append]
    exact (sortedInsert_append (fun e he => hlower e (List.mem_of_mem_drop he)) hupper).symm

/-- A key lies above the split key exactly when it belongs behind the entry at
the cut. -/
theorem splitKey_lt_iff (hsorted : Sorted leaf.mChildren) (hsize : 3 ≤ leaf.mChildren.length) :
    leaf.splitKey < key ↔ leaf.splitBegin < leaf.insertIt key := by
  obtain ⟨low, middle, up, hcut⟩ := Node.exists_cut hsize
  rw [hcut.lt_insertIt_iff hsorted, hcut.splitKey]

/-- A split loses no entry. -/
theorem mem_kept_or_half (key : Bytes) (e : Buffer × Buffer) :
    e ∈ leaf.mChildren ↔ e ∈ leaf.kept key ∨ e ∈ leaf.half key := by
  have hwhole := List.take_append_drop leaf.splitBegin leaf.mChildren
  rw [kept_eq, half]
  by_cases hleft : leaf.SplitsLeft key
  · rw [if_pos hleft, if_pos hleft]
    nth_rewrite 1 [← hwhole]
    rw [List.mem_append]
    exact or_comm
  · rw [if_neg hleft, if_neg hleft]
    nth_rewrite 1 [← hwhole]
    exact List.mem_append

/-- The split key is the key of an entry, and not the smallest one. -/
theorem splitKey_mem (hsorted : Sorted leaf.mChildren) (hsize : 3 ≤ leaf.mChildren.length) :
    (∃ e ∈ leaf.mChildren, e.1 = leaf.splitKey) ∧ ∃ e ∈ leaf.mChildren, e.1 < leaf.splitKey := by
  obtain ⟨low, middle, up, hcut⟩ := Node.exists_cut hsize
  rw [hcut.splitKey, hcut.children]
  refine ⟨⟨middle, List.mem_append_right _ List.mem_cons_self, rfl⟩, ?_⟩
  have hlength := hcut.length
  cases low with
  | nil =>
    unfold Node.splitBegin at hlength
    rw [List.length_nil] at hlength
    omega
  | cons first low =>
    exact ⟨first, List.mem_append_left _ List.mem_cons_self,
      (hcut.separates hsorted).1 first List.mem_cons_self⟩

/-- A split for a key above the split key keeps what is below the split key and
moves the rest. -/
theorem split_above (hsorted : Sorted leaf.mChildren) (hsize : 3 ≤ leaf.mChildren.length)
    (habove : leaf.splitKey < key) :
    (∀ e ∈ leaf.kept key, e.1 < leaf.splitKey) ∧ ∀ e ∈ leaf.half key, leaf.splitKey ≤ e.1 := by
  obtain ⟨low, middle, up, hcut⟩ := Node.exists_cut hsize
  have hright : ¬ leaf.SplitsLeft key := by
    have hbehind := (splitKey_lt_iff hsorted hsize).mp habove
    exact Nat.not_lt.mpr hbehind.le
  obtain ⟨hlow, hup⟩ := hcut.separates hsorted
  rw [kept_eq, half, if_neg hright, if_neg hright, hcut.splitKey, hcut.children, ← hcut.length,
    List.take_left, List.drop_left]
  exact ⟨hlow, hup⟩

theorem mem_moved (hsorted : Sorted leaf.mChildren) (e : Buffer × Buffer) :
    e ∈ leaf.moved key value ↔ e = (key, value) ∨ e ∈ leaf.half key := by
  rw [moved_eq hsorted]
  exact mem_sortedInsert

theorem mem_withEntryAdded (hsorted : Sorted leaf.mChildren) (e : Buffer × Buffer) :
    e ∈ (leaf.withEntryAdded key value).mChildren ↔ e = (key, value) ∨ e ∈ leaf.mChildren := by
  rw [withEntryAdded_mChildren hsorted]
  exact mem_sortedInsert

/-- What every leaf keeps, over its capacity or not: sorted keys, no entry over
the quarter, and a byte count that is right modulo the range of `size_t`. -/
structure Counted (leaf : LeafNode) : Prop where
  sorted : Sorted leaf.mChildren
  each : ∀ e ∈ leaf.mChildren, (entrySize e).toNat ≤ 1024
  counted : leaf.bytes.toNat = storedBytes leaf.mChildren % 2 ^ 64

theorem Counted.construct : LeafNode.construct.Counted :=
  ⟨.nil, fun _ he => (List.not_mem_nil he).elim, rfl⟩

/-- A recount leaves any sorted leaf with a right byte count. -/
theorem Counted.recalculated (hsorted : Sorted leaf.mChildren)
    (heach : ∀ e ∈ leaf.mChildren, (entrySize e).toNat ≤ 1024) :
    Counted (Ops.recalculateBytesUsed leaf) :=
  ⟨hsorted, heach, recalculateBytesUsed_toNat leaf⟩

theorem entrySize_le_of_not_refuses (hrefuses : ¬ leaf.Refuses key value) :
    (entrySize ((key, value) : Buffer × Buffer)).toNat ≤ 1024 :=
  Nat.le_of_not_lt fun hlt => hrefuses (Or.inr ((Node.tooBig_iff leaf key value).mpr hlt))

/-- A sorted insertion of an accepted entry into any run of the leaf's entries. -/
theorem Counted.sortedInsert_each (h : leaf.Counted) (hrefuses : ¬ leaf.Refuses key value)
    {entries : List (Buffer × Buffer)} (hsub : entries.Sublist leaf.mChildren) :
    Sorted (sortedInsert key value entries) ∧
      ∀ e ∈ sortedInsert key value entries, (entrySize e).toNat ≤ 1024 := by
  refine ⟨(h.sorted.of_sublist hsub).sortedInsert ?_, ?_⟩
  · intro hmem
    exact hrefuses (Or.inl ((hsub.map Prod.fst).subset hmem))
  · rw [forall_mem_sortedInsert]
    exact ⟨entrySize_le_of_not_refuses hrefuses, fun e he => h.each e (hsub.subset he)⟩

theorem Counted.withEntryAdded (h : leaf.Counted) (hrefuses : ¬ leaf.Refuses key value) :
    (leaf.withEntryAdded key value).Counted := by
  obtain ⟨hsorted, heach⟩ := h.sortedInsert_each hrefuses (List.Sublist.refl _)
  rw [← withEntryAdded_mChildren h.sorted] at hsorted heach
  refine ⟨hsorted, heach, ?_⟩
  have hbytes : leaf.mBytes.toNat = storedBytes leaf.mChildren % 2 ^ 64 := h.counted
  rw [withEntryAdded_mChildren h.sorted, storedBytes_perm (sortedInsert_perm _ _ _), storedBytes_cons]
  change (leaf.mBytes + entrySize (key, value)).toNat = _
  rw [UInt64.toNat_add, hbytes]
  omega

theorem Counted.afterSplit (h : leaf.Counted) (sibling : NodePtr) (key : Bytes) :
    Counted (leaf.afterSplit sibling key) :=
  Counted.recalculated (h.sorted.of_sublist (kept_sublist leaf key))
    fun e he => h.each e ((kept_sublist leaf key).subset he)

theorem Counted.grown (h : leaf.Counted) (hrefuses : ¬ leaf.Refuses key value) :
    Counted (LeafNode.construct.grown (leaf.moved key value)) := by
  obtain ⟨hsorted, heach⟩ := h.sortedInsert_each hrefuses (half_sublist leaf key)
  rw [← moved_eq h.sorted] at hsorted heach
  exact Counted.recalculated hsorted heach

theorem storedBytes_le {children : List (Buffer × Buffer)}
    (heach : ∀ e ∈ children, (entrySize e).toNat ≤ 1024) :
    storedBytes children ≤ children.length * 1024 := by
  have h := List.sum_le_card_nsmul (children.map fun e => (entrySize e).toNat) 1024 (by
    intro size hsize
    obtain ⟨e, he, rfl⟩ := List.mem_map.mp hsize
    exact heach e he)
  simpa [storedBytes] using h

/-- A leaf that lacks room for an accepted entry has at least four entries, because
none takes more than a quarter of the capacity. -/
theorem Counted.four_le_length (h : leaf.Counted) (hfull : leaf.FullFor key value) :
    4 ≤ leaf.mChildren.length := by
  by_contra hsmall
  have hstored := storedBytes_le h.each
  have hentry := entrySize_le_of_not_refuses hfull.1
  have hbytes : leaf.bytes.toNat ≤ 3072 := by
    rw [h.counted]
    omega
  have hle : leaf.bytes ≤ leaf.capacity := by
    rw [UInt64.le_iff_toNat_le, capacity_toNat]
    omega
  have hroom := UInt64.lt_iff_toNat_lt.mp hfull.2
  rw [UInt64.toNat_sub_of_le _ _ hle, capacity_toNat] at hroom
  omega

/-- The request for a split of a full leaf is not turned down. -/
theorem Counted.three_le_length (h : leaf.Counted) (hfull : leaf.FullFor key value) :
    3 ≤ leaf.mChildren.length :=
  Nat.le_of_succ_le (h.four_le_length hfull)

/-- The split of a full leaf into an empty sibling fails only by the assertion
that there is no earlier split. -/
theorem Counted.splitAndInsert_exec (h : leaf.Counted) (hfull : leaf.FullFor key value)
    (ndebug : Bool) (sibling : NodePtr) :
    ∃ failed, (LeafNode.splitAndInsert ndebug sibling key value).exec (leaf, LeafNode.construct) =
      if ndebug = false ∧ leaf.hasSibling = true then (.error .assertion, failed)
      else (.ok (), (leaf.afterSplit sibling key, LeafNode.construct.grown (leaf.moved key value))) := by
  have hneeded : ¬ leaf.SplitNotRequired key value := by
    rintro (hroom | hsmall)
    · exact absurd (UInt64.lt_trans hroom hfull.2) (UInt64.lt_irrefl _)
    · exact absurd (h.three_le_length hfull) (by omega)
  have hexec := Ops.splitAndInsert_exec ndebug sibling leaf LeafNode.construct key value
  rw [if_neg fun hbig => hfull.1 (Or.inr hbig), if_neg hneeded,
    if_neg fun hmem => hfull.1 (Or.inl ((Node.keyEqualsAt_insertIt_iff h.sorted).mp hmem))] at hexec
  exact ⟨_, hexec⟩

end tupl.pvt.slow.LeafNode
