import TuplNative.Run
import TuplNative.Slow.LeafNode.Split

namespace tupl.pvt.slow.LeafNode

/-- An insert on one leaf of a set of leaves. -/
structure Insertion where
  index : Nat
  key : Bytes
  value : Bytes

/-- The insert followed, when the leaf has no space, by a split into a fresh
sibling. The caller goes on after an exception, but not after a failed assertion
or with a leaf that is not there. -/
def insertOrSplit (ndebug : Bool) (leaves : List LeafNode) (call : LeafNode.Insertion) :
    Option (List LeafNode) :=
  match leaves[call.index]? with
  | none => none
  | some leaf =>
    match (LeafNode.insert call.key call.value).exec leaf with
    | (.ok .failedNoSpace, leaf) =>
      match (LeafNode.splitAndInsert ndebug (.leaf leaves.length) call.key call.value).exec
          (leaf, LeafNode.construct) with
      | (.ok (), original, sibling) => some (leaves.set call.index original ++ [sibling])
      | (.error failure, original, sibling) =>
        if failure.isException then some (leaves.set call.index original ++ [sibling]) else none
    | (.ok .inserted, leaf) => some (leaves.set call.index leaf)
    | (.error _, leaf) => some (leaves.set call.index leaf)

/-- The byte count is within the capacity, so the free space is computed without
wrapping around. -/
def WithinCapacity (leaf : LeafNode) : Prop :=
  leaf.bytes ≤ leaf.capacity ∧
    (leaf.capacity - leaf.bytes).toNat = leaf.capacity.toNat - leaf.bytes.toNat

/-- If the call finds its leaf full, then the half of the leaf's entries on the
key's side of the middle has room for the new entry within the capacity. -/
def HalfFits (leaves : List LeafNode) (call : LeafNode.Insertion) : Prop :=
  ∀ leaf, leaves[call.index]? = some leaf → leaf.FullFor call.key call.value →
    storedBytes (leaf.half call.key) + (call.key.data.length + call.value.data.length) ≤ leaf.capacity.toNat

theorem insertOrSplit_eq (ndebug : Bool) {leaves : List LeafNode} {call : LeafNode.Insertion}
    {leaf : LeafNode} (hleaf : leaves[call.index]? = some leaf) (h : leaf.Counted) :
    insertOrSplit ndebug leaves call =
      if leaf.Refuses call.key call.value then some leaves
      else if leaf.FullFor call.key call.value then
        if ndebug = false ∧ leaf.hasSibling = true then none
        else some (leaves.set call.index (leaf.afterSplit (.leaf leaves.length) call.key) ++
          [LeafNode.construct.grown (leaf.moved call.key call.value)])
      else some (leaves.set call.index (leaf.withEntryAdded call.key call.value)) := by
  have hsame : leaves.set call.index leaf = leaves := by
    obtain ⟨hinside, rfl⟩ := List.getElem?_eq_some_iff.mp hleaf
    exact List.set_getElem_self hinside
  unfold insertOrSplit
  rw [hleaf]
  dsimp only
  by_cases hrefuses : leaf.Refuses call.key call.value
  · obtain ⟨what, hthrow⟩ := insert_of_refuses h.sorted hrefuses
    rw [hthrow, if_pos hrefuses]
    exact congrArg some hsame
  rw [if_neg hrefuses]
  by_cases hfull : leaf.FullFor call.key call.value
  · obtain ⟨failed, hsplit⟩ := h.splitAndInsert_exec hfull ndebug (.leaf leaves.length)
    rw [insert_of_fullFor h.sorted hfull, if_pos hfull]
    dsimp only
    rw [hsplit]
    by_cases hassert : ndebug = false ∧ leaf.hasSibling = true
    · rw [if_pos hassert, if_pos hassert]
      rfl
    · rw [if_neg hassert, if_neg hassert]
  · rw [insert_of_room h.sorted hrefuses hfull, if_neg hfull]

/-- A step that has a successor works on a leaf that is there. -/
theorem exists_leaf_of_insertOrSplit {ndebug : Bool} {leaves leaves' : List LeafNode}
    {call : LeafNode.Insertion}
    (hstep : insertOrSplit ndebug leaves call = some leaves') :
    ∃ leaf, leaves[call.index]? = some leaf := by
  cases hleaf : leaves[call.index]? with
  | none =>
    rw [insertOrSplit, hleaf] at hstep
    cases hstep
  | some leaf => exact ⟨leaf, rfl⟩

/-- A leaf that counted its bytes and is within the budget has counted them exactly. -/
theorem Counted.bytes_eq {leaf : LeafNode} (h : leaf.Counted)
    (hwithin : storedBytes leaf.mChildren ≤ 4096) :
    leaf.bytes.toNat = storedBytes leaf.mChildren := by
  rw [h.counted]
  omega

theorem Counted.withinCapacity {leaf : LeafNode} (h : leaf.Counted)
    (hwithin : storedBytes leaf.mChildren ≤ 4096) : leaf.WithinCapacity := by
  have hle : leaf.bytes ≤ leaf.capacity := by
    rw [UInt64.le_iff_toNat_le, h.bytes_eq hwithin, capacity_toNat]
    exact hwithin
  exact ⟨hle, UInt64.toNat_sub_of_le _ _ hle⟩

theorem storedBytes_sublist {part whole : List (Buffer × Buffer)} (hsub : part.Sublist whole) :
    storedBytes part ≤ storedBytes whole :=
  (hsub.map _).sum_le_sum fun _ _ => Nat.zero_le _

/-- An entry for which there was room stays within the budget. -/
theorem Counted.storedBytes_withEntryAdded {leaf : LeafNode} {key value : Bytes} (h : leaf.Counted)
    (hwithin : storedBytes leaf.mChildren ≤ 4096) (hrefuses : ¬ leaf.Refuses key value)
    (hfull : ¬ leaf.FullFor key value) :
    storedBytes (leaf.withEntryAdded key value).mChildren ≤ 4096 := by
  have hroom : ¬ leaf.LacksRoom key value := fun hlacks => hfull ⟨hrefuses, hlacks⟩
  rw [Node.LacksRoom, UInt64.lt_iff_toNat_lt, (h.withinCapacity hwithin).2, h.bytes_eq hwithin,
    capacity_toNat] at hroom
  rw [withEntryAdded_mChildren h.sorted, storedBytes_perm (sortedInsert_perm _ _ _), storedBytes_cons]
  omega

theorem Counted.storedBytes_moved {leaf : LeafNode} (h : leaf.Counted) (key value : Bytes) :
    storedBytes (leaf.moved key value) =
      storedBytes (leaf.half key) + (key.data.length + value.data.length) := by
  rw [moved_eq h.sorted, storedBytes_perm (sortedInsert_perm _ _ _), storedBytes_cons,
    leaf_entrySize_toNat, Nat.add_comm]

/-- A half without room for the new entry is over the budget once it has moved. -/
theorem Counted.grown_exceeds {leaf : LeafNode} {key value : Bytes} (h : leaf.Counted)
    (hwithin : storedBytes leaf.mChildren ≤ 4096) (hfull : leaf.FullFor key value)
    (hfits : ¬ storedBytes (leaf.half key) + (key.data.length + value.data.length) ≤ leaf.capacity.toNat) :
    ¬ WithinCapacity (LeafNode.construct.grown (leaf.moved key value)) := by
  intro hsibling
  have hentry := entrySize_le_of_not_refuses hfull.1
  have hhalf := storedBytes_sublist (half_sublist leaf key)
  have hle := UInt64.le_iff_toNat_le.mp hsibling.1
  rw [Node.grown, recalculateBytesUsed_toNat, capacity_toNat] at hle
  change storedBytes (leaf.moved key value) % 2 ^ 64 ≤ 4096 at hle
  rw [h.storedBytes_moved] at hle
  rw [leaf_entrySize_toNat] at hentry
  rw [capacity_toNat] at hfits
  omega

/-- What leaves keep as long as every split finds room: exact counts within the budget. -/
def WithinBudget (leaves : List LeafNode) : Prop :=
  ∀ leaf ∈ leaves, leaf.Counted ∧ storedBytes leaf.mChildren ≤ 4096

theorem WithinBudget.insertOrSplit {ndebug : Bool} {leaves leaves' : List LeafNode}
    {call : LeafNode.Insertion} (h : WithinBudget leaves) (hfits : HalfFits leaves call)
    (hstep : insertOrSplit ndebug leaves call = some leaves') : WithinBudget leaves' := by
  obtain ⟨leaf, hleaf⟩ := exists_leaf_of_insertOrSplit hstep
  obtain ⟨hcounted, hwithin⟩ := h leaf (List.mem_of_getElem? hleaf)
  rw [insertOrSplit_eq ndebug hleaf hcounted] at hstep
  by_cases hrefuses : leaf.Refuses call.key call.value
  · rw [if_pos hrefuses] at hstep
    cases hstep
    exact h
  rw [if_neg hrefuses] at hstep
  by_cases hfull : leaf.FullFor call.key call.value
  · rw [if_pos hfull] at hstep
    by_cases hassert : ndebug = false ∧ leaf.hasSibling = true
    · rw [if_pos hassert] at hstep
      cases hstep
    rw [if_neg hassert] at hstep
    cases hstep
    intro other hother
    cases List.mem_append.mp hother with
    | inl hother =>
      rcases List.mem_or_eq_of_mem_set hother with hother | rfl
      · exact h other hother
      · have hkept := storedBytes_sublist (kept_sublist leaf call.key)
        exact ⟨hcounted.afterSplit _ _, hkept.trans hwithin⟩
    | inr hother =>
      obtain rfl := List.mem_singleton.mp hother
      have hroom := hfits leaf hleaf hfull
      rw [capacity_toNat] at hroom
      exact ⟨hcounted.grown hrefuses, (hcounted.storedBytes_moved _ _).trans_le hroom⟩
  · rw [if_neg hfull] at hstep
    cases hstep
    intro other hother
    rcases List.mem_or_eq_of_mem_set hother with hother | rfl
    · exact h other hother
    · exact ⟨hcounted.withEntryAdded hrefuses,
        hcounted.storedBytes_withEntryAdded hwithin hrefuses hfull⟩

/-- A split that does not find room takes its sibling over the capacity. -/
theorem WithinBudget.exceeds {ndebug : Bool} {leaves leaves' : List LeafNode} {call : LeafNode.Insertion}
    (h : WithinBudget leaves) (hfits : ¬ HalfFits leaves call)
    (hstep : LeafNode.insertOrSplit ndebug leaves call = some leaves') :
    ¬ ∀ leaf ∈ leaves', leaf.WithinCapacity := by
  unfold HalfFits at hfits
  push Not at hfits
  obtain ⟨leaf, hleaf, hfull, hover⟩ := hfits
  obtain ⟨hcounted, hwithin⟩ := h leaf (List.mem_of_getElem? hleaf)
  rw [insertOrSplit_eq ndebug hleaf hcounted, if_neg hfull.1, if_pos hfull] at hstep
  by_cases hassert : ndebug = false ∧ leaf.hasSibling = true
  · rw [if_pos hassert] at hstep
    cases hstep
  rw [if_neg hassert] at hstep
  cases hstep
  intro halways
  exact hcounted.grown_exceeds hwithin hfull (Nat.not_le.mpr hover)
    (halways _ (List.mem_append_right _ (List.mem_singleton.mpr rfl)))

/-- Leaves stay within their capacity in every state that a sequence of inserts
and splits reaches exactly when every split finds room for the new entry in the
half that moves: the cut is made by the number of entries, and nothing compares
the bytes of a half with the capacity. -/
theorem withinCapacity_iff_halfFits (ndebug : Bool) (count : Nat) (calls : List LeafNode.Insertion) :
    run.Always (insertOrSplit ndebug) (List.replicate count LeafNode.construct)
        (fun _ leaves => ∀ leaf ∈ leaves, leaf.WithinCapacity) calls ↔
      run.EachStep (insertOrSplit ndebug) (List.replicate count LeafNode.construct) HalfFits calls := by
  apply run.always_iff_eachStep (fun _ => True) (fun _ leaves => WithinBudget leaves)
  · intro leaf hmem
    rw [List.eq_of_mem_replicate hmem]
    exact ⟨Counted.construct, Nat.zero_le _⟩
  · exact fun _ _ _ _ => trivial
  · exact fun _ leaves h leaf hmem => (h leaf hmem).1.withinCapacity (h leaf hmem).2
  · exact fun _ _ _ _ _ h hfits hstep => h.insertOrSplit hfits hstep
  · exact fun _ _ _ _ _ h hfits hstep => h.exceeds hfits hstep
  · trivial

/-- A call on the first leaf with a key of one byte and a value of equal bytes. -/
def callWith (key : byte) (valueSize : UInt16) : LeafNode.Insertion :=
  ⟨0, Bytes.repeated 1 key, Bytes.repeated valueSize 0⟩

/-- Four big entries with four small ones above them fill a leaf. The new entry
goes below them all. -/
def unevenCalls : List LeafNode.Insertion :=
  [callWith 1 1019, callWith 2 1019, callWith 3 1019, callWith 4 1019, callWith 5 3, callWith 6 3,
    callWith 7 3, callWith 8 3, callWith 0 1023]

theorem not_withinCapacity_unevenCalls :
    ¬ run.Always (insertOrSplit false) (List.replicate 1 LeafNode.construct)
      (fun _ leaves => ∀ leaf ∈ leaves, leaf.WithinCapacity) unevenCalls := by
  intro halways
  have hover : ∃ leaves,
      run (insertOrSplit false) (List.replicate 1 LeafNode.construct) unevenCalls = some leaves ∧
        ∃ leaf ∈ leaves, leaf.bytes = 5104 := by
    have hcomputed : (run (insertOrSplit false) (List.replicate 1 LeafNode.construct) unevenCalls).any
        (fun leaves => leaves.any fun leaf => leaf.bytes == 5104) = true := by
      decide +kernel
    simpa [Option.any_eq_true] using hcomputed
  obtain ⟨leaves, hrun, leaf, hmem, hbytes⟩ := hover
  have hwithin := UInt64.le_iff_toNat_le.mp (halways _ List.prefix_rfl leaves hrun leaf hmem).1
  rw [hbytes, capacity_toNat] at hwithin
  exact absurd hwithin (by decide)

end tupl.pvt.slow.LeafNode
