import TuplNative.Slow.LeafNode.Capacity
import TuplNative.Slow.LeafNode.Completion

namespace tupl.pvt.slow.LeafNode

/-- A leaf over its capacity, with less than what a `size_t` counts to. -/
structure Overfull (leaf : LeafNode) : Prop where
  counted : leaf.Counted
  exceeds : 4096 < storedBytes leaf.mChildren
  countable : storedBytes leaf.mChildren ≤ 2 ^ 63

/-- The bytes that a sequence of calls offers a leaf. -/
def offeredBytes (index : Nat) (calls : List LeafCall) : Nat :=
  (calls.map fun call =>
    match call with
    | .insert other key value => if other = index then key.data.length + value.data.length else 0
    | .splitAndInsert _ _ _ => 0).sum

section Overfull

variable {leaf : LeafNode} {key value : Bytes}

/-- The free space of such a leaf wraps around. -/
theorem Overfull.free_toNat (h : leaf.Overfull) : 2 ^ 63 ≤ (leaf.capacity - leaf.bytes).toNat := by
  have hbytes := h.counted.counted
  have hover := h.exceeds
  have hcountable := h.countable
  rw [UInt64.toNat_sub, capacity_toNat, hbytes]
  omega

/-- So it has room for everything that is not too big. -/
theorem Overfull.not_lacksRoom (h : leaf.Overfull) (hrefuses : ¬ leaf.Refuses key value) :
    ¬ leaf.LacksRoom key value := by
  have hentry := entrySize_le_of_not_refuses hrefuses
  have hfree := h.free_toNat
  rw [Node.LacksRoom, UInt64.lt_iff_toNat_lt]
  omega

theorem Overfull.insert_exec (h : leaf.Overfull) (key value : Bytes) :
    (∃ what, leaf.Refuses key value ∧
      (LeafNode.insert key value).exec leaf = (.error (.invalidArgument what), leaf)) ∨
    (¬ leaf.Refuses key value ∧
      (LeafNode.insert key value).exec leaf = (.ok .inserted, leaf.withEntryAdded key value)) := by
  by_cases hrefuses : leaf.Refuses key value
  · obtain ⟨what, hthrow⟩ := insert_of_refuses h.counted.sorted hrefuses
    exact Or.inl ⟨what, hrefuses, hthrow⟩
  · exact Or.inr ⟨hrefuses, insert_of_room h.counted.sorted hrefuses
      fun hfull => h.not_lacksRoom hrefuses hfull.2⟩

/-- And a split of it is turned down. -/
theorem Overfull.splitAndInsert_exec (h : leaf.Overfull) (ndebug : Bool) (sibling : NodePtr)
    (siblingNode : LeafNode) (key value : Bytes) :
    ∃ failure, failure.isException = true ∧
      (LeafNode.splitAndInsert ndebug sibling key value).exec (leaf, siblingNode) =
        (.error failure, (leaf, siblingNode)) := by
  unfold LeafNode.splitAndInsert
  rw [Ops.splitAndInsert_exec]
  by_cases hbig : leaf.TooBig key value
  · exact ⟨_, rfl, if_pos hbig⟩
  · have hentry := Nat.le_of_not_lt fun hlt => hbig ((Node.tooBig_iff leaf key value).mpr hlt)
    have hfree := h.free_toNat
    have hneeded : leaf.SplitNotRequired key value := by
      refine Or.inl ?_
      rw [UInt64.lt_iff_toNat_lt]
      omega
    rw [if_neg hbig, if_pos hneeded]
    exact ⟨_, rfl, rfl⟩

/-- What a call on the leaves does to an overfull one: nothing, or it adds an entry. -/
theorem Overfull.callLeaf {ndebug : Bool} {leaves leaves' : List LeafNode} {index : Nat} {call : LeafCall}
    (h : leaf.Overfull) (hleaf : leaves[index]? = some leaf)
    (hstep : LeafNode.callLeaf ndebug leaves call = some leaves') :
    (leaves'[index]? = some leaf ∧
      ∀ key value, call = .insert index key value → leaf.Refuses key value) ∨
    ∃ key value, call = .insert index key value ∧ ¬ leaf.Refuses key value ∧
      leaves'[index]? = some (leaf.withEntryAdded key value) := by
  have hinside := (List.getElem?_eq_some_iff.mp hleaf).1
  cases call with
  | insert other key value =>
    obtain ⟨otherLeaf, hother, hgoOn⟩ := Option.bind_eq_some_iff.mp hstep
    have hleaves' : leaves' = leaves.set other ((LeafNode.insert key value).exec otherLeaf).2 :=
      (eq_of_goOn hgoOn).1
    subst hleaves'
    by_cases hsame : other = index
    · subst hsame
      rw [hleaf] at hother
      obtain rfl := Option.some.inj hother
      rcases h.insert_exec key value with ⟨what, hrefuses, hexec⟩ | ⟨hrefuses, hexec⟩
      · rw [hexec]
        refine Or.inl ⟨List.getElem?_set_self hinside, ?_⟩
        rintro _ _ ⟨⟩
        exact hrefuses
      · rw [hexec]
        exact Or.inr ⟨key, value, rfl, hrefuses, List.getElem?_set_self hinside⟩
    · refine Or.inl ⟨by rw [List.getElem?_set_ne hsame, hleaf], ?_⟩
      rintro _ _ ⟨⟩
      exact absurd rfl hsame
  | splitAndInsert other key value =>
    obtain ⟨otherLeaf, hother, hgoOn⟩ := Option.bind_eq_some_iff.mp hstep
    have hleaves' : leaves' = leaves.set other ((LeafNode.splitAndInsert ndebug (.leaf leaves.length) key
        value).exec (otherLeaf, LeafNode.construct)).2.1 ++ [((LeafNode.splitAndInsert ndebug
        (.leaf leaves.length) key value).exec (otherLeaf, LeafNode.construct)).2.2] := (eq_of_goOn hgoOn).1
    subst hleaves'
    refine Or.inl ⟨?_, fun _ _ hcall => nomatch hcall⟩
    rw [List.getElem?_append_left (by rwa [List.length_set])]
    by_cases hsame : other = index
    · subst hsame
      rw [hleaf] at hother
      obtain rfl := Option.some.inj hother
      obtain ⟨failure, _, hexec⟩ :=
        h.splitAndInsert_exec ndebug (.leaf leaves.length) LeafNode.construct key value
      rw [hexec]
      exact List.getElem?_set_self hinside
    · rw [List.getElem?_set_ne hsame, hleaf]

end Overfull

theorem offeredBytes_concat (index : Nat) (calls : List LeafCall) (call : LeafCall) :
    offeredBytes index (calls ++ [call]) = offeredBytes index calls + offeredBytes index [call] := by
  rw [offeredBytes, List.map_append, List.sum_append]
  rfl

/-- What has become of an overfull leaf after some calls: nothing was taken out of it, it has
taken every entry that is not too big and has a new key, and nothing else. -/
structure Absorbed (index : Nat) (leaf : LeafNode) (calls : List LeafCall) (after : LeafNode) : Prop where
  counted : after.Counted
  split : after.mSplit = leaf.mSplit
  kept : leaf.mChildren.Sublist after.mChildren
  stored : storedBytes after.mChildren ≤ storedBytes leaf.mChildren + offeredBytes index calls
  taken : ∀ key value, .insert index key value ∈ calls → key.data.length + value.data.length ≤ 1024 →
    key ∈ after.keys
  entry : ∀ earlier key value later, calls = earlier ++ .insert index key value :: later →
    key.data.length + value.data.length ≤ 1024 → key ∉ leaf.keys →
    (∀ other, .insert index key other ∈ earlier → 1024 < key.data.length + other.data.length) →
    (key, value) ∈ after.mChildren
  only : ∀ e ∈ after.mChildren, e ∈ leaf.mChildren ∨
    .insert index e.1 e.2 ∈ calls ∧ e.1.data.length + e.2.data.length ≤ 1024

/-- Where a call is in a sequence with one more call at its end. -/
theorem concat_eq_append_cons {calls earlier later : List LeafCall} {last call : LeafCall}
    (h : calls ++ [last] = earlier ++ call :: later) :
    (∃ later', later = later' ++ [last] ∧ calls = earlier ++ call :: later') ∨
      calls = earlier ∧ last = call ∧ later = [] := by
  cases later using List.reverseRecOn with
  | nil =>
    obtain ⟨hcalls, hlast⟩ := List.append_inj' h rfl
    exact Or.inr ⟨hcalls, List.singleton_inj.mp hlast, rfl⟩
  | append_singleton later' final =>
    rw [← List.cons_append, ← List.append_assoc] at h
    obtain ⟨hcalls, hlast⟩ := List.append_inj' h rfl
    exact Or.inl ⟨later', by rw [List.singleton_inj.mp hlast], hcalls⟩

section Absorbed

variable {index : Nat} {leaf after : LeafNode} {calls : List LeafCall} {key value : Bytes}

theorem Absorbed.start (hcounted : leaf.Counted) : Absorbed index leaf [] leaf where
  counted := hcounted
  split := rfl
  kept := .refl _
  stored := Nat.le_refl _
  taken _ _ hmem := absurd hmem List.not_mem_nil
  entry _ _ _ _ hcalls := absurd hcalls (List.append_ne_nil_of_right_ne_nil _ (List.cons_ne_nil _ _)).symm
  only _ he := Or.inl he

/-- A call that does nothing to the leaf. -/
theorem Absorbed.concat (h : Absorbed index leaf calls after) {call : LeafCall}
    (hrefuses : ∀ key value, call = .insert index key value → after.Refuses key value) :
    Absorbed index leaf (calls ++ [call]) after := by
  have hthere : ∀ key value, call = .insert index key value → key.data.length + value.data.length ≤ 1024 →
      key ∈ after.keys := by
    intro key value hcall hsmall
    refine (hrefuses key value hcall).resolve_right ?_
    rw [Node.tooBig_iff, leaf_entrySize_toNat]
    exact Nat.not_lt.mpr hsmall
  refine ⟨h.counted, h.split, h.kept, ?_, ?_, ?_, ?_⟩
  · rw [offeredBytes_concat, ← Nat.add_assoc]
    exact Nat.le_add_right_of_le h.stored
  · intro key value hmem hsmall
    rcases List.mem_append.mp hmem with hmem | hmem
    · exact h.taken key value hmem hsmall
    · exact hthere key value (List.mem_singleton.mp hmem).symm hsmall
  · intro earlier key value later hcalls hsmall hnew hfirst
    rcases concat_eq_append_cons hcalls with ⟨later, rfl, hbefore⟩ | ⟨rfl, rfl, rfl⟩
    · exact h.entry earlier key value later hbefore hsmall hnew hfirst
    · obtain ⟨e, he, rfl⟩ := List.mem_map.mp (hthere key value rfl hsmall)
      rcases h.only e he with hold | ⟨hoffered, hsmall'⟩
      · exact absurd (List.mem_map_of_mem hold) hnew
      · exact absurd (hfirst e.2 hoffered) (Nat.not_lt.mpr hsmall')
  · intro e he
    exact (h.only e he).imp_right fun ⟨hoffered, hsmall⟩ => ⟨List.mem_append_left _ hoffered, hsmall⟩

/-- A call that adds an entry to it. -/
theorem Absorbed.withEntryAdded (h : Absorbed index leaf calls after) (hrefuses : ¬ after.Refuses key value) :
    Absorbed index leaf (calls ++ [.insert index key value]) (after.withEntryAdded key value) := by
  have hsorted := h.counted.sorted
  have hsmall : key.data.length + value.data.length ≤ 1024 := by
    have hentry := entrySize_le_of_not_refuses hrefuses
    rwa [leaf_entrySize_toNat] at hentry
  have hoffered : offeredBytes index [.insert index key value] = key.data.length + value.data.length := by
    simp [offeredBytes]
  have hmem : ∀ e, e ∈ (after.withEntryAdded key value).mChildren ↔ e = (key, value) ∨ e ∈ after.mChildren :=
    mem_withEntryAdded hsorted
  refine ⟨h.counted.withEntryAdded hrefuses, h.split, ?_, ?_, ?_, ?_, ?_⟩
  · rw [withEntryAdded_mChildren hsorted]
    exact h.kept.trans (List.sublist_orderedInsert _ _)
  · have hstored := h.stored
    rw [withEntryAdded_mChildren hsorted, storedBytes_perm (sortedInsert_perm _ _ _), storedBytes_cons,
      leaf_entrySize_toNat, offeredBytes_concat, hoffered]
    omega
  · intro other otherValue hcall hsmall
    have hkeys : ∀ k, k = key ∨ k ∈ after.keys → k ∈ (after.withEntryAdded key value).keys := by
      rintro k (rfl | hk)
      · exact List.mem_map_of_mem ((hmem _).mpr (Or.inl rfl))
      · obtain ⟨e, he, rfl⟩ := List.mem_map.mp hk
        exact List.mem_map_of_mem ((hmem _).mpr (Or.inr he))
    rcases List.mem_append.mp hcall with hcall | hcall
    · exact hkeys _ (Or.inr (h.taken other otherValue hcall hsmall))
    · cases List.mem_singleton.mp hcall
      exact hkeys _ (Or.inl rfl)
  · intro earlier other otherValue later hcalls hsmall' hnew hfirst
    rcases concat_eq_append_cons hcalls with ⟨later, rfl, hbefore⟩ | ⟨rfl, hlast, rfl⟩
    · exact (hmem _).mpr (Or.inr (h.entry earlier other otherValue later hbefore hsmall' hnew hfirst))
    · cases hlast
      exact (hmem _).mpr (Or.inl rfl)
  · intro e he
    rcases (hmem e).mp he with rfl | he
    · exact Or.inr ⟨List.mem_append_right _ List.mem_cons_self, hsmall⟩
    · exact (h.only e he).imp_right fun ⟨hoffered, hsmall⟩ => ⟨List.mem_append_left _ hoffered, hsmall⟩

end Absorbed

end tupl.pvt.slow.LeafNode
