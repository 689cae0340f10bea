import Mathlib.Data.List.Induction
import TuplNative.BudgetedMap
import TuplNative.Slow.LeafNode.Insert

namespace tupl.pvt.slow

open LeafNode

/-- What a leaf is for: an ordered map from byte strings to byte strings within
4096 bytes, of which no entry takes more than a quarter. -/
abbrev LeafMap := BudgetedMap Bytes Bytes (fun e => (entrySize e).toNat) 1024 4096

/-- The leaf stores the map and has counted its bytes. -/
structure LeafNode.Represents (leaf : LeafNode) (map : LeafMap) : Prop where
  children : leaf.mChildren = map.entries
  counted : leaf.bytes.toNat = map.total

section Represents

variable {leaf : LeafNode} {map : LeafMap}

theorem LeafNode.Represents.sorted (h : leaf.Represents map) : Sorted leaf.mChildren :=
  h.children ▸ map.sorted

theorem LeafNode.Represents.bytes_eq (h : leaf.Represents map) :
    leaf.bytes.toNat = storedBytes leaf.mChildren := by
  rw [h.counted, h.children]
  rfl

theorem LeafNode.Represents.bytes_le (h : leaf.Represents map) : leaf.bytes ≤ leaf.capacity := by
  rw [UInt64.le_iff_toNat_le, h.counted, capacity_toNat]
  exact map.within

/-- Within the budget the free space is computed without wrapping around. -/
theorem LeafNode.Represents.available (h : leaf.Represents map) :
    (leaf.capacity - leaf.bytes).toNat = 4096 - map.total := by
  rw [UInt64.toNat_sub_of_le _ _ h.bytes_le, h.counted, capacity_toNat]

theorem LeafNode.Represents.refuses_iff (h : leaf.Represents map) (key value : Bytes) :
    map.Refuses key value ↔ leaf.Refuses key value := by
  rw [LeafNode.Refuses, LeafNode.keys, h.children, Node.tooBig_iff]
  rfl

theorem LeafNode.Represents.overflows_iff (h : leaf.Represents map) (key value : Bytes) :
    map.Overflows key value ↔ leaf.LacksRoom key value := by
  rw [Node.LacksRoom, UInt64.lt_iff_toNat_lt, h.available]
  rfl

/-- An entry that the map takes is added to the leaf as well. -/
theorem LeafNode.Represents.withEntryAdded (h : leaf.Represents map) {key value : Bytes}
    (hrefuses : ¬ map.Refuses key value) (hroom : ¬ map.Overflows key value) :
    (leaf.withEntryAdded key value).Represents (map.add key value hrefuses hroom) := by
  refine ⟨?_, ?_⟩
  · rw [withEntryAdded_mChildren h.sorted, h.children]
    rfl
  · have hbytes : leaf.mBytes.toNat = map.total := h.counted
    have hfits : ¬ 4096 - map.total < (entrySize (key, value)).toNat := hroom
    have hwithin : map.total ≤ 4096 := map.within
    have htotal : (map.add key value hrefuses hroom).total = (entrySize (key, value)).toNat + map.total :=
      storedBytes_perm (sortedInsert_perm key value map.entries)
    change (leaf.mBytes + entrySize (key, value)).toNat = _
    rw [UInt64.toNat_add, htotal, hbytes]
    omega

/-- How a leaf spells the answers of the map. -/
inductive LeafNode.AnswersAs : Except Failure InsertResult → BudgetedMap.Answer → Prop where
  | refused (what : String) : AnswersAs (.error (.invalidArgument what)) .refused
  | full : AnswersAs (.ok .failedNoSpace) .full
  | added : AnswersAs (.ok .inserted) .added

/-- A leaf refines the map it represents: it throws where the map refuses, has
no space where the map is full, and otherwise inserts what the map adds. -/
theorem LeafNode.Represents.insert_refines (h : leaf.Represents map) (key value : Bytes) :
    LeafNode.AnswersAs ((LeafNode.insert key value).exec leaf).1 (map.insert key value).1 ∧
      (((LeafNode.insert key value).exec leaf).2).Represents (map.insert key value).2 ∧
      (((LeafNode.insert key value).exec leaf).1 ≠ .ok .inserted →
        ((LeafNode.insert key value).exec leaf).2 = leaf) := by
  unfold BudgetedMap.insert
  by_cases hrefuses : map.Refuses key value
  · obtain ⟨what, hthrow⟩ := insert_of_refuses h.sorted ((h.refuses_iff key value).mp hrefuses)
    simp only [hrefuses, hthrow, dite_true]
    exact ⟨.refused what, h, fun _ => trivial⟩
  · have hleaf : ¬ leaf.Refuses key value := fun hleaf => hrefuses ((h.refuses_iff key value).mpr hleaf)
    by_cases hfull : map.Overflows key value
    · have hfailed := insert_of_fullFor h.sorted ⟨hleaf, (h.overflows_iff key value).mp hfull⟩
      simp only [hrefuses, hfull, hfailed, dite_true, dite_false]
      exact ⟨.full, h, fun _ => trivial⟩
    · have hinsert := insert_of_room h.sorted hleaf
        fun hnoroom => hfull ((h.overflows_iff key value).mpr hnoroom.2)
      simp only [hrefuses, hfull, hinsert, dite_false]
      exact ⟨.added, h.withEntryAdded hrefuses hfull, fun hne => absurd rfl hne⟩

end Represents

/-- What `LeafNode::insert(key, value)` promises of its outcome on the current entries. -/
structure LeafNode.InsertContract (leaf : LeafNode) (key value : Bytes)
    (outcome : Except Failure InsertResult × LeafNode) : Prop where
  throws_iff : (∃ what, outcome.1 = .error (.invalidArgument what)) ↔
    key ∈ leaf.mChildren.map Prod.fst ∨
      leaf.capacity.toNat / 4 < key.data.length + value.data.length
  full_iff : ¬ (key ∈ leaf.mChildren.map Prod.fst ∨
      leaf.capacity.toNat / 4 < key.data.length + value.data.length) →
    (outcome.1 = .ok .failedNoSpace ↔
      leaf.capacity.toNat - storedBytes leaf.mChildren < key.data.length + value.data.length)
  inserts : ¬ (key ∈ leaf.mChildren.map Prod.fst ∨
      leaf.capacity.toNat / 4 < key.data.length + value.data.length) →
    ¬ leaf.capacity.toNat - storedBytes leaf.mChildren < key.data.length + value.data.length →
    outcome.1 = .ok .inserted ∧ outcome.2.mChildren = sortedInsert key value leaf.mChildren
  unchanged : outcome.1 ≠ .ok .inserted → outcome.2 = leaf

/-- A leaf that represents a map keeps the contract: it answers as the map does. -/
theorem LeafNode.Represents.insertContract {leaf : LeafNode} {map : LeafMap} (h : leaf.Represents map)
    (key value : Bytes) : leaf.InsertContract key value ((LeafNode.insert key value).exec leaf) := by
  have hrefuses : map.Refuses key value ↔ key ∈ leaf.mChildren.map Prod.fst ∨
      leaf.capacity.toNat / 4 < key.data.length + value.data.length := by
    rw [← leaf_entrySize_toNat, h.children, capacity_toNat]
    rfl
  have hfull : map.Overflows key value ↔
      leaf.capacity.toNat - storedBytes leaf.mChildren < key.data.length + value.data.length := by
    rw [← leaf_entrySize_toNat, h.children, capacity_toNat]
    rfl
  obtain ⟨hanswer, hafter, hunchanged⟩ := h.insert_refines key value
  generalize (LeafNode.insert key value).exec leaf = outcome at hanswer hafter hunchanged ⊢
  obtain ⟨result, leaf'⟩ := outcome
  have hrefused := map.insert_refused_iff key value
  have hoverflows := map.insert_full_iff key value
  rw [hrefuses] at hrefused hoverflows
  rw [hfull] at hoverflows
  dsimp only at hanswer hafter hunchanged
  generalize hkind : (map.insert key value).1 = answer at hanswer hrefused hoverflows
  cases hanswer with
  | refused what =>
    have hthrows := hrefused.mp rfl
    exact ⟨⟨fun _ => hthrows, fun _ => ⟨what, rfl⟩⟩, fun hnot => absurd hthrows hnot,
      fun hnot => absurd hthrows hnot, hunchanged⟩
  | full =>
    obtain ⟨hnot, hover⟩ := hoverflows.mp rfl
    exact ⟨⟨by simp, fun hthrows => absurd hthrows hnot⟩, fun _ => ⟨fun _ => hover, fun _ => rfl⟩,
      fun _ hroom => absurd hover hroom, hunchanged⟩
  | added =>
    have hentries := map.insert_added_entries key value hkind
    exact ⟨⟨by simp, fun hthrows => absurd (hrefused.mpr hthrows) (by simp)⟩,
      fun hnot => ⟨by simp, fun hover => absurd (hoverflows.mpr ⟨hnot, hover⟩) (by simp)⟩,
      fun _ _ => ⟨rfl, by rw [hafter.children, hentries, h.children]⟩, hunchanged⟩

/-- A fresh leaf after a sequence of keyed inserts, whatever each answered. -/
def LeafNode.after (calls : List (Bytes × Bytes)) : LeafNode :=
  calls.foldl (fun leaf call => ((LeafNode.insert call.1 call.2).exec leaf).2) LeafNode.construct

theorem LeafNode.construct_represents : LeafNode.construct.Represents BudgetedMap.empty :=
  ⟨rfl, rfl⟩

theorem LeafNode.after_represents (calls : List (Bytes × Bytes)) :
    ∃ map : LeafMap, (LeafNode.after calls).Represents map := by
  induction calls using List.reverseRecOn with
  | nil => exact ⟨_, LeafNode.construct_represents⟩
  | append_singleton calls call ih =>
    obtain ⟨map, h⟩ := ih
    rw [LeafNode.after, List.foldl_append, List.foldl_cons, List.foldl_nil]
    exact ⟨_, (h.insert_refines call.1 call.2).2.1⟩

/-- A leaf driven by keyed inserts is a byte-budgeted sorted map: after any
sequence of calls its keys strictly increase, its byte count is exact and within
the capacity, and the next call keeps its contract. -/
theorem LeafNode.after_is_budgeted_map (calls : List (Bytes × Bytes)) :
    Sorted (LeafNode.after calls).mChildren ∧
      (LeafNode.after calls).bytes.toNat =
        ((LeafNode.after calls).mChildren.map fun e => e.1.data.length + e.2.data.length).sum ∧
      (LeafNode.after calls).bytes ≤ (LeafNode.after calls).capacity ∧
      ∀ key value, (LeafNode.after calls).InsertContract key value
        ((LeafNode.insert key value).exec (LeafNode.after calls)) := by
  obtain ⟨map, h⟩ := LeafNode.after_represents calls
  exact ⟨h.sorted, h.bytes_eq.trans (storedBytes_leaf _), h.bytes_le, h.insertContract⟩

end tupl.pvt.slow
