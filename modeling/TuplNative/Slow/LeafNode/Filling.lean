import TuplNative.BudgetedMap.Filling
import TuplNative.Slow.LeafNode.Map

namespace tupl.pvt.slow.LeafNode

/-- One insert on the way to a filled leaf: whatever else than `INSERTED` ends it. -/
def take (leaf : LeafNode) (e : Bytes × Bytes) : Option LeafNode :=
  match (LeafNode.insert e.1 e.2).exec leaf with
  | (.ok .inserted, leaf') => some leaf'
  | _ => none

/-- The leaf with the map in place of its entries. -/
def holding (leaf : LeafNode) (map : LeafMap) : LeafNode :=
  { leaf with mBytes := UInt64.ofNat map.total, mChildren := map.entries }

section Filling

variable {leaf leaf' : LeafNode} {map : LeafMap} {entries entries' : List (Bytes × Bytes)}

theorem holding_represents (leaf : LeafNode) (map : LeafMap) : (leaf.holding map).Represents map where
  children := rfl
  counted := by
    have hwithin : map.total ≤ 4096 := map.within
    exact UInt64.toNat_ofNat_of_lt' (Nat.lt_of_le_of_lt hwithin (by decide))

/-- A leaf is its map and what it has recorded of a split. -/
theorem Represents.eq_holding (h : leaf'.Represents map) (hsplit : leaf'.mSplit = leaf.mSplit) :
    leaf' = leaf.holding map := by
  obtain ⟨bytes, split, children⟩ := leaf'
  obtain rfl : children = map.entries := h.children
  obtain rfl : bytes = UInt64.ofNat map.total := by
    rw [← h.counted]
    exact (UInt64.ofNat_toNat).symm
  obtain rfl : split = leaf.mSplit := hsplit
  rfl

/-- The leaf takes an entry exactly when its map does. -/
theorem take_holding (leaf : LeafNode) (map : LeafMap) (e : Bytes × Bytes) :
    (leaf.holding map).take e = (map.take e).map leaf.holding := by
  have h := holding_represents leaf map
  obtain ⟨hanswer, hafter, _⟩ := h.insert_refines e.1 e.2
  have hsplit : ((LeafNode.insert e.1 e.2).exec (leaf.holding map)).2.mSplit = leaf.mSplit := by
    rw [insert_exec h.sorted]
    split_ifs <;> rfl
  unfold take BudgetedMap.take
  generalize (LeafNode.insert e.1 e.2).exec (leaf.holding map) = outcome at hanswer hafter hsplit
  obtain ⟨result, leaf'⟩ := outcome
  dsimp only at hanswer hafter hsplit
  generalize (map.insert e.1 e.2).1 = answer at hanswer
  cases hanswer with
  | refused what => rfl
  | full => rfl
  | added => exact congrArg some (hafter.eq_holding hsplit)

theorem Represents.run_take (h : leaf.Represents map) (entries : List (Bytes × Bytes)) :
    run LeafNode.take leaf entries = (run BudgetedMap.take map entries).map leaf.holding := by
  have hsame : leaf.holding map = leaf := (h.eq_holding rfl).symm
  have hrun : run LeafNode.take (leaf.holding map) entries =
      (run BudgetedMap.take map entries).map leaf.holding :=
    run.run_map leaf.holding (take_holding leaf) entries
  rwa [hsame] at hrun

/-- Whatever inserts came before, caught or not, a batch of entries is taken or not in any
order alike, and the leaf is the same afterwards. All of it is taken when the keys differ
from each other and from what the leaf holds, no entry exceeds a quarter of the
capacity, and together they fit in what is free. -/
theorem fill_order (calls : List (Bytes × Bytes)) (h : entries.Perm entries') :
    run take (after calls) entries = run take (after calls) entries' ∧
      ((run take (after calls) entries).isSome ↔
        (entries.map Prod.fst).Nodup ∧
        (∀ e ∈ entries, e.1 ∉ (after calls).keys ∧ e.1.data.length + e.2.data.length ≤ 1024) ∧
        (after calls).bytes.toNat + (entries.map fun e => e.1.data.length + e.2.data.length).sum ≤ 4096) := by
  obtain ⟨map, hmap⟩ := after_represents calls
  have hkeys : (after calls).keys = map.keys := congrArg _ hmap.children
  have hsize : ∀ e : Bytes × Bytes, e.1.data.length + e.2.data.length = (entrySize e).toNat :=
    fun e => (leaf_entrySize_toNat e.1 e.2).symm
  constructor
  · rw [hmap.run_take, hmap.run_take, BudgetedMap.run_take_perm map h]
  · rw [hmap.run_take, Option.isSome_map, BudgetedMap.run_take_isSome_iff, hkeys, hmap.counted]
    simp only [hsize]

end Filling

/-- Two entries around one that was there, in both orders; a duplicate of it was caught before. -/
theorem fill_order_twoEntries :
    let leaf := after [(.repeated 1 2, .empty), (.repeated 1 2, .repeated 1 7)]
    run take leaf [(.repeated 1 3, .empty), (.repeated 1 1, .empty)] =
        run take leaf [(.repeated 1 1, .empty), (.repeated 1 3, .empty)] ∧
      (run take leaf [(.repeated 1 3, .empty), (.repeated 1 1, .empty)]).isSome := by
  obtain ⟨hsame, htaken⟩ := fill_order [(.repeated 1 2, .empty), (.repeated 1 2, .repeated 1 7)]
    (List.Perm.swap (.repeated 1 1, .empty) (.repeated 1 3, .empty) [])
  exact ⟨hsame, htaken.mpr (by decide)⟩

end tupl.pvt.slow.LeafNode
