import TuplNative.Entries
import TuplNative.Slow.Node

namespace tupl.pvt.slow

section Comparison

variable {V : Type}

theorem keyLesser_eq (key : Bytes) (entry : Buffer × V) :
    keyLesser key entry = decide (entry.1 < key) := by
  rw [keyLesser, std.lexicographicalCompare_lt]
  exact decide_eq_decide.mpr (Bytes.lt_iff_data_lt _ _).symm

theorem keyEquals_eq (key : Bytes) (entry : Buffer × V) :
    keyEquals key entry = decide (entry.1 = key) := by
  have hsize : (key.size == entry.1.size) = decide (entry.1.data.length = key.data.length) := by
    rw [Bool.eq_iff_iff, beq_iff_eq, decide_eq_true_iff, ← UInt64.toNat_inj, Bytes.size_toNat,
      Bytes.size_toNat]
    exact eq_comm
  rw [keyEquals, hsize]
  by_cases hlen : entry.1.data.length = key.data.length
  · rw [std.equal_eq_decide hlen]
    simp [hlen, ← Bytes.data_injective.eq_iff]
  · have hne : entry.1 ≠ key := fun heq => hlen (by rw [heq])
    simp [hlen, hne]

theorem keyEqualsAt_iff {key : Bytes} {lower upper : List (Buffer × V)} {position : Nat}
    (hpos : lower.length = position) :
    keyEqualsAt key (lower ++ upper) position = true ↔ ∃ e, upper.head? = some e ∧ e.1 = key := by
  subst hpos
  rw [keyEqualsAt, List.getElem?_append_right (Nat.le_refl _), Nat.sub_self, ← List.head?_eq_getElem?]
  cases upper.head? <;> simp [keyEquals_eq]

/-- The two comparisons of a keyed insert agree on sorted children: the lower
bound cuts at the key, and the duplicate test finds the key wherever it is. -/
theorem lowerBound_keyLesser (key : Bytes) {children : List (Buffer × V)} (hsorted : Sorted children) :
    ∃ lower upper, children = lower ++ upper ∧
      lower.length = std.lowerBound (keyLesser key) children ∧
      (∀ e ∈ lower, e.1 < key) ∧ (∀ e ∈ upper, key ≤ e.1) ∧
      (keyEqualsAt key children (std.lowerBound (keyLesser key) children) = true ↔
        key ∈ children.map Prod.fst) := by
  obtain ⟨lower, upper, rfl, hpos, hlower, hupper⟩ := hsorted.lowerBound_cut key
  simp only [← keyLesser_eq] at hpos
  refine ⟨lower, upper, rfl, hpos, hlower, hupper, ?_⟩
  rw [keyEqualsAt_iff hpos, hsorted.mem_keys_iff_head hlower hupper]

end Comparison

section Insert

variable {V : Type} [NodeValue V]

/-- The entry is over the quarter of the capacity that a single entry may take. -/
def Node.TooBig (node : Node V) (key : Bytes) (value : V) : Prop :=
  node.capacity / 4 < entrySize (key, value)

/-- The free-space computation, which wraps around in a node over its capacity,
leaves less than the entry takes. -/
def Node.LacksRoom (node : Node V) (key : Bytes) (value : V) : Prop :=
  node.capacity - node.bytes < entrySize (key, value)

instance (node : Node V) (key : Bytes) (value : V) : Decidable (node.TooBig key value) :=
  inferInstanceAs (Decidable (_ < _))

instance (node : Node V) (key : Bytes) (value : V) : Decidable (node.LacksRoom key value) :=
  inferInstanceAs (Decidable (_ < _))

omit [NodeValue V] in
theorem capacity_toNat (node : Node V) : node.capacity.toNat = 4096 := by
  simp [Node.capacity]

omit [NodeValue V] in
theorem maxEntry_toNat (node : Node V) : (node.capacity / 4).toNat = 1024 := by
  simp [Node.capacity]

theorem Node.tooBig_iff (node : Node V) (key : Bytes) (value : V) :
    node.TooBig key value ↔ 1024 < (entrySize (key, value)).toNat := by
  rw [Node.TooBig, UInt64.lt_iff_toNat_lt, maxEntry_toNat]

/-- The node after an entry was placed at a position and counted. -/
def Node.withEntry (node : Node V) (position : Nat) (key : Bytes) (value : V) : Node V :=
  { node with
    mBytes := node.mBytes + entrySize (key, value)
    mChildren := node.mChildren.insertIdx position (key, value) }

theorem verifiedEntrySize_exec {σ : Type} (node : Node V) (key : Bytes) (value : V) (s : σ) :
    (verifiedEntrySize node key.size (NodeValue.valueSize value)).exec s =
      if node.TooBig key value then (.error (.invalidArgument "entry too big"), s)
      else (.ok (entrySize (key, value)), s) := by
  unfold verifiedEntrySize Node.TooBig entrySize
  by_cases hbig : node.capacity / 4 < key.size + NodeValue.valueSize value
  · simp [hbig]
  · simp [hbig]

/-- A positional insert is refused, finds no room, or places the entry; only in
the last case is the node touched. -/
theorem Ops.insertAt_exec (node : Node V) {position : Nat} (key : Bytes) (value : V)
    (hpos : position ≤ node.mChildren.length) :
    (Ops.insertAt position key value).exec node =
      if node.TooBig key value then (.error (.invalidArgument "entry too big"), node)
      else if node.LacksRoom key value then (.ok .failedNoSpace, node)
      else (.ok .inserted, node.withEntry position key value) := by
  have hgrown : ¬ node.mChildren.length = (node.mChildren.insertIdx position (key, value)).length := by
    rw [List.length_insertIdx_of_le_length hpos]
    omega
  unfold Ops.insertAt
  rw [Call.exec_get_bind, Call.exec_bind, verifiedEntrySize_exec]
  by_cases hbig : node.TooBig key value
  · simp [hbig]
  · simp only [hbig, if_false]
    by_cases hroom : node.LacksRoom key value
    · have hlt : entrySize (key, value) > node.capacity - node.bytes := hroom
      simp [hroom, hlt]
    · have hlt : ¬ entrySize (key, value) > node.capacity - node.bytes := hroom
      simp only [hroom, hlt, hgrown, if_false]
      simp [Call.exec_bind, Call.exec_map, Node.withEntry, Node.bytes]

end Insert

end tupl.pvt.slow
