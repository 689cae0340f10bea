import TuplNative.Slow.Node.ByteCount
import TuplNative.Slow.Node.Split

namespace tupl.pvt.slow

namespace LeafNode

def keys (leaf : LeafNode) : List Bytes := leaf.mChildren.map Prod.fst

/-- The leaf holds the key already, or the entry is too big for any leaf. -/
def Refuses (leaf : LeafNode) (key value : Bytes) : Prop :=
  key ∈ leaf.keys ∨ leaf.TooBig key value

/-- The leaf would take the entry if it had the space. -/
def FullFor (leaf : LeafNode) (key value : Bytes) : Prop :=
  ¬ leaf.Refuses key value ∧ leaf.LacksRoom key value

instance (leaf : LeafNode) (key value : Bytes) : Decidable (leaf.Refuses key value) :=
  inferInstanceAs (Decidable (_ ∨ _))

instance (leaf : LeafNode) (key value : Bytes) : Decidable (leaf.FullFor key value) :=
  inferInstanceAs (Decidable (_ ∧ _))

/-- The leaf with the entry added at its place. -/
def withEntryAdded (leaf : LeafNode) (key value : Bytes) : LeafNode :=
  leaf.withEntry (leaf.insertIt key) key value

theorem insertAt_exec (leaf : LeafNode) {position : Nat} (key value : Bytes)
    (hpos : position ≤ leaf.mChildren.length) :
    (LeafNode.insertAt position key value).exec leaf =
      if leaf.TooBig key value then (.error (.invalidArgument "entry too big"), leaf)
      else if leaf.LacksRoom key value then (.ok .failedNoSpace, leaf)
      else (.ok .inserted, leaf.withEntry position key value) :=
  Ops.insertAt_exec leaf key value hpos

section Sorted

variable {leaf : LeafNode} {key value : Bytes}

theorem insert_exec (hsorted : Sorted leaf.mChildren) :
    (LeafNode.insert key value).exec leaf =
      if key ∈ leaf.keys then (.error (.invalidArgument "duplicate key not allowed"), leaf)
      else if leaf.TooBig key value then (.error (.invalidArgument "entry too big"), leaf)
      else if leaf.LacksRoom key value then (.ok .failedNoSpace, leaf)
      else (.ok .inserted, leaf.withEntryAdded key value) := by
  have hdup : keyEqualsAt key leaf.mChildren (std.lowerBound (keyLesser key) leaf.mChildren) = true ↔
      key ∈ leaf.keys := Node.keyEqualsAt_insertIt_iff hsorted
  unfold LeafNode.insert
  rw [Call.exec_get_bind]
  by_cases hmem : key ∈ leaf.keys
  · rw [if_pos (hdup.mpr hmem), if_pos hmem, Call.exec_throw_bind]
  · rw [if_neg (fun h => hmem (hdup.mp h)), if_neg hmem]
    exact Ops.insertAt_exec leaf key value (std.lowerBound_le_length _ _)

/-- A refused entry makes the leaf throw and leaves it alone. -/
theorem insert_of_refuses (hsorted : Sorted leaf.mChildren) (hrefuses : leaf.Refuses key value) :
    ∃ what, (LeafNode.insert key value).exec leaf = (.error (.invalidArgument what), leaf) := by
  rw [insert_exec hsorted]
  by_cases hmem : key ∈ leaf.keys
  · exact ⟨_, if_pos hmem⟩
  · have hbig := hrefuses.resolve_left hmem
    exact ⟨_, by rw [if_neg hmem, if_pos hbig]⟩

/-- A leaf without room says so and is left alone. -/
theorem insert_of_fullFor (hsorted : Sorted leaf.mChildren) (hfull : leaf.FullFor key value) :
    (LeafNode.insert key value).exec leaf = (.ok .failedNoSpace, leaf) := by
  rw [insert_exec hsorted, if_neg fun hmem => hfull.1 (Or.inl hmem),
    if_neg fun hbig => hfull.1 (Or.inr hbig), if_pos hfull.2]

/-- Every other entry is added. -/
theorem insert_of_room (hsorted : Sorted leaf.mChildren) (hrefuses : ¬ leaf.Refuses key value)
    (hfull : ¬ leaf.FullFor key value) :
    (LeafNode.insert key value).exec leaf = (.ok .inserted, leaf.withEntryAdded key value) := by
  rw [insert_exec hsorted, if_neg fun hmem => hrefuses (Or.inl hmem),
    if_neg fun hbig => hrefuses (Or.inr hbig), if_neg fun hroom => hfull ⟨hrefuses, hroom⟩]

/-- The place of a new key is its place in byte order. -/
theorem withEntryAdded_mChildren (hsorted : Sorted leaf.mChildren) :
    (leaf.withEntryAdded key value).mChildren = sortedInsert key value leaf.mChildren := by
  obtain ⟨lower, upper, hsplit, hpos, hlower, hupper, _⟩ := lowerBound_keyLesser key hsorted
  rw [withEntryAdded, Node.withEntry, Node.insertIt, ← hpos, hsplit, insertIdx_append,
    sortedInsert_append hlower hupper]

end Sorted

end LeafNode

end tupl.pvt.slow
