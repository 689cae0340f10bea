import TuplNative.Slow.InternalNode.Insert
import TuplNative.Slow.Node.Split

namespace tupl.pvt.slow

/-- All checks of a split come before its first write. A failed assertion comes
after it, but does not return to the caller. -/
theorem Ops.splitAndInsert_unchanged {V : Type} [NodeValue V] (ndebug : Bool) (sibling : NodePtr)
    (key : Bytes) (value : V) : (Ops.splitAndInsert ndebug sibling key value).Unchanged Thrown := by
  rintro ⟨original, siblingNode⟩ ⟨failure, hfailure, hexception⟩
  obtain ⟨outcome, nodes, hexec, houtcome⟩ :=
    Ops.splitAndInsert_outcome ndebug sibling original siblingNode key value
  rw [hexec] at hfailure ⊢
  cases houtcome with
  | rejected _ _ => rfl
  | aborted nodes =>
    cases hfailure
    cases hexception
  | returned _ _ _ => cases hfailure

/-- A keyed insert into an internal node writes to it only when it reports an
inserted entry. -/
theorem InternalNode.insert_unchanged (key : Bytes) (child : NodePtr) :
    (InternalNode.insert key child).Unchanged fun outcome => outcome ≠ .ok .inserted := by
  intro node houtcome
  rw [InternalNode.insert_exec] at houtcome ⊢
  by_cases hdup : keyEqualsAt key node.mChildren (node.insertPos key) = true
  · rw [if_pos hdup]
  rw [if_neg hdup] at houtcome ⊢
  by_cases hbig : node.TooBig key child
  · rw [if_pos hbig]
  rw [if_neg hbig] at houtcome ⊢
  by_cases hroom : node.LacksRoom key child
  · rw [if_pos hroom]
  · rw [if_neg hroom] at houtcome
    exact absurd rfl houtcome

/-- A rejected split changes neither of its nodes, leaf or internal, and neither does
an insert into an internal node that throws or reports no space. -/
theorem rejected_unchanged :
    (∀ ndebug sibling key value, (LeafNode.splitAndInsert ndebug sibling key value).Unchanged Thrown) ∧
      (∀ ndebug sibling key child,
        (InternalNode.splitAndInsert ndebug sibling key child).Unchanged Thrown) ∧
      ∀ key child, (InternalNode.insert key child).Unchanged fun outcome =>
        Thrown outcome ∨ outcome = .ok .failedNoSpace := by
  refine ⟨fun _ _ _ _ => Ops.splitAndInsert_unchanged _ _ _ _,
    fun _ _ _ _ => Ops.splitAndInsert_unchanged _ _ _ _, fun key child node houtcome => ?_⟩
  apply InternalNode.insert_unchanged key child node
  rintro hinserted
  rw [hinserted] at houtcome
  rcases houtcome with ⟨_, hthrown, _⟩ | hfull
  · cases hthrown
  · cases hfull

/-- Four entries that fill a leaf but for four bytes. -/
def LeafNode.fourEntries : LeafNode :=
  ⟨4092, ⟨none, .left, .empty⟩, [(.repeated 1 10, .repeated 1022 0), (.repeated 1 20, .repeated 1022 0),
    (.repeated 1 30, .repeated 1022 0), (.repeated 1 40, .repeated 1022 0)]⟩

/-- A leaf with one entry. -/
def LeafNode.oneEntry : LeafNode := ⟨1, ⟨none, .left, .empty⟩, [(.repeated 1 90, .empty)]⟩

/-- Four keys that fill an internal node. -/
def InternalNode.fourKeys : InternalNode :=
  ⟨4096, ⟨none, .left, .empty⟩, [(.empty, .leaf 0), (.repeated 1016 1, .leaf 1), (.repeated 1016 2, .leaf 2),
    (.repeated 1016 3, .leaf 3), (.repeated 1016 4, .leaf 4)]⟩

/-- A split for a key that is there, one for an entry that is too big, the split of an internal
node for a key that is there, and an insert into it. -/
theorem rejected_unchanged_fullNodes :
    ((LeafNode.splitAndInsert false (.leaf 1) (.repeated 1 20) (.repeated 100 0)).exec
        (LeafNode.fourEntries, LeafNode.oneEntry)).2 = (LeafNode.fourEntries, LeafNode.oneEntry) ∧
      ((LeafNode.splitAndInsert false (.leaf 1) (.repeated 1 50) (.repeated 1024 0)).exec
        (LeafNode.fourEntries, LeafNode.oneEntry)).2 = (LeafNode.fourEntries, LeafNode.oneEntry) ∧
      ((InternalNode.splitAndInsert false (.internal 1) (.repeated 1016 3) (.leaf 5)).exec
        (InternalNode.fourKeys, InternalNode.construct (.leaf 6))).2 =
          (InternalNode.fourKeys, InternalNode.construct (.leaf 6)) ∧
      ((InternalNode.insert (.repeated 1016 9) (.leaf 5)).exec InternalNode.fourKeys).2 =
        InternalNode.fourKeys := by
  have hduplicate : ((LeafNode.splitAndInsert false (.leaf 1) (.repeated 1 20) (.repeated 100 0)).exec
      (LeafNode.fourEntries, LeafNode.oneEntry)).1 = .error (.invalidArgument "duplicate key not allowed") := by
    decide +kernel
  have hbig : ((LeafNode.splitAndInsert false (.leaf 1) (.repeated 1 50) (.repeated 1024 0)).exec
      (LeafNode.fourEntries, LeafNode.oneEntry)).1 = .error (.invalidArgument "entry too big") := by
    decide +kernel
  have hinternal : ((InternalNode.splitAndInsert false (.internal 1) (.repeated 1016 3) (.leaf 5)).exec
      (InternalNode.fourKeys, InternalNode.construct (.leaf 6))).1 =
        .error (.invalidArgument "duplicate key not allowed") := by
    decide +kernel
  have hfull : ((InternalNode.insert (.repeated 1016 9) (.leaf 5)).exec InternalNode.fourKeys).1 =
      .ok .failedNoSpace := by
    decide +kernel
  exact ⟨rejected_unchanged.1 _ _ _ _ _ ⟨_, hduplicate, rfl⟩, rejected_unchanged.1 _ _ _ _ _ ⟨_, hbig, rfl⟩,
    rejected_unchanged.2.1 _ _ _ _ _ ⟨_, hinternal, rfl⟩, rejected_unchanged.2.2 _ _ _ (Or.inr hfull)⟩

end tupl.pvt.slow
