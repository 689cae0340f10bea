import TuplNative.Slow.Node.Insert

namespace tupl.pvt.slow

section Split

variable {V : Type} [NodeValue V]

/-- Where the key goes among all children. -/
def Node.insertIt (node : Node V) (key : Bytes) : Nat :=
  std.lowerBound (keyLesser key) node.mChildren

/-- The duplicate test of a split finds the key where it would go. -/
def Node.FindsKey (node : Node V) (key : Bytes) : Prop :=
  keyEqualsAt key node.mChildren (node.insertIt key) = true

instance (node : Node V) (key : Bytes) : Decidable (node.FindsKey key) :=
  inferInstanceAs (Decidable (_ = true))

/-- Where the children are cut, with the entry to come accounted for. -/
def Node.splitBegin (node : Node V) : Nat := (node.mChildren.length + 1) / 2

/-- The entry goes before the cut, so the lower half moves out. -/
abbrev Node.SplitsLeft (node : Node V) (key : Bytes) : Prop := node.insertIt key < node.splitBegin

/-- The key of the entry at the cut. -/
def Node.splitKey (node : Node V) : Buffer := keyAt node.mChildren node.splitBegin

/-- The children once an internal node has given its split key up. -/
def Node.givenUp (node : Node V) : List (Buffer × V) :=
  if node.type = .leaf then node.mChildren
  else node.mChildren.modify node.splitBegin (fun kv => (.empty, kv.2))

/-- The half that stays. -/
def Node.kept (node : Node V) (key : Bytes) : List (Buffer × V) :=
  if node.SplitsLeft key then node.givenUp.drop node.splitBegin
  else node.givenUp.take node.splitBegin

/-- The half that moves to the sibling, with the new entry in it. -/
def Node.moved (node : Node V) (key : Bytes) (value : V) : List (Buffer × V) :=
  if node.SplitsLeft key then
    (node.givenUp.take node.splitBegin).insertIdx (node.insertIt key) (key, value)
  else
    (node.givenUp.drop node.splitBegin).insertIdx (node.insertIt key - node.splitBegin) (key, value)

/-- The split that is recorded for the parent. -/
def Node.splitRecord (node : Node V) (sibling : NodePtr) (key : Bytes) : Split :=
  ⟨some sibling, if node.SplitsLeft key then .left else .right, node.splitKey⟩

/-- The original after a split. -/
def Node.afterSplit (node : Node V) (sibling : NodePtr) (key : Bytes) : Node V :=
  Ops.recalculateBytesUsed
    { node with mChildren := node.kept key, mSplit := node.splitRecord sibling key }

/-- The sibling after it has taken entries over. -/
def Node.grown (node : Node V) (entries : List (Buffer × V)) : Node V :=
  Ops.recalculateBytesUsed { node with mChildren := node.mChildren ++ entries }

/-- The check that a split is required. -/
def Node.SplitNotRequired (node : Node V) (key : Bytes) (value : V) : Prop :=
  entrySize (key, value) < node.capacity - node.bytes ∨ node.mChildren.length < 3

instance (node : Node V) (key : Bytes) (value : V) : Decidable (node.SplitNotRequired key value) :=
  inferInstanceAs (Decidable (_ ∨ _))

omit [NodeValue V] in
/-- The duplicate test looks at the place of the key only, which is enough in a sorted node. -/
theorem Node.keyEqualsAt_insertIt_iff {node : Node V} {key : Bytes} (hsorted : Sorted node.mChildren) :
    keyEqualsAt key node.mChildren (node.insertIt key) = true ↔ key ∈ node.mChildren.map Prod.fst := by
  obtain ⟨_, _, _, _, _, _, hdup⟩ := lowerBound_keyLesser key hsorted
  exact hdup

theorem Node.givenUp_length (node : Node V) : node.givenUp.length = node.mChildren.length := by
  unfold Node.givenUp
  split <;> simp

/-- The three appends to the sibling put the new entry into the moved half. -/
theorem extract_insert_extract {α : Type} (children : List α) {first position last : Nat} (a : α)
    (hfirst : first ≤ position) (hlast : position ≤ last) (hend : last ≤ children.length) :
    children.extract first position ++ [a] ++ children.extract position last =
      (children.extract first last).insertIdx (position - first) a := by
  have hsplit : children.extract first last =
      children.extract first position ++ children.extract position last := by
    simp only [List.extract_eq_take_drop]
    rw [show last - first = (position - first) + (last - position) by omega, List.take_add,
      List.drop_drop, show first + (position - first) = position by omega]
  have hlength : (children.extract first position).length = position - first := by
    simp only [List.extract_eq_take_drop, List.length_take, List.length_drop]
    omega
  rw [hsplit, ← hlength, insertIdx_append, List.append_assoc, List.singleton_append]

theorem Node.kept_eq (node : Node V) (key : Bytes) :
    node.givenUp.take (if node.SplitsLeft key then 0 else node.splitBegin) ++
        node.givenUp.drop (if node.SplitsLeft key then node.splitBegin else node.mChildren.length) =
      node.kept key := by
  unfold Node.kept
  by_cases hleft : node.SplitsLeft key
  · simp [hleft]
  · simp [hleft, ← node.givenUp_length]

theorem Node.moved_eq (node : Node V) (key : Bytes) (value : V) (hsize : 3 ≤ node.mChildren.length) :
    node.givenUp.extract (if node.SplitsLeft key then 0 else node.splitBegin) (node.insertIt key) ++
        [(key, value)] ++
        node.givenUp.extract (node.insertIt key)
          (if node.SplitsLeft key then node.splitBegin else node.mChildren.length) =
      node.moved key value := by
  have hlength := node.givenUp_length
  have hinside : node.insertIt key ≤ node.mChildren.length := std.lowerBound_le_length _ _
  have hcut : node.splitBegin ≤ node.mChildren.length := by
    unfold Node.splitBegin
    omega
  unfold Node.moved
  by_cases hleft : node.SplitsLeft key
  · have hbefore : node.insertIt key < node.splitBegin := hleft
    simp only [hleft, if_true]
    rw [extract_insert_extract _ _ (Nat.zero_le _) (by omega) (by omega)]
    simp
  · have hbehind : ¬ node.insertIt key < node.splitBegin := hleft
    simp only [hleft, if_false]
    rw [extract_insert_extract _ _ (by omega) hinside (by omega), ← hlength, ← List.drop_eq_extract]

omit [NodeValue V] in
theorem Node.recordSplit_exec {σ : Type} (ndebug : Bool) (node : Node V) (sibling : NodePtr)
    (direction : SiblingDirection) (splitKey : Buffer) (s : σ) :
    (node.recordSplit ndebug sibling direction splitKey).exec s =
      if ndebug = false ∧ node.hasSibling = true then (.error .assertion, s)
      else (.ok { node with mSplit := ⟨some sibling, direction, splitKey⟩ }, s) := by
  unfold Node.recordSplit assert Node.hasSibling
  cases ndebug <;> cases node.mSplit.sibling <;> rfl

theorem Ops.checkSplit_exec {σ : Type} (original : Node V) (key : Bytes) (value : V) (s : σ) :
    (Ops.checkSplit original key value).exec s =
      if original.TooBig key value then (.error (.invalidArgument "entry too big"), s)
      else if original.SplitNotRequired key value then (.error (.domainError "split is not required"), s)
      else if keyEqualsAt key original.mChildren (original.insertIt key) = true then
        (.error (.invalidArgument "duplicate key not allowed"), s)
      else (.ok (original.insertIt key), s) := by
  unfold Ops.checkSplit
  rw [Call.exec_bind, verifiedEntrySize_exec]
  by_cases hbig : original.TooBig key value
  · rw [if_pos hbig, if_pos hbig]
  rw [if_neg hbig, if_neg hbig]
  dsimp only
  by_cases hneeded : original.SplitNotRequired key value
  · have h : entrySize (key, value) < original.capacity - original.bytes ∨
        original.mChildren.length < 3 := hneeded
    rw [if_pos h, if_pos hneeded]
    rfl
  have h : ¬ (entrySize (key, value) < original.capacity - original.bytes ∨
      original.mChildren.length < 3) := hneeded
  rw [if_neg h, if_neg hneeded]
  by_cases hdup : keyEqualsAt key original.mChildren (original.insertIt key) = true
  · have h' : keyEqualsAt key original.mChildren
        (std.lowerBound (keyLesser key) original.mChildren) = true := hdup
    rw [if_pos hdup, if_pos h']
    rfl
  · have h' : ¬ keyEqualsAt key original.mChildren
        (std.lowerBound (keyLesser key) original.mChildren) = true := hdup
    rw [if_neg hdup, if_neg h']
    rfl

/-- A split is refused without a trace, or fails its assertion, or cuts the
original in two and hands the half the key belongs to, the new entry included,
to the sibling. -/
theorem Ops.splitAndInsert_exec (ndebug : Bool) (sibling : NodePtr) (original siblingNode : Node V)
    (key : Bytes) (value : V) :
    (Ops.splitAndInsert ndebug sibling key value).exec (original, siblingNode) =
      if original.TooBig key value then
        (.error (.invalidArgument "entry too big"), (original, siblingNode))
      else if original.SplitNotRequired key value then
        (.error (.domainError "split is not required"), (original, siblingNode))
      else if keyEqualsAt key original.mChildren (original.insertIt key) = true then
        (.error (.invalidArgument "duplicate key not allowed"), (original, siblingNode))
      else if ndebug = false ∧ original.hasSibling = true then
        (.error .assertion,
          ({ original with mChildren := original.kept key },
            { siblingNode with mChildren := siblingNode.mChildren ++ original.moved key value }))
      else
        (.ok (), (original.afterSplit sibling key, siblingNode.grown (original.moved key value))) := by
  unfold Ops.splitAndInsert
  rw [Call.exec_get_bind]
  dsimp only
  rw [Call.exec_bind, Ops.checkSplit_exec]
  by_cases hbig : original.TooBig key value
  · rw [if_pos hbig, if_pos hbig]
  rw [if_neg hbig, if_neg hbig]
  by_cases hneeded : original.SplitNotRequired key value
  · rw [if_pos hneeded, if_pos hneeded]
  rw [if_neg hneeded, if_neg hneeded]
  by_cases hdup : keyEqualsAt key original.mChildren (original.insertIt key) = true
  · rw [if_pos hdup, if_pos hdup]
  rw [if_neg hdup, if_neg hdup]
  dsimp only
  have hsize : 3 ≤ original.mChildren.length := by
    by_contra hsmall
    exact hneeded (Or.inr (by omega))
  have hkept := original.kept_eq key
  have hmoved := original.moved_eq key value hsize
  unfold Node.givenUp Node.SplitsLeft Node.splitBegin at hkept hmoved
  rw [hkept, hmoved, Call.exec_set_bind, Call.exec_bind, Node.recordSplit_exec]
  have hpending : ({ original with mChildren := original.kept key } : Node V).hasSibling =
      original.hasSibling := rfl
  rw [hpending]
  by_cases hassert : ndebug = false ∧ original.hasSibling = true
  · rw [if_pos hassert, if_pos hassert]
  · rw [if_neg hassert, if_neg hassert]
    rfl

/-- A split without a sibling leaves the original as it is. One that is required is refused, with
assertions disabled, for a key that is found, and otherwise gets at the sibling. -/
theorem Ops.splitAndInsertNull_exec (ndebug : Bool) (original : Node V) (key : Bytes) (value : V) :
    (Ops.splitAndInsertNull ndebug key value).exec original =
      if ndebug = false then (.error .nullDereference, original)
      else if original.TooBig key value then (.error (.invalidArgument "entry too big"), original)
      else if original.SplitNotRequired key value then
        (.error (.domainError "split is not required"), original)
      else if original.FindsKey key then
        (.error (.invalidArgument "duplicate key not allowed"), original)
      else (.error .nullDereference, original) := by
  unfold Ops.splitAndInsertNull
  cases ndebug with
  | false => rfl
  | true =>
    rw [if_neg (by decide), if_neg (by decide)]
    dsimp only
    rw [Call.exec_get_bind, Call.exec_bind, Ops.checkSplit_exec]
    by_cases hbig : original.TooBig key value
    · rw [if_pos hbig, if_pos hbig]
    rw [if_neg hbig, if_neg hbig]
    by_cases hneeded : original.SplitNotRequired key value
    · rw [if_pos hneeded, if_pos hneeded]
    rw [if_neg hneeded, if_neg hneeded]
    by_cases hfound : original.FindsKey key
    · have h : keyEqualsAt key original.mChildren (original.insertIt key) = true := hfound
      rw [if_pos h, if_pos hfound]
    · have h : ¬ keyEqualsAt key original.mChildren (original.insertIt key) = true := hfound
      rw [if_neg h, if_neg hfound]
      rfl

/-- A split without a sibling never returns. With assertions it always gets at the sibling. -/
theorem Ops.splitAndInsertNull_fails (ndebug : Bool) (original : Node V) (key : Bytes) (value : V) :
    ∃ failure, (Ops.splitAndInsertNull ndebug key value).exec original = (.error failure, original) ∧
      (ndebug = false → failure = .nullDereference) := by
  rw [Ops.splitAndInsertNull_exec]
  by_cases hndebug : ndebug = false
  · exact ⟨_, if_pos hndebug, fun _ => rfl⟩
  rw [if_neg hndebug]
  by_cases hbig : original.TooBig key value
  · exact ⟨_, if_pos hbig, fun h => absurd h hndebug⟩
  rw [if_neg hbig]
  by_cases hneeded : original.SplitNotRequired key value
  · exact ⟨_, if_pos hneeded, fun h => absurd h hndebug⟩
  rw [if_neg hneeded]
  by_cases hfound : original.FindsKey key
  · exact ⟨_, if_pos hfound, fun h => absurd h hndebug⟩
  · exact ⟨_, if_neg hfound, fun _ => rfl⟩

/-- How a split can end: it is rejected before its first write, or its assertion
fails after it, or it has passed its checks and cut the original in two. -/
inductive SplitOutcome (sibling : NodePtr) (original siblingNode : Node V) (key : Bytes) (value : V) :
    Except Failure Unit → Node V × Node V → Prop where
  | rejected (failure : Failure) (hexception : failure.isException = true) :
    SplitOutcome sibling original siblingNode key value (.error failure) (original, siblingNode)
  | aborted (nodes : Node V × Node V) :
    SplitOutcome sibling original siblingNode key value (.error .assertion) nodes
  | returned (hsmall : ¬ original.TooBig key value) (hneeded : ¬ original.SplitNotRequired key value)
      (habsent : ¬ keyEqualsAt key original.mChildren (original.insertIt key) = true) :
    SplitOutcome sibling original siblingNode key value (.ok ())
      (original.afterSplit sibling key, siblingNode.grown (original.moved key value))

theorem Ops.splitAndInsert_outcome (ndebug : Bool) (sibling : NodePtr) (original siblingNode : Node V)
    (key : Bytes) (value : V) :
    ∃ outcome nodes, (Ops.splitAndInsert ndebug sibling key value).exec (original, siblingNode) =
        (outcome, nodes) ∧ SplitOutcome sibling original siblingNode key value outcome nodes := by
  rw [Ops.splitAndInsert_exec]
  by_cases hbig : original.TooBig key value
  · rw [if_pos hbig]
    exact ⟨_, _, rfl, .rejected _ rfl⟩
  rw [if_neg hbig]
  by_cases hneeded : original.SplitNotRequired key value
  · rw [if_pos hneeded]
    exact ⟨_, _, rfl, .rejected _ rfl⟩
  rw [if_neg hneeded]
  by_cases hdup : keyEqualsAt key original.mChildren (original.insertIt key) = true
  · rw [if_pos hdup]
    exact ⟨_, _, rfl, .rejected _ rfl⟩
  rw [if_neg hdup]
  by_cases hassert : ndebug = false ∧ original.hasSibling = true
  · rw [if_pos hassert]
    exact ⟨_, _, rfl, .aborted _⟩
  · rw [if_neg hassert]
    exact ⟨_, _, rfl, .returned hbig hneeded hdup⟩

end Split

end tupl.pvt.slow
