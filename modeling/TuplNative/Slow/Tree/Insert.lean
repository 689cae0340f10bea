import TuplNative.Slow.InternalNode.Insert
import TuplNative.Slow.Tree.TwoLevel

namespace tupl.pvt.slow

/-- The leaf would have to be split a second time, which an assertion forbids. -/
def LeafNode.Blocked (ndebug : Bool) (leaf : LeafNode) (key value : Bytes) : Prop :=
  leaf.FullFor key value ∧ ndebug = false ∧ leaf.hasSibling = true

instance (ndebug : Bool) (leaf : LeafNode) (key value : Bytes) :
    Decidable (leaf.Blocked ndebug key value) :=
  inferInstanceAs (Decidable (_ ∧ _))

namespace Tree

/-- No internal node is ever allocated. -/
theorem allocateInternal_exec (tree : Tree) :
    allocateInternal.exec tree = (.ok none, { tree with mInternalNodes := tree.mInternalNodes ++ [none] }) :=
  rfl

/-- The split of an internal node without a sibling never returns. With assertions it always
gets at the sibling. -/
theorem onInternal_splitAndInsertNull (ndebug : Bool) (index : Nat) (key : Bytes) (child : NodePtr)
    (tree : Tree) :
    ∃ failure failed, (onInternal index (InternalNode.splitAndInsertNull ndebug key child)).exec tree =
        (.error failure, failed) ∧ (ndebug = false → failure = .nullDereference) := by
  cases hnode : tree.internalAt index with
  | none =>
    refine ⟨.nullDereference, tree, ?_, fun _ => rfl⟩
    rw [onInternal, Call.zoom, Call.exec_get_bind, hnode]
    rfl
  | some node =>
    obtain ⟨failure, hfails, hasserts⟩ := Ops.splitAndInsertNull_fails ndebug node key child
    refine ⟨failure, setInternal index node tree, ?_, hasserts⟩
    refine (Call.exec_zoom ?_).trans
      (congrArg (fun result => (result.1, setInternal index result.2 tree)) hfails)
    exact hnode

/-- How the root deals with a split of the child at a position. -/
def absorbed (ndebug : Bool) (nulls : Nat) (root : InternalNode) (leaves : List LeafNode) (position : Nat)
    (split : Split) : Except Failure Unit × Tree :=
  match split.sibling with
  | none => (.ok (), twoLevel nulls root leaves)
  | some sibling =>
    if root.TooBig split.key sibling then
      (.error (.invalidArgument "entry too big"), twoLevel nulls root leaves)
    else if root.LacksRoom split.key sibling then
      (((InternalNode.splitAndInsertNull ndebug split.key sibling).exec root).1,
        twoLevel (nulls + 1) root leaves)
    else
      (.ok (), twoLevel nulls (root.withEntry (if split.direction = .right then position + 1 else position)
        split.key sibling) leaves)

section TwoLevel

variable {nulls : Nat} {root : InternalNode} {leaves : List LeafNode} {index : Nat} {leaf : LeafNode}
  {key value : Bytes}

theorem exec_onLeaf {α : Type} (call : Call Failure LeafNode α) (hleaf : leaves[index]? = some leaf) :
    (onLeaf index call).exec (twoLevel nulls root leaves) =
      ((call.exec leaf).1, twoLevel nulls root (leaves.set index (call.exec leaf).2)) := by
  refine (Call.exec_zoom ?_).trans rfl
  exact hleaf

theorem exec_onLeaves {α : Type} (call : Call Failure (LeafNode × LeafNode) α) {sibling : Nat}
    {other : LeafNode} (hleaf : leaves[index]? = some leaf) (hother : leaves[sibling]? = some other) :
    (onLeaves index sibling call).exec (twoLevel nulls root leaves) =
      ((call.exec (leaf, other)).1,
        twoLevel nulls root ((leaves.set index (call.exec (leaf, other)).2.1).set sibling
          (call.exec (leaf, other)).2.2)) := by
  refine (Call.exec_zoom ?_).trans rfl
  change (leaves[index]?.bind fun leaf => leaves[sibling]?.bind fun other => some (leaf, other)) = _
  rw [hleaf, hother]
  rfl

theorem exec_onInternal {α : Type} (call : Call Failure InternalNode α) :
    (onInternal 0 call).exec (twoLevel nulls root leaves) =
      ((call.exec root).1, twoLevel nulls (call.exec root).2 leaves) := by
  refine (Call.exec_zoom ?_).trans rfl
  rfl

/-- The tree owns one more null pointer. -/
theorem exec_allocateInternal (nulls : Nat) (root : InternalNode) (leaves : List LeafNode) :
    allocateInternal.exec (twoLevel nulls root leaves) = (.ok none, twoLevel (nulls + 1) root leaves) := by
  rw [allocateInternal_exec, twoLevel, twoLevel, List.replicate_succ']
  rfl

theorem set_self (hleaf : leaves[index]? = some leaf) : leaves.set index leaf = leaves := by
  obtain ⟨hinside, rfl⟩ := List.getElem?_eq_some_iff.mp hleaf
  exact List.set_getElem_self hinside

/-- An insert at a leaf throws and changes nothing, fails the assertion, or settles
the entry. -/
theorem insertRecursive_leaf_exec (nulls : Nat) (root : InternalNode) (key value : Bytes) (search : ChildSearch)
    (ndebug : Bool) (fuel : Nat) (hleaf : leaves[index]? = some leaf) (h : leaf.Counted) :
    ∃ what failed,
      (insertRecursive search ndebug key value (fuel + 1) (.leaf index)).exec (twoLevel nulls root leaves) =
        if leaf.Refuses key value then (.error (.invalidArgument what), twoLevel nulls root leaves)
        else if leaf.Blocked ndebug key value then (.error .assertion, failed)
        else (.ok (), twoLevel nulls root (settled leaves index leaf key value)) := by
  unfold insertRecursive
  rw [Call.exec_bind, exec_onLeaf _ hleaf]
  by_cases hrefuses : leaf.Refuses key value
  · obtain ⟨what, hthrow⟩ := LeafNode.insert_of_refuses h.sorted hrefuses
    refine ⟨what, construct, ?_⟩
    rw [hthrow, if_pos hrefuses, set_self hleaf]
  by_cases hfull : leaf.FullFor key value
  · have hinside : index < leaves.length := (List.getElem?_eq_some_iff.mp hleaf).1
    have halloc : Tree.allocateLeaf.exec (twoLevel nulls root leaves) =
        (.ok leaves.length, twoLevel nulls root (leaves ++ [LeafNode.construct])) := rfl
    have hleaf' : (leaves ++ [LeafNode.construct])[index]? = some leaf := by
      rwa [List.getElem?_append_left hinside]
    obtain ⟨failed, hsplit⟩ := h.splitAndInsert_exec hfull ndebug (.leaf leaves.length)
    refine ⟨"",
      twoLevel nulls root (((leaves ++ [LeafNode.construct]).set index failed.1).set leaves.length failed.2), ?_⟩
    rw [LeafNode.insert_of_fullFor h.sorted hfull, if_neg hrefuses]
    dsimp only
    rw [set_self hleaf, if_pos (by decide), Call.exec_bind_ok (exec_assert ndebug rfl _),
      Call.exec_bind_ok halloc, exec_onLeaves _ hleaf' List.getElem?_concat_length, hsplit]
    by_cases hblocked : leaf.Blocked ndebug key value
    · rw [if_pos hblocked.2, if_pos hblocked]
    · rw [if_neg fun hassert => hblocked ⟨hfull, hassert⟩, if_neg hblocked, settled, if_pos hfull]
      rw [List.set_append_left _ _ hinside, List.set_append_right _ _ (by simp), List.length_set,
        Nat.sub_self]
      rfl
  · refine ⟨"", construct, ?_⟩
    rw [LeafNode.insert_of_room h.sorted hrefuses hfull, if_neg hrefuses,
      if_neg fun hblocked => hfull hblocked.1, settled, if_neg hfull]
    rfl

/-- The root ignores a child without a sibling, and otherwise gives the sibling an
entry or fails. -/
theorem absorbSplit_exec (ndebug : Bool) {position : Nat} (hleaf : leaves[index]? = some leaf)
    (hpos : position < root.mChildren.length) :
    (absorbSplit ndebug 0 position (.leaf index)).exec (twoLevel nulls root leaves) =
      absorbed ndebug nulls root leaves position leaf.mSplit := by
  have hsplit : (twoLevel nulls root leaves).splitAt (.leaf index) = some leaf.mSplit := by
    change (leaves[index]?).map Node.mSplit = _
    rw [hleaf]
    rfl
  unfold absorbSplit absorbed
  rw [Call.exec_get_bind, hsplit, exec_dereference_bind]
  cases leaf.mSplit.sibling with
  | none => rfl
  | some sibling =>
    dsimp only
    have hplace : (if leaf.mSplit.direction = .right then position + 1 else position) ≤
        root.mChildren.length := by
      split <;> omega
    have hinsert := Ops.insertAt_exec root leaf.mSplit.key sibling hplace
    unfold InternalNode.insertAt
    rw [Call.exec_bind, exec_onInternal, hinsert]
    by_cases hbig : root.TooBig leaf.mSplit.key sibling
    · rw [if_pos hbig, if_pos hbig]
    rw [if_neg hbig, if_neg hbig]
    by_cases hroom : root.LacksRoom leaf.mSplit.key sibling
    · rw [if_pos hroom, if_pos hroom]
      dsimp only
      obtain ⟨failure, hfails, _⟩ := Ops.splitAndInsertNull_fails ndebug root leaf.mSplit.key sibling
      rw [if_pos rfl, Call.exec_bind_ok (exec_allocateInternal nulls root leaves), exec_onInternal]
      rw [InternalNode.splitAndInsertNull, hfails]
    · rw [if_neg hroom, if_neg hroom]
      dsimp only
      rw [if_neg (by decide), exec_assert ndebug rfl]

/-- A root that lacks room gets at the missing sibling, unless with assertions disabled its split
finds the separator first. -/
theorem Linked.exec_splitAndInsertNull (h : Linked root leaves) (ndebug : Bool) {separator : Bytes}
    {child : NodePtr} (hsmall : ¬ 1024 < separator.data.length + 8) (hroom : root.LacksRoom separator child) :
    (InternalNode.splitAndInsertNull ndebug separator child).exec root =
      if ndebug = true ∧ root.FindsKey separator then
        (.error (.invalidArgument "duplicate key not allowed"), root)
      else (.error .nullDereference, root) := by
  have hbig : ¬ root.TooBig separator child := fun htoo => hsmall ((InternalNode.tooBig_iff _ _ _).mp htoo)
  have hneeded : ¬ root.SplitNotRequired separator child := by
    have hsize := h.three_le_length hsmall hroom
    rintro (hless | hfew)
    · exact absurd hroom (UInt64.lt_asymm hless)
    · omega
  rw [InternalNode.splitAndInsertNull, Ops.splitAndInsertNull_exec, if_neg hbig, if_neg hneeded]
  cases ndebug with
  | false => rfl
  | true =>
    rw [if_neg (by decide)]
    by_cases hfound : root.FindsKey separator
    · rw [if_pos hfound, if_pos ⟨rfl, hfound⟩]
    · rw [if_neg hfound, if_neg fun h => hfound h.2]

/-- An insert into a tree throws and changes nothing when the leaf refuses the
entry, fails the assertion when the leaf would be split a second time, and
otherwise settles the entry and offers the root the split that the leaf has on
record. -/
theorem LeadsTo.insert_exec {search : ChildSearch} {separator : Bytes} (hlinked : Linked root leaves)
    (h : LeadsTo search root leaves key separator index leaf) (nulls : Nat) (ndebug : Bool) (value : Bytes) :
    ∃ what failed, (Tree.insert search ndebug key value).exec (twoLevel nulls root leaves) =
      if leaf.Refuses key value then (.error (.invalidArgument what), twoLevel nulls root leaves)
      else if leaf.Blocked ndebug key value then (.error .assertion, failed)
      else absorbed ndebug nulls root (settled leaves index leaf key value) (search.find root key)
        (pending leaves leaf key value) := by
  have hcounted := hlinked.counted leaf (List.mem_of_getElem? h.leaf_eq)
  obtain ⟨what, failed, hchild⟩ := insertRecursive_leaf_exec nulls root key value
    search ndebug nulls h.leaf_eq hcounted
  refine ⟨what, failed, ?_⟩
  unfold Tree.insert
  rw [Call.exec_get_bind, length_mInternalNodes]
  change (insertRecursive search ndebug key value (nulls + 2) (.internal 0)).exec
    (twoLevel nulls root leaves) = _
  have hroot : (twoLevel nulls root leaves).internalAt 0 = some root := rfl
  unfold insertRecursive
  rw [Call.exec_get_bind, hroot, exec_dereference_bind]
  dsimp only
  rw [h.entry, exec_dereference_bind, Call.exec_bind, hchild]
  by_cases hrefuses : leaf.Refuses key value
  · rw [if_pos hrefuses, if_pos hrefuses]
  rw [if_neg hrefuses, if_neg hrefuses]
  by_cases hblocked : leaf.Blocked ndebug key value
  · rw [if_pos hblocked, if_pos hblocked]
  rw [if_neg hblocked, if_neg hblocked]
  dsimp only
  obtain ⟨after, hafter, hsplit⟩ := settled_getElem? h.leaf_eq key value
  rw [absorbSplit_exec ndebug hafter (List.getElem?_eq_some_iff.mp h.entry).1, hsplit]

/-- What an insert into a tree can come to, with the leaf that the key leads to. -/
inductive Outcome (ndebug : Bool) (nulls : Nat) (root : InternalNode) (leaves : List LeafNode) (index : Nat)
    (leaf : LeafNode) (key value : Bytes) : Except Failure Unit × Tree → Prop where
  | refused (hrefuses : leaf.Refuses key value) (what : String) :
    Outcome ndebug nulls root leaves index leaf key value
      (.error (.invalidArgument what), twoLevel nulls root leaves)
  | blocked (hblocked : leaf.Blocked ndebug key value) (failed : Tree) :
    Outcome ndebug nulls root leaves index leaf key value (.error .assertion, failed)
  | settled (hrefuses : ¬ leaf.Refuses key value) (hblocked : ¬ leaf.Blocked ndebug key value)
      (hsibling : (pending leaves leaf key value).sibling = none) :
    Outcome ndebug nulls root leaves index leaf key value
      (.ok (), twoLevel nulls root (settled leaves index leaf key value))
  | tooBig (hrefuses : ¬ leaf.Refuses key value) (hblocked : ¬ leaf.Blocked ndebug key value)
      (sibling : Nat) (hsibling : (pending leaves leaf key value).sibling = some (.leaf sibling))
      (hbig : 1024 < (pending leaves leaf key value).key.data.length + 8) :
    Outcome ndebug nulls root leaves index leaf key value
      (.error (.invalidArgument "entry too big"), twoLevel nulls root (settled leaves index leaf key value))
  | overflow (hrefuses : ¬ leaf.Refuses key value) (hblocked : ¬ leaf.Blocked ndebug key value)
      (sibling : Nat) (hsibling : (pending leaves leaf key value).sibling = some (.leaf sibling))
      (hbig : ¬ 1024 < (pending leaves leaf key value).key.data.length + 8)
      (hroom : root.LacksRoom (pending leaves leaf key value).key (.leaf sibling))
      (hnew : ¬ (ndebug = true ∧ root.FindsKey (pending leaves leaf key value).key)) (failed : Tree) :
    Outcome ndebug nulls root leaves index leaf key value (.error .nullDereference, failed)
  | repeated (hrefuses : ¬ leaf.Refuses key value) (hblocked : ¬ leaf.Blocked ndebug key value)
      (sibling : Nat) (hsibling : (pending leaves leaf key value).sibling = some (.leaf sibling))
      (hbig : ¬ 1024 < (pending leaves leaf key value).key.data.length + 8)
      (hroom : root.LacksRoom (pending leaves leaf key value).key (.leaf sibling))
      (hndebug : ndebug = true) (hfound : root.FindsKey (pending leaves leaf key value).key) :
    Outcome ndebug nulls root leaves index leaf key value
      (.error (.invalidArgument "duplicate key not allowed"),
        twoLevel (nulls + 1) root (Tree.settled leaves index leaf key value))
  | absorbed (hrefuses : ¬ leaf.Refuses key value) (hblocked : ¬ leaf.Blocked ndebug key value)
      (sibling : Nat) (hsibling : (pending leaves leaf key value).sibling = some (.leaf sibling))
      (hbig : ¬ 1024 < (pending leaves leaf key value).key.data.length + 8)
      (hspace : ¬ root.LacksRoom (pending leaves leaf key value).key (.leaf sibling))
      (position : Nat) (hpos : position ≤ root.mChildren.length)
      (hlinked : Linked (root.withEntry position (pending leaves leaf key value).key (.leaf sibling))
        (Tree.settled leaves index leaf key value)) :
    Outcome ndebug nulls root leaves index leaf key value
      (.ok (), twoLevel nulls (root.withEntry position (pending leaves leaf key value).key (.leaf sibling))
        (Tree.settled leaves index leaf key value))

theorem LeadsTo.outcome {search : ChildSearch} {separator : Bytes} (hlinked : Linked root leaves)
    (h : LeadsTo search root leaves key separator index leaf) (nulls : Nat) (ndebug : Bool) (value : Bytes) :
    Outcome ndebug nulls root leaves index leaf key value
      ((Tree.insert search ndebug key value).exec (twoLevel nulls root leaves)) := by
  obtain ⟨what, failed, hexec⟩ := h.insert_exec hlinked nulls ndebug value
  rw [hexec]
  by_cases hrefuses : leaf.Refuses key value
  · rw [if_pos hrefuses]
    exact .refused hrefuses what
  rw [if_neg hrefuses]
  by_cases hblocked : leaf.Blocked ndebug key value
  · rw [if_pos hblocked]
    exact .blocked hblocked failed
  rw [if_neg hblocked]
  have hsettled := hlinked.settled h.leaf_eq hrefuses
  obtain ⟨after, hafter, hsplit⟩ := settled_getElem? h.leaf_eq key value
  cases hsibling : (pending leaves leaf key value).sibling with
  | none =>
    rw [absorbed, hsibling]
    exact .settled hrefuses hblocked hsibling
  | some child =>
    obtain ⟨sibling, hinside, rfl⟩ :=
      hsettled.siblings after (List.mem_of_getElem? hafter) child (by rw [hsplit, hsibling])
    rw [absorbed, hsibling]
    dsimp only
    by_cases hbig : 1024 < (pending leaves leaf key value).key.data.length + 8
    · rw [if_pos ((InternalNode.tooBig_iff _ _ _).mpr hbig)]
      exact .tooBig hrefuses hblocked sibling hsibling hbig
    rw [if_neg fun htoo => hbig ((InternalNode.tooBig_iff _ _ _).mp htoo)]
    by_cases hroom : root.LacksRoom (pending leaves leaf key value).key (.leaf sibling)
    · rw [if_pos hroom, hlinked.exec_splitAndInsertNull ndebug hbig hroom]
      by_cases hnew : ndebug = true ∧ root.FindsKey (pending leaves leaf key value).key
      · rw [if_pos hnew]
        exact .repeated hrefuses hblocked sibling hsibling hbig hroom hnew.1 hnew.2
      · rw [if_neg hnew]
        exact .overflow hrefuses hblocked sibling hsibling hbig hroom hnew _
    rw [if_neg hroom]
    have hposition := (List.getElem?_eq_some_iff.mp h.entry).1
    have hpos : (if (pending leaves leaf key value).direction = .right then search.find root key + 1
        else search.find root key) ≤ root.mChildren.length := by
      split <;> omega
    exact .absorbed hrefuses hblocked sibling hsibling hbig hroom _ hpos (hsettled.withEntry hpos hinside hbig)

end TwoLevel

/-- An insert whose caller catches exceptions and goes on. -/
def insertCaught (search : ChildSearch) (ndebug : Bool) (tree : Tree) (entry : Bytes × Bytes) :
    Option Tree :=
  match (Tree.insert search ndebug entry.1 entry.2).exec tree with
  | (.ok (), tree) => some tree
  | (.error failure, tree) => if failure.isException then some tree else none

/-- A caught insert leaves a tree of the same height behind. -/
theorem Linked.insertCaught {nulls : Nat} {root : InternalNode} {leaves : List LeafNode}
    (h : Linked root leaves) {search : ChildSearch} {ndebug : Bool} {entry : Bytes × Bytes} {tree : Tree}
    (hstep : insertCaught search ndebug (twoLevel nulls root leaves) entry = some tree) :
    ∃ nulls' root' leaves', tree = twoLevel nulls' root' leaves' ∧ Linked root' leaves' := by
  obtain ⟨separator, index, leaf, hleads⟩ := h.exists_leadsTo search entry.1
  have houtcome := hleads.outcome h nulls ndebug entry.2
  unfold Tree.insertCaught at hstep
  generalize (Tree.insert search ndebug entry.1 entry.2).exec (twoLevel nulls root leaves) = result
    at hstep houtcome
  cases houtcome with
  | refused hrefuses what =>
    cases hstep
    exact ⟨nulls, root, leaves, rfl, h⟩
  | blocked hblocked failed => cases hstep
  | settled hrefuses hblocked hsibling =>
    cases hstep
    exact ⟨_, _, _, rfl, h.settled hleads.leaf_eq hrefuses⟩
  | tooBig hrefuses hblocked sibling hsibling hbig =>
    cases hstep
    exact ⟨_, _, _, rfl, h.settled hleads.leaf_eq hrefuses⟩
  | overflow hrefuses hblocked sibling hsibling hbig hroom hnew failed => cases hstep
  | repeated hrefuses hblocked sibling hsibling hbig hroom hndebug hfound =>
    cases hstep
    exact ⟨_, _, _, rfl, h.settled hleads.leaf_eq hrefuses⟩
  | absorbed hrefuses hblocked sibling hsibling hbig hspace position hpos hlinked =>
    cases hstep
    exact ⟨_, _, _, rfl, hlinked⟩

/-- Every tree that caught inserts reach has a root over leaves. -/
theorem reached_twoLevel {search : ChildSearch} {ndebug : Bool} {entries : List (Bytes × Bytes)}
    {tree : Tree} (hrun : run (insertCaught search ndebug) construct entries = some tree) :
    ∃ nulls root leaves, tree = twoLevel nulls root leaves ∧ Linked root leaves := by
  apply run.preserved (fun tree => ∃ nulls root leaves, tree = twoLevel nulls root leaves ∧ Linked root leaves)
    _ _ hrun
  · exact ⟨0, _, _, rfl, Linked.construct⟩
  · rintro tree entry tree' ⟨nulls, root, leaves, rfl, h⟩ hstep
    exact h.insertCaught hstep

/-- An entry of 1011 bytes. A leaf has room for four of them. -/
def thousand (key : byte) : Bytes × Bytes := (.repeated 1 key, .repeated 1010 0)

end Tree

end tupl.pvt.slow
