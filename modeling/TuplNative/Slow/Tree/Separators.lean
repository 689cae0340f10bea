import TuplNative.Slow.InternalNode.Split
import TuplNative.Slow.Tree.Insert

namespace tupl.pvt.slow

/-- The child of a split with the lower half of the keys. -/
def Split.lower (split : Split) (original sibling : NodePtr) : NodePtr :=
  match split.direction with
  | .left => sibling
  | .right => original

/-- The child of a split with the upper half of the keys. -/
def Split.upper (split : Split) (original sibling : NodePtr) : NodePtr :=
  match split.direction with
  | .left => original
  | .right => sibling

namespace InternalNode

/-- The keys that the child of an entry may hold: from the entry's key on and below
the next entry's. -/
def InRange (node : InternalNode) (position : Nat) (k : Bytes) : Prop :=
  ∀ entry, node.mChildren[position]? = some entry →
    entry.1 ≤ k ∧ ∀ next, node.mChildren[position + 1]? = some next → k < next.1

/-- Correct separators, for given keys of the children: the first key is the empty
one, the keys strictly increase, and every child holds keys of its entry's range only. -/
structure Separates (keysOf : NodePtr → Set Bytes) (node : InternalNode) : Prop where
  sentinel : node.mChildren.head?.map Prod.fst = some .empty
  sorted : Sorted node.mChildren
  ranges : ∀ position entry, node.mChildren[position]? = some entry →
    ∀ k ∈ keysOf entry.2, InRange node position k

/-- The child of an entry has just split: the entry's keys are spread over the child
and its sibling, with the split key between the two halves. -/
structure JustSplit (keysOf : NodePtr → Set Bytes) (node : InternalNode) (position : Nat)
    (next sibling : NodePtr) (split : Split) : Prop where
  recorded : split.sibling = some sibling
  inRange : ∀ k ∈ keysOf sibling, InRange node position k
  below : ∀ k ∈ keysOf (split.lower next sibling), k < split.key
  above : ∀ k ∈ keysOf (split.upper next sibling), split.key ≤ k
  lower_nonempty : (keysOf (split.lower next sibling)).Nonempty
  upper_nonempty : (keysOf (split.upper next sibling)).Nonempty

variable {keysOf : NodePtr → Set Bytes} {node : InternalNode} {position : Nat} {entry : Buffer × NodePtr}
  {sibling : NodePtr} {split : Split} {k : Bytes}

theorem Separates.inRange_iff (h : Separates keysOf node)
    (hentry : node.mChildren[position]? = some entry) :
    InRange node position k ↔ IsFloor {k | k ∈ node.mChildren.map Prod.fst} k entry.1 := by
  rw [h.sorted.isFloor_iff hentry]
  constructor
  · exact fun hrange => hrange entry hentry
  · intro hrange other hother
    rw [hentry] at hother
    obtain rfl := Option.some.inj hother
    exact hrange

/-- Ranges are floors, wherever the entries stand. -/
theorem separates_of_isFloor (hsentinel : node.mChildren.head?.map Prod.fst = some .empty)
    (hsorted : Sorted node.mChildren)
    (hfloor : ∀ e ∈ node.mChildren, ∀ k ∈ keysOf e.2,
      IsFloor {k | k ∈ node.mChildren.map Prod.fst} k e.1) : Separates keysOf node := by
  refine ⟨hsentinel, hsorted, fun position entry hentry k hk other hother => ?_⟩
  rw [hentry] at hother
  obtain rfl := Option.some.inj hother
  exact (hsorted.isFloor_iff hentry).mp (hfloor entry (List.mem_of_getElem? hentry) k hk)

/-- Both halves of the child are in its entry's range. -/
theorem JustSplit.halves_inRange (h : JustSplit keysOf node position entry.2 sibling split)
    (hseparates : Separates keysOf node) (hentry : node.mChildren[position]? = some entry) :
    (∀ k ∈ keysOf (split.lower entry.2 sibling), InRange node position k) ∧
      ∀ k ∈ keysOf (split.upper entry.2 sibling), InRange node position k := by
  have hown := hseparates.ranges position entry hentry
  have hsibling := h.inRange
  unfold Split.lower Split.upper
  cases split.direction with
  | left => exact ⟨hsibling, hown⟩
  | right => exact ⟨hown, hsibling⟩

/-- The split key lies strictly inside the range of the child's entry. -/
theorem JustSplit.key_inside (h : JustSplit keysOf node position entry.2 sibling split)
    (hseparates : Separates keysOf node) (hentry : node.mChildren[position]? = some entry) :
    entry.1 < split.key ∧ InRange node position split.key := by
  obtain ⟨low, hlow⟩ := h.lower_nonempty
  obtain ⟨up, hup⟩ := h.upper_nonempty
  obtain ⟨hlower, hupper⟩ := h.halves_inRange hseparates hentry
  have hlt : entry.1 < split.key := (hlower low hlow entry hentry).1.trans_lt (h.below low hlow)
  refine ⟨hlt, fun other hother => ?_⟩
  have hsame := hother
  rw [hentry] at hsame
  obtain rfl := Option.some.inj hsame
  exact ⟨hlt.le, fun next hnext => (h.above up hup).trans_lt ((hupper up hup entry hentry).2 next hnext)⟩

/-- Behind the child's entry is the place of the split key in key order. -/
theorem JustSplit.withEntry_behind (h : JustSplit keysOf node position entry.2 sibling split)
    (hseparates : Separates keysOf node) (hentry : node.mChildren[position]? = some entry) :
    (node.withEntry (position + 1) split.key sibling).mChildren =
      sortedInsert split.key sibling node.mChildren := by
  obtain ⟨hlt, hinside⟩ := h.key_inside hseparates hentry
  have hfloor := (hseparates.inRange_iff hentry).mp hinside
  have hposition : position < node.mChildren.length := (List.getElem?_eq_some_iff.mp hentry).1
  have hlength : (node.mChildren.take (position + 1)).length = position + 1 := by
    rw [List.length_take]
    omega
  have hbelow : ∀ e ∈ node.mChildren.take (position + 1), e.1 < split.key := by
    intro e he
    obtain ⟨i, hi⟩ := List.mem_iff_getElem?.mp he
    have hplace : i < position + 1 := hlength ▸ (List.getElem?_eq_some_iff.mp hi).1
    rw [List.getElem?_take_of_lt hplace] at hi
    rcases Nat.lt_or_eq_of_le (Nat.le_of_lt_succ hplace) with hbefore | rfl
    · exact (hseparates.sorted.key_lt_of_lt hi hentry hbefore).trans hlt
    · rw [hentry] at hi
      rwa [← Option.some.inj hi]
  have habove : ∀ e ∈ node.mChildren.drop (position + 1), split.key ≤ e.1 := by
    intro e he
    obtain ⟨i, hi⟩ := List.mem_iff_getElem?.mp he
    rw [List.getElem?_drop] at hi
    by_contra hbelow
    have hle : e.1 ≤ entry.1 :=
      hfloor.2 ⟨List.mem_map_of_mem (List.mem_of_mem_drop he), (not_le.mp hbelow).le⟩
    exact absurd (hseparates.sorted.key_lt_of_lt hentry hi (by omega)) (not_lt.mpr hle)
  have hinsert := insertIdx_append (node.mChildren.take (position + 1))
    (node.mChildren.drop (position + 1)) (split.key, sibling)
  rw [hlength, List.take_append_drop] at hinsert
  change node.mChildren.insertIdx (position + 1) (split.key, sibling) = _
  rw [hinsert, ← sortedInsert_append hbelow habove, List.take_append_drop]

/-- After a split to the right, the entry behind the child's own keeps the separators
correct. -/
theorem JustSplit.separates_behind (h : JustSplit keysOf node position entry.2 sibling split)
    (hseparates : Separates keysOf node) (hentry : node.mChildren[position]? = some entry)
    (hright : split.direction = .right) :
    Separates keysOf (node.withEntry (position + 1) split.key sibling) := by
  obtain ⟨hlt, hinside⟩ := h.key_inside hseparates hentry
  have hplaced := h.withEntry_behind hseparates hentry
  have hfloor := (hseparates.inRange_iff hentry).mp hinside
  have hupper : split.upper entry.2 sibling = sibling := by rw [Split.upper, hright]
  have hlower : split.lower entry.2 sibling = entry.2 := by rw [Split.lower, hright]
  have habsent : split.key ∉ node.mChildren.map Prod.fst :=
    fun hmem => absurd (hfloor.unique (IsFloor.refl hmem)) hlt.ne
  have hkeys : {k | k ∈ (sortedInsert split.key sibling node.mChildren).map Prod.fst} =
      Insert.insert split.key {k | k ∈ node.mChildren.map Prod.fst} := by
    ext k
    exact ((sortedInsert_perm split.key sibling node.mChildren).map Prod.fst).mem_iff.trans List.mem_cons
  refine separates_of_isFloor ?_ ?_ ?_
  · change (node.mChildren.insertIdx (position + 1) (split.key, sibling)).head?.map Prod.fst = _
    rw [← hseparates.sentinel]
    cases node.mChildren with
    | nil => rfl
    | cons first rest => rfl
  · rw [hplaced]
    exact hseparates.sorted.sortedInsert habsent
  · rw [hplaced, hkeys, forall_mem_sortedInsert]
    constructor
    · intro k hk
      have hup : k ∈ keysOf (split.upper entry.2 sibling) := by rwa [hupper]
      have hrange := (h.halves_inRange hseparates hentry).2 k hup
      exact hfloor.insert_self ((hseparates.inRange_iff hentry).mp hrange) (h.above k hup)
    · intro e he k hk
      obtain ⟨i, hi⟩ := List.mem_iff_getElem?.mp he
      have hold := (hseparates.inRange_iff hi).mp (hseparates.ranges i e hi k hk)
      by_cases hsame : e.1 = entry.1
      · have heq := hseparates.sorted.eq_of_key_eq he (List.mem_of_getElem? hentry) hsame
        rw [heq, ← hlower] at hk
        exact hold.insert_of_lt (h.below k hk)
      · exact hfloor.insert_of_ne hold hsame

/-- After a split to the left, the keys are out of order. -/
theorem JustSplit.not_separates_before (h : JustSplit keysOf node position entry.2 sibling split)
    (hseparates : Separates keysOf node) (hentry : node.mChildren[position]? = some entry) :
    ¬ Separates keysOf (node.withEntry position split.key sibling) := by
  intro hafter
  obtain ⟨hlt, _⟩ := h.key_inside hseparates hentry
  have hposition : position < node.mChildren.length := (List.getElem?_eq_some_iff.mp hentry).1
  have hnew : (node.mChildren.insertIdx position (split.key, sibling))[position]? =
      some (split.key, sibling) := by
    rw [List.getElem?_insertIdx_self, if_pos hposition.le]
  have hold : (node.mChildren.insertIdx position (split.key, sibling))[position + 1]? = some entry := by
    rw [List.getElem?_insertIdx_of_gt (Nat.lt_succ_self position)]
    exact hentry
  exact absurd (hafter.sorted.key_lt_of_lt hnew hold (Nat.lt_succ_self position)) hlt.not_gt

end InternalNode

namespace Tree

variable {tree tree' : Tree} {index : Nat} {cur : InternalNode}

theorem internalAt_setInternal (hcur : tree.internalAt index = some cur) (node : InternalNode) :
    (setInternal index node tree).internalAt index = some node := by
  have hinside : index < tree.mInternalNodes.length := by
    by_contra houtside
    rw [internalAt, List.getElem?_eq_none (Nat.le_of_not_lt houtside)] at hcur
    cases hcur
  rw [internalAt, setInternal, List.getElem?_set_self hinside]
  rfl

theorem internalAt_setInternal_of_ne {other : Nat} (hne : other ≠ index) (node : InternalNode) :
    (setInternal index node tree).internalAt other = tree.internalAt other := by
  rw [internalAt, setInternal, List.getElem?_set_ne hne.symm]
  rfl

theorem exec_onInternalAt {α : Type} (call : Call Failure InternalNode α)
    (hcur : tree.internalAt index = some cur) :
    (onInternal index call).exec tree =
      ((call.exec cur).1, setInternal index (call.exec cur).2 tree) := by
  refine (Call.exec_zoom ?_).trans rfl
  exact hcur

/-- When the step for a child that has split returns, it has found space for the
sibling's entry; without space its split has no node to move entries to. -/
theorem absorbSplit_returned {ndebug : Bool} {position : Nat} {next sibling : NodePtr} {split : Split}
    (hcur : tree.internalAt index = some cur) (hposition : position < cur.mChildren.length)
    (hsplit : tree.splitAt next = some split) (hsibling : split.sibling = some sibling)
    (hexec : (absorbSplit ndebug index position next).exec tree = (.ok (), tree')) :
    tree' = setInternal index (cur.withEntry
      (if split.direction = .right then position + 1 else position) split.key sibling) tree := by
  have hplace : (if split.direction = .right then position + 1 else position) ≤ cur.mChildren.length := by
    split <;> omega
  have hinsert := Ops.insertAt_exec cur split.key sibling hplace
  unfold absorbSplit InternalNode.insertAt at hexec
  rw [Call.exec_get_bind, hsplit, exec_dereference_bind, hsibling] at hexec
  dsimp only at hexec
  rw [Call.exec_bind, exec_onInternalAt _ hcur, hinsert] at hexec
  by_cases hbig : cur.TooBig split.key sibling
  · rw [if_pos hbig] at hexec
    cases hexec
  rw [if_neg hbig] at hexec
  by_cases hroom : cur.LacksRoom split.key sibling
  · rw [if_pos hroom] at hexec
    dsimp only at hexec
    rw [if_pos rfl, Call.exec_bind_ok (allocateInternal_exec _)] at hexec
    obtain ⟨failure, failed, hfails, _⟩ := onInternal_splitAndInsertNull ndebug index split.key sibling
      { setInternal index cur tree with
        mInternalNodes := (setInternal index cur tree).mInternalNodes ++ [none] }
    dsimp only at hexec
    rw [hfails] at hexec
    cases hexec
  rw [if_neg hroom] at hexec
  dsimp only at hexec
  rw [if_neg (by decide), exec_assert ndebug rfl] at hexec
  cases hexec
  rfl

/-- The step that gives the sibling of a split child an entry of its own leaves all
other nodes alone, and keeps the separators correct exactly when the child has split
to the right. After a split to the left the sibling with the lower half gets the
split key, which is meant for the upper half, and the old key stays with the upper
half. -/
theorem absorbSplit_separates_iff {keysOf : NodePtr → Set Bytes} {ndebug : Bool} {position : Nat}
    {entry : Buffer × NodePtr} {sibling : NodePtr} {split : Split}
    (hcur : tree.internalAt index = some cur) (hseparates : cur.Separates keysOf)
    (hentry : cur.mChildren[position]? = some entry) (hsplit : tree.splitAt entry.2 = some split)
    (hjust : cur.JustSplit keysOf position entry.2 sibling split)
    (hexec : (absorbSplit ndebug index position entry.2).exec tree = (.ok (), tree')) :
    tree'.mLeafNodes = tree.mLeafNodes ∧
      (∀ other, other ≠ index → tree'.internalAt other = tree.internalAt other) ∧
      ((∃ cur', tree'.internalAt index = some cur' ∧ cur'.Separates keysOf) ↔
        split.direction = .right) := by
  have hposition : position < cur.mChildren.length := (List.getElem?_eq_some_iff.mp hentry).1
  have htree := absorbSplit_returned hcur hposition hsplit hjust.recorded hexec
  subst htree
  refine ⟨rfl, fun other hother => internalAt_setInternal_of_ne hother _, ?_⟩
  rw [internalAt_setInternal hcur]
  constructor
  · rintro ⟨cur', hcur', hafter⟩
    obtain rfl := Option.some.inj hcur'
    by_contra hleft
    rw [if_neg hleft] at hafter
    exact hjust.not_separates_before hseparates hentry hafter
  · intro hright
    rw [if_pos hright]
    exact ⟨_, rfl, hjust.separates_behind hseparates hentry hright⟩

/-- A leaf with one key. -/
def oneKeyLeaf (split : Split) (key : byte) : LeafNode :=
  ⟨1, split, [(.repeated 1 key, .empty)]⟩

/-- The split of a leaf at the key 20. -/
def splitAtTwenty (direction : SiblingDirection) : Split :=
  ⟨some (.leaf 1), direction, .repeated 1 20⟩

/-- A tree whose only leaf has just split, with the keys 10 and 20. -/
def freshlySplit (direction : SiblingDirection) : Tree :=
  let noSplit : Split := ⟨none, .left, .empty⟩
  match direction with
  | .left => ⟨0, [oneKeyLeaf (splitAtTwenty .left) 20, oneKeyLeaf noSplit 10],
      [some (InternalNode.construct (.leaf 0))]⟩
  | .right => ⟨0, [oneKeyLeaf (splitAtTwenty .right) 10, oneKeyLeaf noSplit 20],
      [some (InternalNode.construct (.leaf 0))]⟩

/-- The keys that a child holds when all children are leaves. -/
def leafKeys (tree : Tree) : NodePtr → Set Bytes
  | .leaf index => {k | k ∈ (tree.mLeafNodes[index]?).elim [] fun leaf => leaf.mChildren.map Prod.fst}
  | .internal _ => ∅

theorem inRange_construct (k : Bytes) : (InternalNode.construct (.leaf 0)).InRange 0 k := by
  intro entry hentry
  obtain rfl := Option.some.inj hentry
  refine ⟨Bytes.empty_le k, fun next hnext => ?_⟩
  cases hnext

theorem freshlySplit_separates (direction : SiblingDirection) :
    (InternalNode.construct (.leaf 0)).Separates (leafKeys (freshlySplit direction)) := by
  refine ⟨rfl, List.pairwise_singleton _ _, fun position entry hentry k _ => ?_⟩
  cases position with
  | zero => exact inRange_construct k
  | succ position => cases hentry

theorem freshlySplit_justSplit (direction : SiblingDirection) :
    (InternalNode.construct (.leaf 0)).JustSplit (leafKeys (freshlySplit direction)) 0 (.leaf 0) (.leaf 1)
      (splitAtTwenty direction) := by
  have hlow : ∀ k ∈ [Bytes.fill 1 10 (by decide)], k < Bytes.fill 1 20 (by decide) := by decide
  have hup : ∀ k ∈ [Bytes.fill 1 20 (by decide)], Bytes.fill 1 20 (by decide) ≤ k := by decide
  cases direction with
  | left =>
    exact ⟨rfl, fun k _ => inRange_construct k, hlow, hup, ⟨_, List.mem_cons_self⟩, ⟨_, List.mem_cons_self⟩⟩
  | right =>
    exact ⟨rfl, fun k _ => inRange_construct k, hlow, hup, ⟨_, List.mem_cons_self⟩, ⟨_, List.mem_cons_self⟩⟩

/-- The tree after its root has dealt with the split. -/
def absorbTwenty (direction : SiblingDirection) : Except Failure Unit × Tree :=
  (absorbSplit false 0 0 (.leaf 0)).exec (freshlySplit direction)

theorem absorbSplit_separates_right :
    ∃ cur', (absorbTwenty .right).2.internalAt 0 = some cur' ∧
      cur'.Separates (leafKeys (freshlySplit .right)) := by
  have hcur : (freshlySplit .right).internalAt 0 = some (InternalNode.construct (.leaf 0)) := rfl
  have hentry : (InternalNode.construct (.leaf 0)).mChildren[0]? = some (.empty, .leaf 0) := rfl
  have hreturned : absorbTwenty .right = (.ok (), (absorbTwenty .right).2) := rfl
  exact (absorbSplit_separates_iff hcur (freshlySplit_separates .right) hentry rfl
    (freshlySplit_justSplit .right) hreturned).2.2.mpr rfl

/-- The root of the tree that has split to the left has the sentinel behind the new
entry. -/
theorem not_absorbSplit_separates_left :
    (InternalNode.construct (.leaf 0)).Separates (leafKeys (freshlySplit .left)) ∧
      (InternalNode.construct (.leaf 0)).JustSplit (leafKeys (freshlySplit .left)) 0 (.leaf 0) (.leaf 1)
        (splitAtTwenty .left) ∧
      (absorbTwenty .left).1 = .ok () ∧
      ¬ ∃ cur', (absorbTwenty .left).2.internalAt 0 = some cur' ∧
        cur'.Separates (leafKeys (freshlySplit .left)) := by
  refine ⟨freshlySplit_separates .left, freshlySplit_justSplit .left, rfl, ?_⟩
  rintro ⟨cur', hcur', hafter⟩
  have hfirst : ((absorbTwenty .left).2.internalAt 0).bind (fun node => node.mChildren.head?.map Prod.fst) =
      some (.fill 1 20 (by decide)) := rfl
  rw [hcur', Option.bind_some, hafter.sentinel] at hfirst
  exact absurd hfirst (by decide)

end Tree

end tupl.pvt.slow
