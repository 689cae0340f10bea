import TuplNative.Slow.Node.ByteCount
import TuplNative.Slow.Node.Split

namespace tupl.pvt.slow

section Halves

variable {V : Type}

/-- The node with the lower keys after a split, by the direction on record. -/
def lowerNode (nodes : Node V × Node V) : Node V :=
  match nodes.1.mSplit.direction with
  | .left => nodes.2
  | .right => nodes.1

/-- The node with the higher keys after a split, by the direction on record. -/
def upperNode (nodes : Node V × Node V) : Node V :=
  match nodes.1.mSplit.direction with
  | .left => nodes.1
  | .right => nodes.2

/-- How many of a node's keys are smaller than a key. -/
def Node.smallerKeys (node : Node V) (key : Bytes) : Nat :=
  (node.mChildren.map Prod.fst).countP (fun k => decide (k < key))

/-- A node cut in two: the entry at the cut, whose key becomes the split key, with
the entries below and above it. -/
structure Node.Cut (node : Node V) (low : List (Buffer × V)) (middle : Buffer × V)
    (up : List (Buffer × V)) : Prop where
  children : node.mChildren = low ++ middle :: up
  length : low.length = node.splitBegin
  splitKey : node.splitKey = middle.1

theorem Node.exists_cut {node : Node V} (hsize : 3 ≤ node.mChildren.length) :
    ∃ low middle up, node.Cut low middle up := by
  have hinside : node.splitBegin < node.mChildren.length := by
    unfold Node.splitBegin
    omega
  refine ⟨node.mChildren.take node.splitBegin, node.mChildren[node.splitBegin],
    node.mChildren.drop (node.splitBegin + 1), ?_, ?_, ?_⟩
  · rw [← List.drop_eq_getElem_cons hinside, List.take_append_drop]
  · rw [List.length_take]
    omega
  · rw [Node.splitKey, keyAt, List.getElem?_eq_getElem hinside]
    rfl

variable {node : Node V} {low up : List (Buffer × V)} {middle : Buffer × V} {key : Bytes}

theorem Node.insertIt_eq (hsorted : Sorted node.mChildren) (key : Bytes) :
    node.insertIt key = node.smallerKeys key := by
  rw [Node.insertIt, Node.smallerKeys, List.countP_map, funext (keyLesser_eq (V := V) key)]
  exact hsorted.lowerBound_eq_countP key

/-- The place of a key is up to a seam exactly when no key above the seam is smaller. -/
theorem Node.insertIt_le_iff (hcut : node.mChildren = low ++ up) (hsorted : Sorted node.mChildren) :
    node.insertIt key ≤ low.length ↔ ∀ e ∈ up, key ≤ e.1 := by
  rw [node.insertIt_eq hsorted, Node.smallerKeys, List.countP_map, hcut]
  exact Sorted.countP_le_iff (hcut ▸ hsorted)

/-- The place of a key is from a seam on exactly when all keys below the seam are smaller. -/
theorem Node.le_insertIt_iff (hcut : node.mChildren = low ++ up) (hsorted : Sorted node.mChildren) :
    low.length ≤ node.insertIt key ↔ ∀ e ∈ low, e.1 < key := by
  rw [node.insertIt_eq hsorted, Node.smallerKeys, List.countP_map, hcut]
  exact Sorted.le_countP_iff (hcut ▸ hsorted)

theorem Node.Cut.insertIt_eq (h : node.Cut low middle up) (hsorted : Sorted node.mChildren)
    (key : Bytes) :
    node.insertIt key = low.countP (fun e => decide (e.1 < key)) +
      (middle :: up).countP (fun e => decide (e.1 < key)) := by
  rw [node.insertIt_eq hsorted, Node.smallerKeys, List.countP_map, h.children]
  exact List.countP_append

/-- A key belongs behind the entry at the cut exactly when it is above the split key. -/
theorem Node.Cut.lt_insertIt_iff (h : node.Cut low middle up) (hsorted : Sorted node.mChildren) :
    node.splitBegin < node.insertIt key ↔ middle.1 < key := by
  have hchildren : node.mChildren = (low ++ [middle]) ++ up := by
    rw [h.children, List.append_assoc]
    rfl
  have hplace : node.splitBegin < node.insertIt key ↔ ∀ e ∈ low ++ [middle], e.1 < key := by
    rw [← node.le_insertIt_iff hchildren hsorted, List.length_append, h.length]
    exact Iff.rfl
  have hsplits : Sorted (low ++ middle :: up) := h.children ▸ hsorted
  rw [hplace]
  constructor
  · exact fun hbelow => hbelow middle (List.mem_append_right _ List.mem_cons_self)
  · intro hlt e he
    cases List.mem_append.mp he with
    | inl he => exact ((List.pairwise_append.mp hsplits).2.2 e he middle List.mem_cons_self).trans hlt
    | inr he => exact List.mem_singleton.mp he ▸ hlt

/-- The entries from the cut on are the ones from the split key on. -/
theorem Node.Cut.separates (h : node.Cut low middle up) (hsorted : Sorted node.mChildren) :
    (∀ e ∈ low, e.1 < middle.1) ∧ ∀ e ∈ middle :: up, middle.1 ≤ e.1 := by
  have hsplits : Sorted (low ++ middle :: up) := h.children ▸ hsorted
  obtain ⟨_, hupper, hcross⟩ := List.pairwise_append.mp hsplits
  refine ⟨fun e he => hcross e he middle List.mem_cons_self, ?_⟩
  intro e he
  cases List.mem_cons.mp he with
  | inl heq => exact le_of_eq (congrArg Prod.fst heq.symm)
  | inr he => exact ((List.pairwise_cons.mp hupper).1 e he).le

/-- A key whose place is before the cut is below the split key. -/
theorem Node.Cut.lt_of_insertIt_lt (h : node.Cut low middle up) (hsorted : Sorted node.mChildren)
    (hplace : node.insertIt key < node.splitBegin) : key < middle.1 := by
  have hnotall := mt (node.le_insertIt_iff h.children hsorted).mpr (h.length ▸ Nat.not_le.mpr hplace)
  push Not at hnotall
  obtain ⟨e, he, hle⟩ := hnotall
  exact hle.trans_lt ((h.separates hsorted).1 e he)

variable [NodeValue V]

/-- A split that returned has passed its checks and cut the original in two. -/
theorem Ops.splitAndInsert_returned {ndebug : Bool} {sibling : NodePtr} {original siblingNode : Node V}
    {value : V} {nodes : Node V × Node V}
    (hexec : (Ops.splitAndInsert ndebug sibling key value).exec (original, siblingNode) = (.ok (), nodes)) :
    ¬ original.TooBig key value ∧ ¬ original.SplitNotRequired key value ∧
      ¬ keyEqualsAt key original.mChildren (original.insertIt key) = true ∧
      nodes = (original.afterSplit sibling key, siblingNode.grown (original.moved key value)) := by
  obtain ⟨outcome, ended, hended, houtcome⟩ :=
    Ops.splitAndInsert_outcome ndebug sibling original siblingNode key value
  rw [hexec] at hended
  cases hended
  cases houtcome with
  | returned hsmall hneeded habsent => exact ⟨hsmall, hneeded, habsent, rfl⟩

theorem Node.three_le_length_of_needed {value : V} (h : ¬ node.SplitNotRequired key value) :
    3 ≤ node.mChildren.length := by
  by_contra hsmall
  exact h (Or.inr (Nat.lt_of_not_le hsmall))

/-- What is left of the entry at the cut once its key is given up. -/
def leftBehind (middle : Buffer × V) : Buffer × V :=
  if NodeValue.nodeType V = .leaf then middle else (.empty, middle.2)

theorem Node.Cut.givenUp_eq (h : node.Cut low middle up) :
    node.givenUp = low ++ leftBehind middle :: up := by
  have hmodify : (low ++ middle :: up).modify low.length (fun kv => (.empty, kv.2)) =
      low ++ (.empty, middle.2) :: up :=
    List.modifyTailIdx_add _ 0 low (middle :: up)
  unfold Node.givenUp leftBehind Node.type
  rw [← h.length, h.children]
  by_cases hleaf : NodeValue.nodeType V = .leaf
  · rw [if_pos hleaf, if_pos hleaf]
  · rw [if_neg hleaf, if_neg hleaf, hmodify]

section Moved

variable {value : V}

/-- Before the cut, the lower half moves out with the new entry in it. -/
theorem Node.Cut.moved_before (h : node.Cut low middle up) (hsorted : Sorted node.mChildren)
    (hplace : node.insertIt key < node.splitBegin) :
    node.moved key value = sortedInsert key value low ∧ node.kept key = leftBehind middle :: up := by
  have hsplits : Sorted (low ++ middle :: up) := h.children ▸ hsorted
  have hlow : Sorted low := hsplits.of_sublist (List.sublist_append_left _ _)
  have habove : ∀ e ∈ middle :: up, key ≤ e.1 := by
    rw [← node.insertIt_le_iff h.children hsorted, h.length]
    exact hplace.le
  have hnone : (middle :: up).countP (fun e => decide (e.1 < key)) = 0 :=
    List.countP_eq_zero.mpr fun e he hlt => absurd (of_decide_eq_true hlt) (not_lt.mpr (habove e he))
  rw [Node.moved, Node.kept, if_pos hplace, if_pos hplace, h.givenUp_eq, ← h.length, List.take_left,
    List.drop_left, h.insertIt_eq hsorted, hnone, Nat.add_zero, hlow.insertIdx_countP]
  exact ⟨rfl, rfl⟩

/-- At the cut, the new entry moves out in front of the upper half. -/
theorem Node.Cut.moved_at (h : node.Cut low middle up) (hplace : node.insertIt key = node.splitBegin) :
    node.moved key value = (key, value) :: leftBehind middle :: up ∧ node.kept key = low := by
  have hright : ¬ node.SplitsLeft key := Nat.not_lt.mpr hplace.ge
  rw [Node.moved, Node.kept, if_neg hright, if_neg hright, hplace, Nat.sub_self, h.givenUp_eq,
    ← h.length, List.take_left, List.drop_left, List.insertIdx_zero]
  exact ⟨rfl, rfl⟩

/-- Behind the cut, the upper half moves out with the new entry in it, behind the
entry at the cut. -/
theorem Node.Cut.moved_behind (h : node.Cut low middle up) (hsorted : Sorted node.mChildren)
    (hplace : node.splitBegin < node.insertIt key) :
    node.moved key value = leftBehind middle :: sortedInsert key value up ∧ node.kept key = low := by
  have hsplits : Sorted (low ++ middle :: up) := h.children ▸ hsorted
  have hup : Sorted up := hsplits.of_sublist
    ((List.sublist_cons_self _ _).trans (List.sublist_append_right _ _))
  have hlt : middle.1 < key := (h.lt_insertIt_iff hsorted).mp hplace
  have hall : low.countP (fun e => decide (e.1 < key)) = node.splitBegin := by
    rw [← h.length]
    exact List.countP_eq_length.mpr fun e he => decide_eq_true (((h.separates hsorted).1 e he).trans hlt)
  have hmiddle : (middle :: up).countP (fun e => decide (e.1 < key)) =
      up.countP (fun e => decide (e.1 < key)) + 1 :=
    List.countP_cons_of_pos (decide_eq_true hlt)
  have hright : ¬ node.SplitsLeft key := Nat.not_lt.mpr hplace.le
  rw [Node.moved, Node.kept, if_neg hright, if_neg hright, h.insertIt_eq hsorted, hall,
    Nat.add_sub_cancel_left, hmiddle, h.givenUp_eq, ← h.length, List.take_left,
    List.drop_left, List.insertIdx_succ_cons, hup.insertIdx_countP]
  exact ⟨rfl, rfl⟩

end Moved

section Lengths

variable (node) (key) (value : V)

theorem Node.length_kept : node.mChildren.length / 2 ≤ (node.kept key).length := by
  have hlength := node.givenUp_length
  have hcut : node.splitBegin = (node.mChildren.length + 1) / 2 := rfl
  unfold Node.kept
  by_cases hleft : node.SplitsLeft key
  · rw [if_pos hleft, List.length_drop]
    omega
  · rw [if_neg hleft, List.length_take]
    omega

theorem Node.length_moved : node.mChildren.length / 2 + 1 ≤ (node.moved key value).length := by
  have hlength := node.givenUp_length
  have hinside : node.insertIt key ≤ node.mChildren.length := std.lowerBound_le_length _ _
  have hcut : node.splitBegin = (node.mChildren.length + 1) / 2 := rfl
  unfold Node.moved
  by_cases hleft : node.SplitsLeft key
  · have hplace : node.insertIt key < node.splitBegin := hleft
    rw [if_pos hleft, List.length_insertIdx_of_le_length]
    · rw [List.length_take]
      omega
    · rw [List.length_take]
      omega
  · have hplace : ¬ node.insertIt key < node.splitBegin := hleft
    rw [if_neg hleft, List.length_insertIdx_of_le_length]
    · rw [List.length_drop]
      omega
    · rw [List.length_drop]
      omega

/-- A split of four entries or more leaves two in each node. -/
theorem Node.two_le_length_split (hsize : 4 ≤ node.mChildren.length) (siblingNode : Node V)
    (sibling : NodePtr) :
    2 ≤ (node.afterSplit sibling key).mChildren.length ∧
      2 ≤ (siblingNode.grown (node.moved key value)).mChildren.length := by
  have hkept := node.length_kept key
  have hmoved := node.length_moved key value
  constructor
  · change 2 ≤ (node.kept key).length
    omega
  · change 2 ≤ (siblingNode.mChildren ++ node.moved key value).length
    rw [List.length_append]
    omega

end Lengths

/-- The bytes of both nodes are those of both sides. -/
theorem storedBytes_sides (nodes : Node V × Node V) :
    storedBytes nodes.1.mChildren + storedBytes nodes.2.mChildren =
      storedBytes ((lowerNode nodes).mChildren ++ (upperNode nodes).mChildren) := by
  rw [storedBytes_append, lowerNode, upperNode]
  cases nodes.1.mSplit.direction with
  | left => exact Nat.add_comm _ _
  | right => rfl

section Sides

variable {siblingNode : Node V} {sibling : NodePtr} {value : V}

/-- The node with the lower keys is the sibling when the lower half moved out. -/
theorem lowerNode_afterSplit (hempty : siblingNode.mChildren = []) :
    (lowerNode (node.afterSplit sibling key, siblingNode.grown (node.moved key value))).mChildren =
      if node.SplitsLeft key then node.moved key value else node.kept key := by
  by_cases hleft : node.SplitsLeft key
  · have hrecord : (node.afterSplit sibling key).mSplit.direction = .left := if_pos hleft
    rw [lowerNode, hrecord, if_pos hleft]
    change siblingNode.mChildren ++ node.moved key value = _
    rw [hempty, List.nil_append]
  · have hrecord : (node.afterSplit sibling key).mSplit.direction = .right := if_neg hleft
    rw [lowerNode, hrecord, if_neg hleft]
    rfl

theorem upperNode_afterSplit (hempty : siblingNode.mChildren = []) :
    (upperNode (node.afterSplit sibling key, siblingNode.grown (node.moved key value))).mChildren =
      if node.SplitsLeft key then node.kept key else node.moved key value := by
  by_cases hleft : node.SplitsLeft key
  · have hrecord : (node.afterSplit sibling key).mSplit.direction = .left := if_pos hleft
    rw [upperNode, hrecord, if_pos hleft]
    rfl
  · have hrecord : (node.afterSplit sibling key).mSplit.direction = .right := if_neg hleft
    rw [upperNode, hrecord, if_neg hleft]
    change siblingNode.mChildren ++ node.moved key value = _
    rw [hempty, List.nil_append]

/-- The three outcomes of a split into an empty sibling: the lower half takes the
new entry, or the upper half takes it before what is left of the entry at the cut,
or behind it. -/
theorem Node.Cut.halves_cases (h : node.Cut low middle up) (hsorted : Sorted node.mChildren)
    (hempty : siblingNode.mChildren = []) {nodes : Node V × Node V}
    (hnodes : nodes = (node.afterSplit sibling key, siblingNode.grown (node.moved key value))) :
    (node.insertIt key < node.splitBegin ∧ (lowerNode nodes).mChildren = sortedInsert key value low ∧
        (upperNode nodes).mChildren = leftBehind middle :: up) ∨
      (node.insertIt key = node.splitBegin ∧ (lowerNode nodes).mChildren = low ∧
        (upperNode nodes).mChildren = (key, value) :: leftBehind middle :: up) ∨
      (node.splitBegin < node.insertIt key ∧ (lowerNode nodes).mChildren = low ∧
        (upperNode nodes).mChildren = leftBehind middle :: sortedInsert key value up) := by
  subst hnodes
  rw [lowerNode_afterSplit hempty, upperNode_afterSplit hempty]
  rcases Nat.lt_trichotomy (node.insertIt key) node.splitBegin with hplace | hplace | hplace
  · obtain ⟨hmoved, hkept⟩ := h.moved_before hsorted hplace
    rw [if_pos hplace, if_pos hplace]
    exact Or.inl ⟨hplace, hmoved, hkept⟩
  · obtain ⟨hmoved, hkept⟩ := h.moved_at hplace
    rw [if_neg (Nat.not_lt.mpr hplace.ge), if_neg (Nat.not_lt.mpr hplace.ge)]
    exact Or.inr (Or.inl ⟨hplace, hkept, hmoved⟩)
  · obtain ⟨hmoved, hkept⟩ := h.moved_behind hsorted hplace
    rw [if_neg (Nat.not_lt.mpr hplace.le), if_neg (Nat.not_lt.mpr hplace.le)]
    exact Or.inr (Or.inr ⟨hplace, hkept, hmoved⟩)

/-- The lower half followed by the upper half is a sorted insertion, up to what the
entry at the cut gives up. -/
theorem Node.Cut.map_halves (h : node.Cut low middle up) (hsorted : Sorted node.mChildren)
    (hempty : siblingNode.mChildren = []) {nodes : Node V × Node V}
    (hnodes : nodes = (node.afterSplit sibling key, siblingNode.grown (node.moved key value)))
    {β : Type} (f : Buffer × V → β) (hf : f (leftBehind middle) = f middle) :
    ((lowerNode nodes).mChildren ++ (upperNode nodes).mChildren).map f =
      (sortedInsert key value node.mChildren).map f := by
  rw [h.children]
  rcases h.halves_cases hsorted hempty hnodes with
    ⟨hplace, hlower, hupper⟩ | ⟨hplace, hlower, hupper⟩ | ⟨hplace, hlower, hupper⟩
  · have habove : ∀ e ∈ middle :: up, key ≤ e.1 := by
      rw [← node.insertIt_le_iff h.children hsorted, h.length]
      exact hplace.le
    rw [hlower, hupper, sortedInsert_append_left habove]
    simp only [List.map_append, List.map_cons, hf]
  · have habove : ∀ e ∈ middle :: up, key ≤ e.1 := by
      rw [← node.insertIt_le_iff h.children hsorted, h.length]
      exact hplace.le
    have hbelow : ∀ e ∈ low, e.1 < key := by
      rw [← node.le_insertIt_iff h.children hsorted, h.length]
      exact hplace.ge
    rw [hlower, hupper, sortedInsert_append hbelow habove]
    simp only [List.map_append, List.map_cons, hf]
  · have hlt : middle.1 < key := (h.lt_insertIt_iff hsorted).mp hplace
    have hbelow : ∀ e ∈ low, e.1 < key := fun e he => ((h.separates hsorted).1 e he).trans hlt
    rw [hlower, hupper, sortedInsert_append_right hbelow, sortedInsert_cons_of_lt hlt]
    simp only [List.map_append, List.map_cons, hf]

end Sides

end Halves

end tupl.pvt.slow
