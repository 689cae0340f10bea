import TuplNative.Run
import TuplNative.Slow.LeafNode.Halves
import TuplNative.Slow.Node.Rejection

namespace tupl.pvt.slow.LeafNode

section Agreement

variable {original siblingNode : LeafNode} {key value : Bytes} {ndebug : Bool} {sibling : NodePtr}

/-- A split is turned down as not required exactly when an insert on the same leaf
succeeds, and what a split accepts leaves two entries in each node. -/
def AgreeOnSplit (ndebug : Bool) (sibling : NodePtr) (original siblingNode : LeafNode) (key value : Bytes) :
    Prop :=
  (((LeafNode.splitAndInsert ndebug sibling key value).exec (original, siblingNode)).1 =
      .error (.domainError "split is not required") ↔
    ((LeafNode.insert key value).exec original).1 = .ok .inserted) ∧
  ∀ nodes, (LeafNode.splitAndInsert ndebug sibling key value).exec (original, siblingNode) =
      (.ok (), nodes) → 2 ≤ nodes.1.mChildren.length ∧ 2 ≤ nodes.2.mChildren.length

/-- The free space of a leaf within its capacity. -/
theorem free_toNat (hwithin : original.bytes ≤ original.capacity) :
    (original.capacity - original.bytes).toNat = 4096 - original.bytes.toNat := by
  rw [UInt64.toNat_sub_of_le _ _ hwithin, capacity_toNat]

theorem not_refuses (habsent : key ∉ original.keys)
    (hentry : key.data.length + value.data.length ≤ 1024) : ¬ original.Refuses key value := by
  rintro (hmem | hbig)
  · exact habsent hmem
  · rw [original.tooBig_iff, leaf_entrySize_toNat] at hbig
    omega

/-- An accepted entry is inserted when it takes no more than the free space. -/
theorem inserted_iff (hsorted : Sorted original.mChildren) (hwithin : original.bytes ≤ original.capacity)
    (hrefuses : ¬ original.Refuses key value) :
    ((LeafNode.insert key value).exec original).1 = .ok .inserted ↔
      key.data.length + value.data.length ≤ 4096 - original.bytes.toNat := by
  have hlacks : original.LacksRoom key value ↔
      4096 - original.bytes.toNat < key.data.length + value.data.length := by
    rw [Node.LacksRoom, UInt64.lt_iff_toNat_lt, free_toNat hwithin, leaf_entrySize_toNat]
  by_cases hfull : original.FullFor key value
  · have hroom := hlacks.mp hfull.2
    rw [insert_of_fullFor hsorted hfull]
    exact iff_of_false (fun h => by cases h) (Nat.not_le.mpr hroom)
  · have hroom := mt hlacks.mpr fun hlacks => hfull ⟨hrefuses, hlacks⟩
    rw [insert_of_room hsorted hrefuses hfull]
    exact iff_of_true rfl (Nat.le_of_not_lt hroom)

/-- A split for an accepted entry is turned down when the entry takes less than the
free space. -/
theorem notRequired_iff (hsize : 3 ≤ original.mChildren.length)
    (hwithin : original.bytes ≤ original.capacity) (hrefuses : ¬ original.Refuses key value) :
    ((LeafNode.splitAndInsert ndebug sibling key value).exec (original, siblingNode)).1 =
        .error (.domainError "split is not required") ↔
      key.data.length + value.data.length < 4096 - original.bytes.toNat := by
  have hneeded : original.SplitNotRequired key value ↔
      key.data.length + value.data.length < 4096 - original.bytes.toNat := by
    rw [Node.SplitNotRequired, UInt64.lt_iff_toNat_lt, free_toNat hwithin, leaf_entrySize_toNat]
    exact or_iff_left (Nat.not_lt.mpr hsize)
  rw [← hneeded]
  unfold LeafNode.splitAndInsert
  rw [Ops.splitAndInsert_exec, if_neg fun hbig => hrefuses (Or.inr hbig)]
  by_cases hnot : original.SplitNotRequired key value
  · rw [if_pos hnot]
    exact iff_of_true rfl hnot
  · rw [if_neg hnot]
    refine iff_of_false ?_ hnot
    split
    · intro h
      cases h
    · split
      · intro h
        cases h
      · intro h
        cases h

/-- An insert and a split agree exactly when the entry does not fill the leaf to the
last byte. An exact fit is room enough for the insert, but not for the split, which
compares with `<`. -/
theorem agreeOnSplit_iff (hsize : 3 ≤ original.mChildren.length) (hsorted : Sorted original.mChildren)
    (heach : ∀ e ∈ original.mChildren, (entrySize e).toNat ≤ original.capacity.toNat / 4)
    (hcounted : original.bytes.toNat = storedBytes original.mChildren)
    (hwithin : original.bytes ≤ original.capacity) (habsent : key ∉ original.keys)
    (hentry : key.data.length + value.data.length ≤ original.capacity.toNat / 4) :
    AgreeOnSplit ndebug sibling original siblingNode key value ↔
      original.bytes.toNat + (key.data.length + value.data.length) ≠ original.capacity.toNat := by
  rw [capacity_toNat] at heach hentry ⊢
  have hle : original.bytes.toNat ≤ 4096 := by
    rw [← capacity_toNat original]
    exact UInt64.le_iff_toNat_le.mp hwithin
  have hrefuses := not_refuses habsent hentry
  rw [AgreeOnSplit, notRequired_iff hsize hwithin hrefuses, inserted_iff hsorted hwithin hrefuses]
  constructor
  · rintro ⟨hagree, _⟩ hfits
    omega
  · intro hfits
    refine ⟨by omega, fun nodes hexec => ?_⟩
    obtain ⟨_, hneeded, _, hnodes⟩ := Ops.splitAndInsert_returned hexec
    have hcount : original.Counted := by
      refine ⟨hsorted, heach, ?_⟩
      rw [hcounted]
      omega
    have hfull : original.FullFor key value := by
      refine ⟨hrefuses, ?_⟩
      have hnot := mt (Or.inl (b := original.mChildren.length < 3)) hneeded
      rw [UInt64.lt_iff_toNat_lt, free_toNat hwithin, leaf_entrySize_toNat] at hnot
      rw [Node.LacksRoom, UInt64.lt_iff_toNat_lt, free_toNat hwithin, leaf_entrySize_toNat]
      omega
    rw [hnodes]
    exact original.two_le_length_split key value (hcount.four_le_length hfull) siblingNode sibling

/-- Three entries of the maximum size, which leave room for exactly one more. -/
def threeQuarters : LeafNode :=
  ⟨3072, ⟨none, .left, .empty⟩, [2, 3, 4].map fun b =>
    (Bytes.repeated 1 b, Bytes.repeated 1023 0)⟩

theorem threeQuarters_sorted : Sorted threeQuarters.mChildren := by
  unfold Sorted
  decide +kernel

theorem agreeOnSplit_smallEntry :
    AgreeOnSplit false (.leaf 1) threeQuarters LeafNode.construct (.fill 1 1 (by decide)) .empty :=
  (agreeOnSplit_iff (by decide) threeQuarters_sorted (by decide +kernel) (by decide +kernel)
    (by decide +kernel) (by decide +kernel) (by decide +kernel)).mpr (by decide +kernel)

/-- The insert succeeds, and yet the split is accepted and leaves the original one entry. -/
theorem not_agreeOnSplit_lastQuarter :
    Sorted threeQuarters.mChildren ∧ Bytes.fill 1 1 (by decide) ∉ threeQuarters.keys ∧
      ((LeafNode.insert (.fill 1 1 (by decide)) (.fill 1023 0 (by decide))).exec threeQuarters).1 =
        .ok .inserted ∧
      (((LeafNode.splitAndInsert false (.leaf 1) (.fill 1 1 (by decide)) (.fill 1023 0 (by decide))).exec
        (threeQuarters, LeafNode.construct)).2.1).mChildren.length = 1 ∧
      ¬ AgreeOnSplit false (.leaf 1) threeQuarters LeafNode.construct (.fill 1 1 (by decide))
        (.fill 1023 0 (by decide)) := by
  have hinserted : ((LeafNode.insert (.fill 1 1 (by decide)) (.fill 1023 0 (by decide))).exec
      threeQuarters).1 = .ok .inserted := by
    decide +kernel
  refine ⟨threeQuarters_sorted, by decide +kernel, hinserted, by decide +kernel, fun hagree => ?_⟩
  have haccepted : ((LeafNode.splitAndInsert false (.leaf 1) (.fill 1 1 (by decide))
      (.fill 1023 0 (by decide))).exec (threeQuarters, LeafNode.construct)).1 = .ok () := by
    decide +kernel
  have hrejected := hagree.1.mpr hinserted
  rw [haccepted] at hrejected
  cases hrejected

end Agreement

/-- A call on one leaf of a set of leaves. A split is into a fresh sibling. -/
inductive LeafCall where
  | insert (index : Nat) (key value : Bytes)
  | splitAndInsert (index : Nat) (key value : Bytes)

/-- A caller goes on after an exception, but not after a failed assertion. -/
def goOn {σ α : Type} (outcome : Except Failure α) (s : σ) : Option σ :=
  match outcome with
  | .ok _ => some s
  | .error failure => if failure.isException then some s else none

theorem eq_of_goOn {σ α : Type} {outcome : Except Failure α} {s s' : σ} (h : goOn outcome s = some s') :
    s' = s ∧ ((∃ a, outcome = .ok a) ∨ Thrown outcome) := by
  cases outcome with
  | ok a => exact ⟨(Option.some.inj h).symm, Or.inl ⟨a, rfl⟩⟩
  | error failure =>
    cases hexception : failure.isException with
    | true =>
      rw [goOn, if_pos hexception] at h
      exact ⟨(Option.some.inj h).symm, Or.inr ⟨failure, rfl, hexception⟩⟩
    | false =>
      rw [goOn, if_neg (Bool.not_eq_true _ ▸ hexception)] at h
      cases h

/-- The leaves after a call on one of them. -/
def callLeaf (ndebug : Bool) (leaves : List LeafNode) : LeafCall → Option (List LeafNode)
  | .insert index key value => do
    let leaf ← leaves[index]?
    let (outcome, leaf) := (LeafNode.insert key value).exec leaf
    goOn outcome (leaves.set index leaf)
  | .splitAndInsert index key value => do
    let leaf ← leaves[index]?
    let (outcome, original, sibling) :=
      (LeafNode.splitAndInsert ndebug (.leaf leaves.length) key value).exec (leaf, LeafNode.construct)
    goOn outcome (leaves.set index original ++ [sibling])

/-- Whatever insert finds no space in the leaf, the split for it returns and leaves
two entries in each node. -/
def Completable (leaf : LeafNode) : Prop :=
  ∀ key value refused, (LeafNode.insert key value).exec leaf = (.ok .failedNoSpace, refused) →
    ∀ ndebug sibling, ∃ nodes,
      (LeafNode.splitAndInsert ndebug sibling key value).exec (refused, LeafNode.construct) =
        (.ok (), nodes) ∧
      2 ≤ nodes.1.mChildren.length ∧ 2 ≤ nodes.2.mChildren.length

/-- An insert reports no space for an accepted entry without room only. -/
theorem fullFor_of_failedNoSpace {leaf refused : LeafNode} {key value : Bytes}
    (hsorted : Sorted leaf.mChildren)
    (hinsert : (LeafNode.insert key value).exec leaf = (.ok .failedNoSpace, refused)) :
    refused = leaf ∧ leaf.FullFor key value := by
  by_cases hrefuses : leaf.Refuses key value
  · obtain ⟨what, hthrow⟩ := insert_of_refuses hsorted hrefuses
    rw [hthrow] at hinsert
    cases hinsert
  by_cases hfull : leaf.FullFor key value
  · rw [insert_of_fullFor hsorted hfull] at hinsert
    cases hinsert
    exact ⟨rfl, hfull⟩
  · rw [insert_of_room hsorted hrefuses hfull] at hinsert
    cases hinsert

theorem Counted.completable {leaf : LeafNode} (h : leaf.Counted) (hpending : leaf.hasSibling = false) :
    leaf.Completable := by
  intro key value refused hinsert ndebug sibling
  obtain ⟨rfl, hfull⟩ := fullFor_of_failedNoSpace h.sorted hinsert
  obtain ⟨failed, hsplit⟩ := h.splitAndInsert_exec hfull ndebug sibling
  have hnopending : ¬ (ndebug = false ∧ refused.hasSibling = true) := by
    rw [hpending]
    exact fun hassert => Bool.false_ne_true hassert.2
  rw [if_neg hnopending] at hsplit
  exact ⟨_, hsplit, refused.two_le_length_split key value (h.four_le_length hfull) _ sibling⟩

/-- An insert keeps the leaf counted. -/
theorem Counted.insert {leaf : LeafNode} (h : leaf.Counted) (key value : Bytes) :
    Counted ((LeafNode.insert key value).exec leaf).2 := by
  by_cases hrefuses : leaf.Refuses key value
  · obtain ⟨what, hthrow⟩ := insert_of_refuses h.sorted hrefuses
    rw [hthrow]
    exact h
  by_cases hfull : leaf.FullFor key value
  · rw [insert_of_fullFor h.sorted hfull]
    exact h
  · rw [insert_of_room h.sorted hrefuses hfull]
    exact h.withEntryAdded hrefuses

/-- A split into a fresh sibling keeps both leaves counted, unless its assertion fails. -/
theorem Counted.splitAndInsert {leaf : LeafNode} (h : leaf.Counted) {ndebug : Bool} {sibling : NodePtr}
    {key value : Bytes} {outcome : Except Failure Unit} {nodes : LeafNode × LeafNode}
    (hexec : (LeafNode.splitAndInsert ndebug sibling key value).exec (leaf, LeafNode.construct) =
      (outcome, nodes)) (hgoesOn : outcome = .ok () ∨ Thrown outcome) :
    Counted nodes.1 ∧ Counted nodes.2 := by
  cases hgoesOn with
  | inl hreturned =>
    subst hreturned
    obtain ⟨hsmall, _, hdup, rfl⟩ := Ops.splitAndInsert_returned hexec
    have hrefuses : ¬ leaf.Refuses key value := by
      rintro (hmem | hbig)
      · exact hdup ((Node.keyEqualsAt_insertIt_iff h.sorted).mpr hmem)
      · exact hsmall hbig
    exact ⟨h.afterSplit sibling key, h.grown hrefuses⟩
  | inr hthrown =>
    have hunchanged := Ops.splitAndInsert_unchanged ndebug sibling key value (leaf, LeafNode.construct)
    unfold LeafNode.splitAndInsert at hexec
    rw [hexec] at hunchanged
    obtain rfl : nodes = (leaf, LeafNode.construct) := hunchanged hthrown
    exact ⟨h, Counted.construct⟩

/-- What every call keeps: leaves that are counted. -/
theorem Counted.callLeaf {ndebug : Bool} {leaves leaves' : List LeafNode} {call : LeafCall}
    (h : ∀ leaf ∈ leaves, leaf.Counted) (hstep : callLeaf ndebug leaves call = some leaves') :
    ∀ leaf ∈ leaves', leaf.Counted := by
  cases call with
  | insert index key value =>
    obtain ⟨leaf, hleaf, hgoOn⟩ := Option.bind_eq_some_iff.mp hstep
    obtain ⟨rfl, _⟩ := eq_of_goOn hgoOn
    intro other hother
    cases List.mem_or_eq_of_mem_set hother with
    | inl hother => exact h other hother
    | inr heq =>
      rw [heq]
      exact (h leaf (List.mem_of_getElem? hleaf)).insert key value
  | splitAndInsert index key value =>
    obtain ⟨leaf, hleaf, hgoOn⟩ := Option.bind_eq_some_iff.mp hstep
    have hcounted := h leaf (List.mem_of_getElem? hleaf)
    obtain ⟨rfl, houtcome⟩ := eq_of_goOn hgoOn
    have hnodes := hcounted.splitAndInsert (Prod.eta _).symm
      (houtcome.imp (fun ⟨_, hreturned⟩ => hreturned) id)
    intro other hother
    cases List.mem_append.mp hother with
    | inl hother =>
      cases List.mem_or_eq_of_mem_set hother with
      | inl hother => exact h other hother
      | inr heq =>
        rw [heq]
        exact hnodes.1
    | inr hother =>
      rw [List.mem_singleton.mp hother]
      exact hnodes.2

/-- Every insert that finds no space in a leaf without a pending split can be
completed by a split, in every state that inserts and splits of leaves reach. -/
theorem completable_always (ndebug : Bool) (count : Nat) (calls : List LeafCall) :
    run.Always (callLeaf ndebug) (List.replicate count LeafNode.construct)
      (fun _ leaves => ∀ leaf ∈ leaves, leaf.hasSibling = false → leaf.Completable) calls := by
  intro done _ leaves hrun leaf hmem hpending
  have hcounted : ∀ leaf ∈ leaves, leaf.Counted := by
    apply run.preserved (fun leaves => ∀ leaf ∈ leaves, leaf.Counted) ?_ ?_ hrun
    · intro leaf hmem
      rw [List.eq_of_mem_replicate hmem]
      exact Counted.construct
    · exact fun _ _ _ h hstep => Counted.callLeaf h hstep
  exact (hcounted leaf hmem).completable hpending

/-- The inserts of four entries, the last one first. -/
def fourInserts : List LeafCall :=
  [.insert 0 (.repeated 1 40) (.repeated 1022 0), .insert 0 (.repeated 1 30) (.repeated 1022 0),
    .insert 0 (.repeated 1 20) (.repeated 1022 0), .insert 0 (.repeated 1 10) (.repeated 1022 0)]

/-- An insert of a fifth one finds no space, and the split for it returns. -/
theorem completable_fourEntries :
    run (callLeaf false) [LeafNode.construct] fourInserts = some [fourEntries] ∧
      (LeafNode.insert (.repeated 1 50) (.repeated 1022 0)).exec fourEntries =
        (.ok .failedNoSpace, fourEntries) ∧
      ∃ nodes, (LeafNode.splitAndInsert false (.leaf 1) (.repeated 1 50) (.repeated 1022 0)).exec
          (fourEntries, LeafNode.construct) = (.ok (), nodes) ∧
        2 ≤ nodes.1.mChildren.length ∧ 2 ≤ nodes.2.mChildren.length := by
  have hrun : run (callLeaf false) [LeafNode.construct] fourInserts = some [fourEntries] := by
    decide +kernel
  have hinsert : (LeafNode.insert (.repeated 1 50) (.repeated 1022 0)).exec fourEntries =
      (.ok .failedNoSpace, fourEntries) := by
    decide +kernel
  exact ⟨hrun, hinsert, completable_always false 1 fourInserts fourInserts List.prefix_rfl [fourEntries] hrun
    fourEntries List.mem_cons_self rfl (.repeated 1 50) (.repeated 1022 0) fourEntries hinsert false (.leaf 1)⟩

end tupl.pvt.slow.LeafNode
