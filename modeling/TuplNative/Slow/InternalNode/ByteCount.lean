import TuplNative.Slow.InternalNode.Insert
import TuplNative.Slow.Node.Split

namespace tupl.pvt.slow.InternalNode

/-- A call on a pool of internal nodes. The nodes are named by their place in
the order of construction. -/
inductive PoolCall where
  | construct (leftestChild : NodePtr)
  | insert (index : Nat) (key : Bytes) (child : NodePtr)
  | splitAndInsert (index sibling : Nat) (key : Bytes) (child : NodePtr)

/-- A node, and whether it took part in a split that returned. -/
structure Tracked where
  node : InternalNode
  split : Bool

/-- One call on the pool. No node is split into itself, and a failed assertion
leaves no state to go on from. -/
def PoolCall.step (ndebug : Bool) (pool : List Tracked) : PoolCall → Option (List Tracked)
  | .construct leftestChild => some (pool ++ [⟨InternalNode.construct leftestChild, false⟩])
  | .insert index key child =>
    match pool[index]? with
    | none => none
    | some tracked =>
      match (InternalNode.insert key child).exec tracked.node with
      | (.ok _, node) => some (pool.set index ⟨node, tracked.split⟩)
      | (.error failure, node) =>
        if failure.isException then some (pool.set index ⟨node, tracked.split⟩) else none
  | .splitAndInsert index sibling key child =>
    match pool[index]?, pool[sibling]? with
    | some original, some other =>
      if index = sibling then none
      else
        match (InternalNode.splitAndInsert ndebug (.internal sibling) key child).exec
            (original.node, other.node) with
        | (.ok (), node, otherNode) =>
          some ((pool.set index ⟨node, true⟩).set sibling ⟨otherNode, true⟩)
        | (.error failure, node, otherNode) =>
          if failure.isException then
            some ((pool.set index ⟨node, original.split⟩).set sibling ⟨otherNode, other.split⟩)
          else none
    | _, _ => none

/-- The sizes of the entries of a node, as a recount adds them up. -/
def entryBytes (node : InternalNode) : UInt64 :=
  (Ops.recalculateBytesUsed node).bytes

/-- The bytes that no count has taken in: those of the sentinel, until a split. -/
def Tracked.missing (tracked : Tracked) : UInt64 := if tracked.split then 0 else 8

/-- The node counts its entries, short of the missing bytes. -/
def Tracked.Accounted (tracked : Tracked) : Prop :=
  tracked.node.bytes + tracked.missing = entryBytes tracked.node

theorem entryBytes_toNat (node : InternalNode) :
    (entryBytes node).toNat = storedBytes node.mChildren % 2 ^ 64 :=
  recalculateBytesUsed_toNat node

/-- An entry adds the same to the count and to the recount. -/
theorem entryBytes_withEntry {node : InternalNode} {position : Nat} (key : Bytes) (child : NodePtr)
    (hpos : position ≤ node.mChildren.length) :
    entryBytes (node.withEntry position key child) = entryBytes node + entrySize (key, child) := by
  apply UInt64.toNat_inj.mp
  have hchildren : (node.withEntry position key child).mChildren =
      node.mChildren.insertIdx position (key, child) := rfl
  rw [UInt64.toNat_add, entryBytes_toNat, entryBytes_toNat, hchildren, storedBytes_insertIdx _ _ hpos]
  omega

theorem Tracked.Accounted.withEntry {node : InternalNode} {split : Bool} {position : Nat} {key : Bytes}
    {child : NodePtr} (h : Accounted ⟨node, split⟩) (hpos : position ≤ node.mChildren.length) :
    Accounted ⟨node.withEntry position key child, split⟩ := by
  have hbefore : node.bytes + Tracked.missing ⟨node, split⟩ = entryBytes node := h
  have hbytes : (node.withEntry position key child).bytes = node.bytes + entrySize (key, child) := rfl
  change (node.withEntry position key child).bytes + Tracked.missing ⟨node, split⟩ =
    entryBytes (node.withEntry position key child)
  rw [hbytes, entryBytes_withEntry key child hpos, ← hbefore, UInt64.add_assoc, UInt64.add_assoc,
    UInt64.add_comm (entrySize (key, child))]

/-- A keyed insert leaves a node accounted for, whatever it answers. -/
theorem Tracked.Accounted.insert {tracked : Tracked} (h : tracked.Accounted) (key : Bytes)
    (child : NodePtr) :
    Accounted ⟨((InternalNode.insert key child).exec tracked.node).2, tracked.split⟩ := by
  rw [insert_exec]
  by_cases hdup : keyEqualsAt key tracked.node.mChildren (insertPos tracked.node key) = true
  · rw [if_pos hdup]
    exact h
  rw [if_neg hdup]
  by_cases hbig : tracked.node.TooBig key child
  · rw [if_pos hbig]
    exact h
  rw [if_neg hbig]
  by_cases hroom : tracked.node.LacksRoom key child
  · rw [if_pos hroom]
    exact h
  rw [if_neg hroom]
  have hsearch := std.lowerBound_le_length (keyLesser key) (tracked.node.mChildren.drop 1)
  rw [List.length_drop] at hsearch
  apply h.withEntry
  unfold insertPos
  omega

/-- A recount takes everything in. -/
theorem Tracked.Accounted.recalculated (node : InternalNode) :
    Accounted ⟨Ops.recalculateBytesUsed node, true⟩ :=
  UInt64.add_zero _

/-- A split that throws leaves both nodes alone, and one that returns has
recounted them. -/
theorem splitAndInsert_cases (ndebug : Bool) (sibling : NodePtr) (original other : InternalNode)
    (key : Bytes) (child : NodePtr) :
    ∃ outcome nodes, (InternalNode.splitAndInsert ndebug sibling key child).exec (original, other) =
        (outcome, nodes) ∧
      (outcome = .error .assertion ∨
        (∃ failure, outcome = .error failure ∧ nodes = (original, other)) ∨
        (outcome = .ok () ∧ ∃ node otherNode,
          nodes = (Ops.recalculateBytesUsed node, Ops.recalculateBytesUsed otherNode))) := by
  obtain ⟨outcome, nodes, hexec, houtcome⟩ :=
    Ops.splitAndInsert_outcome ndebug sibling original other key child
  refine ⟨outcome, nodes, hexec, ?_⟩
  cases houtcome with
  | rejected failure _ => exact Or.inr (Or.inl ⟨failure, rfl, rfl⟩)
  | aborted nodes => exact Or.inl rfl
  | returned _ _ _ => exact Or.inr (Or.inr ⟨rfl, _, _, rfl⟩)

theorem accounted_set {pool : List Tracked} {index : Nat} {new : Tracked}
    (hpool : ∀ tracked ∈ pool, tracked.Accounted) (hnew : new.Accounted) :
    ∀ tracked ∈ pool.set index new, tracked.Accounted := by
  intro tracked hmem
  cases List.mem_or_eq_of_mem_set hmem with
  | inl hmem => exact hpool tracked hmem
  | inr heq => exact heq ▸ hnew

section Step

variable {ndebug : Bool} {pool pool' : List Tracked} {index sibling : Nat} {key : Bytes} {child : NodePtr}

/-- A keyed insert changes the node that it is called on, and no other. -/
theorem PoolCall.step_insert (hstep : (PoolCall.insert index key child).step ndebug pool = some pool') :
    ∃ tracked, pool[index]? = some tracked ∧
      pool' = pool.set index ⟨((InternalNode.insert key child).exec tracked.node).2, tracked.split⟩ := by
  rw [PoolCall.step] at hstep
  cases htracked : pool[index]? with
  | none =>
    rw [htracked] at hstep
    cases hstep
  | some tracked =>
    rw [htracked] at hstep
    dsimp only at hstep
    refine ⟨tracked, rfl, ?_⟩
    generalize (InternalNode.insert key child).exec tracked.node = result at hstep ⊢
    obtain ⟨outcome, node⟩ := result
    cases outcome with
    | ok _ => exact (Option.some.inj hstep).symm
    | error failure =>
      dsimp only at hstep
      by_cases hexception : failure.isException = true
      · rw [if_pos hexception] at hstep
        exact (Option.some.inj hstep).symm
      · rw [if_neg hexception] at hstep
        cases hstep

/-- A split leaves two nodes as they were, or both of them recounted. -/
theorem PoolCall.step_splitAndInsert
    (hstep : (PoolCall.splitAndInsert index sibling key child).step ndebug pool = some pool') :
    ∃ original other, pool[index]? = some original ∧ pool[sibling]? = some other ∧
      (pool' = (pool.set index original).set sibling other ∨
        ∃ node otherNode, pool' = (pool.set index ⟨Ops.recalculateBytesUsed node, true⟩).set sibling
          ⟨Ops.recalculateBytesUsed otherNode, true⟩) := by
  rw [PoolCall.step] at hstep
  cases horiginal : pool[index]? with
  | none =>
    rw [horiginal] at hstep
    cases hstep
  | some original =>
    cases hother : pool[sibling]? with
    | none =>
      rw [horiginal, hother] at hstep
      cases hstep
    | some other =>
      rw [horiginal, hother] at hstep
      dsimp only at hstep
      refine ⟨original, other, rfl, rfl, ?_⟩
      by_cases hself : index = sibling
      · rw [if_pos hself] at hstep
        cases hstep
      rw [if_neg hself] at hstep
      obtain ⟨outcome, nodes, hexec, hcases⟩ :=
        splitAndInsert_cases ndebug (.internal sibling) original.node other.node key child
      rw [hexec] at hstep
      rcases hcases with rfl | ⟨failure, rfl, rfl⟩ | ⟨rfl, node, otherNode, rfl⟩
      · cases hstep
      · dsimp only at hstep
        by_cases hexception : failure.isException = true
        · rw [if_pos hexception] at hstep
          exact Or.inl (Option.some.inj hstep).symm
        · rw [if_neg hexception] at hstep
          cases hstep
      · exact Or.inr ⟨node, otherNode, (Option.some.inj hstep).symm⟩

/-- Every call leaves all nodes of the pool accounted for. -/
theorem PoolCall.step_accounted {call : PoolCall} (hpool : ∀ tracked ∈ pool, tracked.Accounted)
    (hstep : call.step ndebug pool = some pool') : ∀ tracked ∈ pool', tracked.Accounted := by
  cases call with
  | construct leftestChild =>
    cases hstep
    intro tracked hmem
    cases List.mem_append.mp hmem with
    | inl hmem => exact hpool tracked hmem
    | inr hmem =>
      obtain rfl := List.mem_singleton.mp hmem
      rfl
  | insert index key child =>
    obtain ⟨tracked, htracked, rfl⟩ := PoolCall.step_insert hstep
    exact accounted_set hpool ((hpool tracked (List.mem_of_getElem? htracked)).insert key child)
  | splitAndInsert index sibling key child =>
    obtain ⟨original, other, horiginal, hother, hcases⟩ := PoolCall.step_splitAndInsert hstep
    rcases hcases with rfl | ⟨node, otherNode, rfl⟩
    · exact accounted_set (accounted_set hpool (hpool original (List.mem_of_getElem? horiginal)))
        (hpool other (List.mem_of_getElem? hother))
    · exact accounted_set (accounted_set hpool (Tracked.Accounted.recalculated node))
        (Tracked.Accounted.recalculated otherNode)

end Step

/-- In every state of every run, exactly the nodes that took part in a split
count all their bytes. The constructor adds the sentinel without counting it,
inserts carry the difference along, and a split recounts both its nodes. -/
theorem bytes_eq_iff_split (ndebug : Bool) (calls : List PoolCall) :
    run.Always (fun pool call => call.step ndebug pool) []
      (fun _ pool => ∀ tracked ∈ pool, tracked.node.bytes = entryBytes tracked.node ↔ tracked.split = true)
      calls := by
  intro done _ pool hrun tracked hmem
  have haccounted : tracked.Accounted :=
    run.preserved (fun pool => ∀ tracked ∈ pool, Tracked.Accounted tracked)
      (fun _ hmem => (List.not_mem_nil hmem).elim) (fun _ _ _ hpool hstep => PoolCall.step_accounted hpool hstep)
      hrun tracked hmem
  rw [← haccounted, Tracked.missing]
  cases tracked.split with
  | true => simp
  | false => simp

/-- A node counts nothing of its sentinel as it is constructed. -/
theorem bytes_ne_construct :
    ¬ run.Always (fun pool call => PoolCall.step false pool call) []
      (fun _ pool => ∀ tracked ∈ pool, tracked.node.bytes = entryBytes tracked.node)
      [.construct (.leaf 0)] := by
  intro halways
  have hbytes := halways _ List.prefix_rfl [⟨InternalNode.construct (.leaf 0), false⟩] rfl _
    List.mem_cons_self
  exact absurd hbytes (by decide)

end tupl.pvt.slow.InternalNode
