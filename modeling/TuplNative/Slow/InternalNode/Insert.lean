import TuplNative.Run
import TuplNative.Slow.Node.ByteCount

namespace tupl.pvt.slow.InternalNode

/-- The position that the search behind the first entry finds. -/
def insertPos (node : InternalNode) (key : Bytes) : Nat :=
  1 + std.lowerBound (keyLesser key) (node.mChildren.drop 1)

/-- A keyed insert is refused, finds no room, or places the entry one position
before the one that it searched for. -/
theorem insert_exec (node : InternalNode) (key : Bytes) (child : NodePtr) :
    (InternalNode.insert key child).exec node =
      if keyEqualsAt key node.mChildren (node.insertPos key) = true then
        (.error (.invalidArgument "duplicate key not allowed"), node)
      else if node.TooBig key child then (.error (.invalidArgument "entry too big"), node)
      else if node.LacksRoom key child then (.ok .failedNoSpace, node)
      else (.ok .inserted, node.withEntry (node.insertPos key - 1) key child) := by
  have hinside : node.insertPos key - 1 ≤ node.mChildren.length := by
    have hsearch := std.lowerBound_le_length (keyLesser key) (node.mChildren.drop 1)
    rw [List.length_drop] at hsearch
    unfold insertPos
    omega
  unfold InternalNode.insert
  rw [Call.exec_get_bind]
  by_cases hdup : keyEqualsAt key node.mChildren (node.insertPos key) = true
  · have hthrow : keyEqualsAt key node.mChildren
        (1 + std.lowerBound (keyLesser key) (node.mChildren.drop 1)) = true := hdup
    rw [if_pos hdup, if_pos hthrow, Call.exec_throw_bind]
  · have hnothrow : ¬ keyEqualsAt key node.mChildren
        (1 + std.lowerBound (keyLesser key) (node.mChildren.drop 1)) = true := hdup
    rw [if_neg hdup, if_neg hnothrow]
    exact Ops.insertAt_exec node key child hinside

theorem tooBig_iff (node : InternalNode) (key : Bytes) (child : NodePtr) :
    node.TooBig key child ↔ 1024 < key.data.length + 8 := by
  rw [Node.TooBig, UInt64.lt_iff_toNat_lt, maxEntry_toNat, internal_entrySize_toNat]

/-- A child with the key it is to be found under, which only the sentinel leaves empty. -/
structure Separator where
  key : Bytes
  child : NodePtr
  key_ne : key ≠ .empty

/-- A keyed insert on a node, with a record of the pairs that it reported as inserted. -/
def insertRecorded (state : InternalNode × List (Bytes × NodePtr)) (separator : Separator) :
    Option (InternalNode × List (Bytes × NodePtr)) :=
  match (InternalNode.insert separator.key separator.child).exec state.1 with
  | (.ok .inserted, node) => some (node, state.2 ++ [(separator.key, separator.child)])
  | (.ok .failedNoSpace, node) => some (node, state.2)
  | (.error failure, node) => if failure.isException then some (node, state.2) else none

/-- The representation of an internal node: the sentinel comes first, the keys
behind it strictly increase, the entries behind it are the inserted pairs, and
their keys are turned away. -/
structure WellFormed (leftestChild : NodePtr) (inserted : List (Bytes × NodePtr))
    (node : InternalNode) : Prop where
  sentinel : node.mChildren.head? = some (.empty, leftestChild)
  sorted : Sorted node.mChildren.tail
  entries : ∀ e, e ∈ node.mChildren.tail ↔ e ∈ inserted
  rejects : ∀ key child, key ∈ node.mChildren.tail.map Prod.fst →
    ∃ what, (InternalNode.insert key child).exec node = (.error (.invalidArgument what), node)

theorem WellFormed.construct (leftestChild : NodePtr) :
    WellFormed leftestChild [] (InternalNode.construct leftestChild) := by
  refine ⟨rfl, .nil, fun _ => Iff.rfl, ?_⟩
  intro key child hmem
  cases hmem

/-- In a node with nothing but the sentinel the search ends behind it, and the
entry is placed before it. -/
theorem insert_construct (leftestChild : NodePtr) (key : Bytes) (child : NodePtr) :
    (InternalNode.insert key child).exec (InternalNode.construct leftestChild) =
      if 1024 < key.data.length + 8 then
        (.error (.invalidArgument "entry too big"), InternalNode.construct leftestChild)
      else (.ok .inserted, (InternalNode.construct leftestChild).withEntry 0 key child) := by
  rw [insert_exec, if_neg (by exact Bool.false_ne_true)]
  by_cases hbig : 1024 < key.data.length + 8
  · rw [if_pos ((tooBig_iff _ _ _).mpr hbig), if_pos hbig]
  · have hroom : ¬ (InternalNode.construct leftestChild).LacksRoom key child := by
      have hfree : ((InternalNode.construct leftestChild).capacity -
          (InternalNode.construct leftestChild).bytes).toNat = 4096 := by
        change ((4096 : UInt64) - 0).toNat = 4096
        rw [UInt64.sub_zero]
        rfl
      rw [Node.LacksRoom, UInt64.lt_iff_toNat_lt, hfree, internal_entrySize_toNat]
      omega
    rw [if_neg fun htoo => hbig ((tooBig_iff _ _ _).mp htoo), if_neg hroom, if_neg hbig]
    rfl

/-- Keyed inserts keep the representation of an internal node exactly as long as
every one of them is refused for its size. The first entry that is not goes
before the sentinel: the position is moved back by one, and the entry is then
placed before it. -/
theorem wellFormed_iff_all_tooBig (leftestChild : NodePtr) (separators : List Separator) :
    run.Always insertRecorded (InternalNode.construct leftestChild, [])
        (fun _ state => WellFormed leftestChild state.2 state.1) separators ↔
      run.EachStep insertRecorded (InternalNode.construct leftestChild, [])
        (fun _ separator => 1024 < separator.key.data.length + 8) separators := by
  apply run.always_iff_eachStep (fun _ => True)
    (fun _ state => state = (InternalNode.construct leftestChild, []))
  · rfl
  · exact fun _ _ _ _ => trivial
  · rintro _ state rfl
    exact WellFormed.construct leftestChild
  · rintro _ separator state state' _ rfl hbig hstep
    rw [insertRecorded, insert_construct, if_pos hbig] at hstep
    cases hstep
    rfl
  · rintro _ separator state state' _ rfl hsmall hstep hformed
    rw [insertRecorded, insert_construct, if_neg hsmall] at hstep
    cases hstep
    have hhead : some (separator.key, separator.child) = some (.empty, leftestChild) := hformed.sentinel
    exact separator.key_ne (congrArg Prod.fst (Option.some.inj hhead))
  · trivial

/-- The separator of a second leaf. -/
def secondLeaf : Separator := ⟨.repeated 1 50, .leaf 1, by decide⟩

theorem not_wellFormed_secondLeaf :
    ¬ run.Always insertRecorded (InternalNode.construct (.leaf 0), [])
      (fun _ state => WellFormed (.leaf 0) state.2 state.1) [secondLeaf] := by
  intro halways
  have hrun : run insertRecorded (InternalNode.construct (.leaf 0), []) [secondLeaf] =
      some (⟨9, ⟨none, .left, .empty⟩, [(.fill 1 50 (by decide), .leaf 1), (.empty, .leaf 0)]⟩,
        [(.fill 1 50 (by decide), .leaf 1)]) := by
    decide +kernel
  have hformed := halways _ List.prefix_rfl _ hrun
  exact absurd hformed.sentinel (by decide)

end tupl.pvt.slow.InternalNode
