import TuplNative.Algorithm.Move
import TuplNative.Slow.Node.ByteCount

namespace tupl.pvt.slow.LeafNode

/-- How `moveEntries` can end other than by returning. -/
inductive Fault where
  /-- An entry was assigned to that is past the end, which is undefined behaviour. -/
  | pastEnd
deriving DecidableEq, Repr

/-- `LeafNode::moveEntries(src, srcBegin, srcEnd, dst, tgtBegin)` on two leaves. The
iterators are positions. -/
def moveEntries (srcBegin srcEnd tgtBegin : Nat) : Call Fault (LeafNode × LeafNode) Nat := do
  let (src, dst) ← get
  let moved := src.mChildren.extract srcBegin srcEnd
  match std.move moved dst.mChildren tgtBegin with
  | none => throw .pastEnd
  | some children =>
    let erased := src.mChildren.take srcBegin ++ src.mChildren.drop srcEnd
    set (({ src with mChildren := erased }, { dst with mChildren := children }) : LeafNode × LeafNode)
    return tgtBegin + moved.length

/-- The byte count is the sum of the sizes of the entries. -/
def BytesExact (leaf : LeafNode) : Prop := leaf.bytes.toNat = storedBytes leaf.mChildren

/-- The range went over in order, between the entries around the target position, and
both byte counts are still right if they were before. -/
structure Moved (srcBegin srcEnd tgtBegin : Nat) (src dst src' dst' : LeafNode) : Prop where
  removed : src'.mChildren = src.mChildren.take srcBegin ++ src.mChildren.drop srcEnd
  placed : dst'.mChildren =
    dst.mChildren.take tgtBegin ++ src.mChildren.extract srcBegin srcEnd ++ dst.mChildren.drop tgtBegin
  conserved : src'.mChildren.length + dst'.mChildren.length = src.mChildren.length + dst.mChildren.length
  srcBytes : BytesExact src → BytesExact src'
  dstBytes : BytesExact dst → BytesExact dst'

variable {src dst : LeafNode} {srcBegin srcEnd tgtBegin : Nat}

theorem length_extract_range {α : Type} {elems : List α} (hrange : srcBegin ≤ srcEnd)
    (hend : srcEnd ≤ elems.length) : (elems.extract srcBegin srcEnd).length = srcEnd - srcBegin := by
  rw [List.extract_eq_take_drop, List.length_take, List.length_drop]
  omega

/-- The range takes the place of as many entries of the destination, which must have
that many from the target position on. Neither byte count is touched. -/
theorem moveEntries_exec (hrange : srcBegin ≤ srcEnd) (hend : srcEnd ≤ src.mChildren.length)
    (htarget : tgtBegin ≤ dst.mChildren.length) :
    (moveEntries srcBegin srcEnd tgtBegin).exec (src, dst) =
      if tgtBegin + (srcEnd - srcBegin) ≤ dst.mChildren.length then
        (.ok (tgtBegin + (srcEnd - srcBegin)),
          { src with mChildren := src.mChildren.take srcBegin ++ src.mChildren.drop srcEnd },
          { dst with mChildren := dst.mChildren.take tgtBegin ++ src.mChildren.extract srcBegin srcEnd ++
              dst.mChildren.drop (tgtBegin + (srcEnd - srcBegin)) })
      else (.error .pastEnd, (src, dst)) := by
  have hlength := length_extract_range hrange hend
  unfold moveEntries
  rw [Call.exec_get_bind]
  dsimp only
  by_cases hfits : tgtBegin + (srcEnd - srcBegin) ≤ dst.mChildren.length
  · rw [if_pos hfits, std.move_eq_some (by rw [hlength]; exact hfits), hlength]
    rfl
  · rw [if_neg hfits, std.move_eq_none htarget (by rw [hlength]; omega)]
    rfl

/-- `moveEntries` conserves the entries and the byte counts exactly for an empty range.
Every other range overwrites entries of the destination or goes past its end. -/
theorem moveEntries_moved_iff (hrange : srcBegin ≤ srcEnd) (hend : srcEnd ≤ src.mChildren.length)
    (htarget : tgtBegin ≤ dst.mChildren.length) :
    (∃ next src' dst', (moveEntries srcBegin srcEnd tgtBegin).exec (src, dst) = (.ok next, (src', dst')) ∧
        Moved srcBegin srcEnd tgtBegin src dst src' dst') ↔
      srcBegin = srcEnd := by
  have hlength := length_extract_range hrange hend
  rw [moveEntries_exec hrange hend htarget]
  constructor
  · rintro ⟨next, src', dst', hexec, hmoved⟩
    by_cases hfits : tgtBegin + (srcEnd - srcBegin) ≤ dst.mChildren.length
    · rw [if_pos hfits] at hexec
      obtain ⟨_, hnodes⟩ := Prod.mk.inj hexec
      obtain ⟨_, rfl⟩ := Prod.mk.inj hnodes
      have hplaced := congrArg List.length hmoved.placed
      simp only [List.length_append, List.length_take, List.length_drop, hlength] at hplaced
      omega
    · rw [if_neg hfits] at hexec
      cases hexec
  · rintro rfl
    have hkept : src.mChildren.take srcBegin ++ src.mChildren.drop srcBegin = src.mChildren :=
      List.take_append_drop _ _
    have hempty : src.mChildren.extract srcBegin srcBegin = [] := by
      apply List.eq_nil_of_length_eq_zero
      rw [hlength, Nat.sub_self]
    refine ⟨tgtBegin, src, dst, ?_, hkept.symm, ?_, rfl, id, id⟩
    · rw [Nat.sub_self, Nat.add_zero, if_pos htarget, hkept, hempty, List.append_nil,
        List.take_append_drop]
    · rw [hempty, List.append_nil, List.take_append_drop]

/-- A leaf with one entry, which is counted. -/
def single (b : byte) : LeafNode :=
  ⟨2, ⟨none, .left, .empty⟩, [(.repeated 1 b, .repeated 1 b)]⟩

/-- An empty range, at the end of the destination. -/
theorem moveEntries_moved_empty :
    ∃ next src' dst', (moveEntries 1 1 1).exec (single 1, single 2) = (.ok next, (src', dst')) ∧
      Moved 1 1 1 (single 1) (single 2) src' dst' :=
  (moveEntries_moved_iff (by decide) (by decide) (by decide)).mpr rfl

/-- Moving an entry to the first position of the destination overwrites the one that is
there and leaves the source with the bytes of two. Behind the last position there is
nothing to assign to. -/
theorem not_moved_single :
    ∃ src' dst', (moveEntries 0 1 0).exec (single 1, single 2) = (.ok 1, (src', dst')) ∧
      BytesExact (single 1) ∧ src'.mChildren = [] ∧ src'.bytes = 2 ∧
      dst'.mChildren = (single 1).mChildren ∧
      ¬ Moved 0 1 0 (single 1) (single 2) src' dst' ∧
      (moveEntries 0 1 1).exec (single 1, single 2) = (.error .pastEnd, (single 1, single 2)) := by
  refine ⟨_, _, rfl, rfl, rfl, rfl, rfl, ?_, rfl⟩
  intro hmoved
  have hconserved := hmoved.conserved
  cases hconserved

end tupl.pvt.slow.LeafNode
