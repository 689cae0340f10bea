import Mathlib.Algebra.BigOperators.Group.List.Basic
import TuplNative.Slow.Node.Insert

namespace tupl.pvt.slow

section ByteCount

variable {V : Type} [NodeValue V]

/-- The sum of the sizes of all entries, without wrapping around. -/
def storedBytes (children : List (Buffer × V)) : Nat :=
  (children.map fun e => (entrySize e).toNat).sum

@[simp] theorem storedBytes_nil : storedBytes ([] : List (Buffer × V)) = 0 := rfl

@[simp] theorem storedBytes_cons (e : Buffer × V) (children : List (Buffer × V)) :
    storedBytes (e :: children) = (entrySize e).toNat + storedBytes children := by
  simp [storedBytes]

theorem storedBytes_append (lower upper : List (Buffer × V)) :
    storedBytes (lower ++ upper) = storedBytes lower + storedBytes upper := by
  simp [storedBytes]

theorem storedBytes_perm {first second : List (Buffer × V)} (h : first.Perm second) :
    storedBytes first = storedBytes second :=
  (h.map _).sum_eq

theorem storedBytes_insertIdx (children : List (Buffer × V)) {position : Nat} (e : Buffer × V)
    (hpos : position ≤ children.length) :
    storedBytes (children.insertIdx position e) = storedBytes children + (entrySize e).toNat := by
  rw [storedBytes_perm (List.perm_insertIdx e children hpos), storedBytes_cons, Nat.add_comm]

/-- The recount is the sum of the sizes modulo the range of `size_t`. -/
theorem recalculateBytesUsed_toNat (node : Node V) :
    (Ops.recalculateBytesUsed node).bytes.toNat = storedBytes node.mChildren % 2 ^ 64 := by
  have hfold : ∀ (children : List (Buffer × V)) (total : UInt64),
      (children.foldl (fun total kvPair => total + entrySize kvPair) total).toNat =
        (total.toNat + storedBytes children) % 2 ^ 64 := by
    intro children
    induction children with
    | nil =>
      intro total
      have := total.toNat_lt
      simp only [List.foldl_nil, storedBytes_nil]
      omega
    | cons e children ih =>
      intro total
      rw [List.foldl_cons, ih, UInt64.toNat_add, storedBytes_cons]
      omega
  have h := hfold node.mChildren 0
  simp only [UInt64.toNat_zero, Nat.zero_add] at h
  exact h

end ByteCount

/-- A leaf entry takes the bytes of its key and of its value. -/
theorem leaf_entrySize_toNat (key value : Bytes) :
    (entrySize ((key, value) : Buffer × Buffer)).toNat = key.data.length + value.data.length :=
  Bytes.size_add_toNat key value

theorem storedBytes_leaf (children : List (Buffer × Buffer)) :
    storedBytes children = (children.map fun e => e.1.data.length + e.2.data.length).sum :=
  congrArg List.sum (List.map_congr_left fun e _ => leaf_entrySize_toNat e.1 e.2)

/-- An internal entry takes the bytes of its key and of a pointer. -/
theorem internal_entrySize_toNat (key : Bytes) (child : NodePtr) :
    (entrySize ((key, child) : Buffer × NodePtr)).toNat = key.data.length + 8 := by
  have := key.size_lt
  change (key.size + 8).toNat = _
  rw [UInt64.toNat_add, Bytes.size_toNat]
  change (key.data.length + 8) % 2 ^ 64 = _
  omega

end tupl.pvt.slow
