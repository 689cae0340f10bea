import TuplNative.Algorithm.Compare
import TuplNative.Algorithm.LowerBound
import TuplNative.Failure
import TuplNative.Types

namespace tupl.pvt.disabled

/-- An offset of 16 bits into a node, at which a key is stored. -/
structure KeyOffsetPtr where
  mOffset : UInt16
deriving DecidableEq, Repr

/-- `KeyComparator::State`. The prefix sizes are sizes of prefixes of byte strings,
and the pointer to the node is left to `extractBytes`. -/
structure State where
  hiPrefixSize : Nat
  loPrefixSize : Nat
  mEqual : Bool
deriving DecidableEq, Repr

namespace State

/-- `State::State`. -/
def construct : State := ⟨0, 0, false⟩

def equal (state : State) : Bool := state.mEqual

end State

namespace KeyComparator

/-- `KeyComparator::compareLower`. A position in both byte strings stands for the
pair of pointers that `std::mismatch` returns. -/
def compareLower (ndebug : Bool) (l r : Bytes) : Call Failure State Bool := do
  let st ← get
  let cmpSize := min l.data.length r.data.length
  let prefixSize := min st.loPrefixSize st.hiPrefixSize
  assert ndebug (prefixSize < cmpSize)
  let mismatched :=
    prefixSize + std.mismatch (l.data.extract prefixSize cmpSize) (r.data.drop prefixSize)
  if mismatched = cmpSize then
    if l.data.length = r.data.length then
      set { st with mEqual := true }
    return decide (l.data.length < r.data.length)
  else if l.data.getD mismatched 0 < r.data.getD mismatched 0 then
    set { st with loPrefixSize := mismatched }
    return true
  else
    set { st with hiPrefixSize := mismatched }
    return false

/-- `operator()(lPtr, r)`, which `std::lower_bound` calls. How a node stores its keys
is not there yet, so `extractBytes` is what it decodes a pointer to. -/
def lower (extractBytes : KeyOffsetPtr → Bytes) (ndebug : Bool) (lPtr : KeyOffsetPtr) (r : Bytes) :
    Call Failure State Bool :=
  compareLower ndebug (extractBytes lPtr) r

end KeyComparator

namespace SearchVector

/-- `SearchVector::begin()`, the null pointer. -/
def begin : Nat := 0

/-- `SearchVector::end()`, the null pointer. -/
def «end» : Nat := 0

end SearchVector

/-- `lowerBound`. Pointers are addresses, with 0 the null pointer and two bytes an
offset; `range` is what lies from `begin` on, and a position in it stands for the
pointer to it. Which argument of `make_pair` comes first is up to the compiler. -/
def lowerBound (extractBytes : KeyOffsetPtr → Bytes) (ndebug : Bool) (order : Call.ArgumentOrder)
    (node begin : Nat) (range : List KeyOffsetPtr) (key : Bytes) : Except Failure (Nat × Bool) :=
  let «end» := begin + 2 * range.length
  let call : Call Failure State (Nat × Bool) := do
    assert ndebug (node ≠ 0 ∧ begin ≠ 0 ∧ «end» ≠ 0 ∧ key.size ≠ 0)
    assert ndebug (begin < «end»)
    assert ndebug (SearchVector.begin ≤ begin)
    assert ndebug («end» ≤ SearchVector.«end»)
    Call.arguments order
      (std.lowerBoundM (fun ptr => KeyComparator.lower extractBytes ndebug ptr key) range)
      (State.equal <$> get)
  (call.exec State.construct).1

end tupl.pvt.disabled
