import Mathlib.Algebra.Ring.Nat
import Mathlib.Order.Fin.Basic
import TuplNative.Algorithm.Compare

namespace tupl

/-- `typedef std::uint_least8_t byte`. -/
abbrev byte := Fin 256

instance byte_neZero : NeZero 256 := ⟨by decide⟩

/-- A byte string as the code reads it through `data()` and `size()`. No object
is longer than `PTRDIFF_MAX` bytes, so a size is below `2 ^ 63`. -/
structure Bytes where
  data : List byte
  size_lt : data.length < 2 ^ 63
deriving DecidableEq

namespace Bytes

/-- The empty byte string. -/
def empty : Bytes := ⟨[], by decide⟩

/-- `Bytes::size()`, a `size_t`. -/
def size (bytes : Bytes) : UInt64 := UInt64.ofNat bytes.data.length

/-- A byte string of `n` equal bytes. -/
def fill (n : Nat) (b : byte) (h : n < 2 ^ 63) : Bytes := ⟨List.replicate n b, by simpa using h⟩

/-- A short byte string of equal bytes. -/
def repeated (size : UInt16) (b : byte) : Bytes := fill size.toNat b (size.toNat_lt.trans (by decide))

theorem data_injective : Function.Injective data := by
  rintro ⟨l, _⟩ ⟨r, _⟩ rfl
  rfl

/-- Byte strings in unsigned byte order, a proper prefix first. -/
instance : LinearOrder Bytes := LinearOrder.lift' data data_injective

theorem lt_iff_data_lt (l r : Bytes) : l < r ↔ l.data < r.data := Iff.rfl

theorem empty_le (bytes : Bytes) : empty ≤ bytes := by
  exact not_lt.mp (List.not_lt_nil bytes.data)

theorem size_toNat (bytes : Bytes) : bytes.size.toNat = bytes.data.length := by
  have := bytes.size_lt
  rw [size, UInt64.toNat_ofNat']
  omega

/-- The sum of two sizes does not wrap around. -/
theorem size_add_toNat (l r : Bytes) :
    (l.size + r.size).toNat = l.data.length + r.data.length := by
  have := l.size_lt
  have := r.size_lt
  rw [UInt64.toNat_add, size_toNat, size_toNat]
  omega

end Bytes

end tupl
