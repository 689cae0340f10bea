import Mathlib.Logic.Function.Basic
import TuplNative.Failure

namespace tupl.pvt

/-- A stack in an array of `N` slots. `mTop` counts from the first slot, so it starts
at `-1`, one before the array. A slot without a live object is `none`. -/
structure ArrayStackGeneric (T : Type) (N : UInt64) where
  mTop : Int
  mElems : Int → Option T

namespace ArrayStackGeneric

variable {T : Type} {N : UInt64}

/-- `ArrayStackGeneric::ArrayStackGeneric`. -/
def construct : ArrayStackGeneric T N := ⟨-1, fun _ => none⟩

/-- `assert(!call())`, which does not make the call when `NDEBUG` is defined. -/
def assertNot {σ : Type} (ndebug : Bool) (call : Call Failure σ Bool) : Call Failure σ Unit :=
  if ndebug then pure () else do assert ndebug (¬ (← call) = true)

def empty (ndebug : Bool) : Call Failure (ArrayStackGeneric T N) Bool := do
  let stack ← get
  assert ndebug (stack.mTop = -1)
  return decide (stack.mTop ≤ -1)

def full (ndebug : Bool) : Call Failure (ArrayStackGeneric T N) Bool := do
  let stack ← get
  assert ndebug (stack.mTop = N.toNat - 1)
  return decide (stack.mTop ≥ N.toNat - 1)

/-- The difference of the two pointers, converted to a `size_t`. -/
def size (stack : ArrayStackGeneric T N) : UInt64 := UInt64.ofInt (N.toNat - stack.mTop - 1)

def emplaceBack (ndebug : Bool) (val : T) : Call Failure (ArrayStackGeneric T N) Unit := do
  assertNot ndebug (full (T := T) (N := N) ndebug)
  let stack ← get
  let insAt := stack.mTop + 1
  set ({ mTop := insAt, mElems := Function.update stack.mElems insAt (some val) } :
    ArrayStackGeneric T N)

/-- The object that `top()` refers to, if there is a live one. -/
def top (ndebug : Bool) : Call Failure (ArrayStackGeneric T N) (Option T) := do
  assertNot ndebug (empty ndebug)
  let stack ← get
  return stack.mElems stack.mTop

def pop (ndebug : Bool) : Call Failure (ArrayStackGeneric T N) Unit := do
  assertNot ndebug (empty ndebug)
  let stack ← get
  let top := stack.mTop
  set ({ mTop := top - 1, mElems := Function.update stack.mElems top none } : ArrayStackGeneric T N)

/-- The loop of `clear`. -/
def clearLoop (ndebug : Bool) : Nat → Call Failure (ArrayStackGeneric T N) Unit
  | 0 => throw .stackOverflow
  | rounds + 1 => do
    if ¬ (← empty ndebug) = true then
      pop ndebug
      clearLoop ndebug rounds

/-- `clear`. Every round brings `mTop` down by one, so the rounds are bounded. -/
def clear (ndebug : Bool) : Call Failure (ArrayStackGeneric T N) Unit := do
  let stack ← get
  clearLoop ndebug ((stack.mTop + 1).toNat + 1)

end ArrayStackGeneric

end tupl.pvt
