import TuplNative.Call

namespace tupl

/-- How a call can end other than by returning. -/
inductive Failure where
  | invalidArgument (what : String)
  | domainError (what : String)
  /-- A failed `assert` aborts the program. -/
  | assertion
  /-- A null pointer was dereferenced, which is undefined behaviour. -/
  | nullDereference
  /-- The recursion does not end. -/
  | stackOverflow
deriving DecidableEq, Repr

/-- Whether a caller can catch the failure and go on with the state it left. -/
def Failure.isException : Failure → Bool
  | .invalidArgument _ => true
  | .domainError _ => true
  | .assertion => false
  | .nullDereference => false
  | .stackOverflow => false

/-- The call ended with an exception. -/
def Thrown {α : Type} (outcome : Except Failure α) : Prop :=
  ∃ failure, outcome = .error failure ∧ failure.isException = true

/-- The `assert` macro, which checks nothing when `NDEBUG` is defined. -/
def assert {σ : Type} (ndebug : Bool) (p : Prop) [Decidable p] : Call Failure σ Unit :=
  if ndebug = true ∨ p then pure () else throw .assertion

/-- The pointee's address of a pointer that may be null. -/
def dereference {σ α : Type} : Option α → Call Failure σ α
  | some address => pure address
  | none => throw .nullDereference

theorem exec_assert {σ : Type} (ndebug : Bool) {p : Prop} [Decidable p] (hp : p) (s : σ) :
    (assert ndebug p).exec s = (.ok (), s) := by
  rw [assert, if_pos (Or.inr hp)]
  rfl

/-- With `NDEBUG` defined, an `assert` does nothing. -/
theorem exec_assert_ndebug {σ : Type} (p : Prop) [Decidable p] (s : σ) :
    (assert true p).exec s = (.ok (), s) := by
  rw [assert, if_pos (Or.inl rfl)]
  rfl

theorem exec_assert_false {σ : Type} {p : Prop} [Decidable p] (hp : ¬ p) (s : σ) :
    (assert false p).exec s = (.error .assertion, s) := by
  rw [assert, if_neg (by simpa using hp)]
  rfl

@[simp] theorem exec_dereference_bind {σ α β : Type} (address : α) (next : α → Call Failure σ β)
    (s : σ) :
    (dereference (some address) >>= next).exec s = (next address).exec s := rfl

end tupl
