import Mathlib.Logic.Basic

/-- A call that works on a state of type `σ` and may fail with an `ε`. What was
written before the failure stays written, as it does when a C++ exception
leaves a function. -/
abbrev Call (ε σ α : Type) : Type := ExceptT ε (StateM σ) α

namespace Call

variable {ε σ α β : Type}

/-- The outcome of a call from a given state, with the state it leaves behind. -/
def exec (call : Call ε σ α) (s : σ) : Except ε α × σ := call.run.run s

@[simp] theorem exec_pure (a : α) (s : σ) : exec (pure a : Call ε σ α) s = (.ok a, s) := rfl

@[simp] theorem exec_throw (e : ε) (s : σ) : exec (throw e : Call ε σ α) s = (.error e, s) := rfl

@[simp] theorem exec_set (s s' : σ) : exec (set s' : Call ε σ PUnit) s = (.ok ⟨⟩, s') := rfl

theorem exec_bind (call : Call ε σ α) (next : α → Call ε σ β) (s : σ) :
    exec (call >>= next) s =
      match exec call s with
      | (.ok a, s') => exec (next a) s'
      | (.error e, s') => (.error e, s') := by
  simp only [exec, ExceptT.run_bind, StateT.run_bind]
  rcases call.run.run s with ⟨_ | _, _⟩ <;> rfl

theorem exec_map (call : Call ε σ α) (f : α → β) (s : σ) :
    exec (f <$> call) s =
      match exec call s with
      | (.ok a, s') => (.ok (f a), s')
      | (.error e, s') => (.error e, s') := by
  simp only [exec, ExceptT.run_map, StateT.run_map]
  rcases call.run.run s with ⟨_ | _, _⟩ <;> rfl

/-- Sequencing after a call that returned. -/
theorem exec_bind_ok {call : Call ε σ α} {next : α → Call ε σ β} {s s' : σ} {a : α}
    (h : exec call s = (.ok a, s')) : exec (call >>= next) s = exec (next a) s' := by
  rw [exec_bind, h]

/-- Sequencing after a call that failed. -/
theorem exec_bind_error {call : Call ε σ α} {next : α → Call ε σ β} {s s' : σ} {e : ε}
    (h : exec call s = (.error e, s')) : exec (call >>= next) s = (.error e, s') := by
  rw [exec_bind, h]

/-- A sequence of two calls that returned. -/
theorem exec_bind_eq_ok {call : Call ε σ α} {next : α → Call ε σ β} {s s'' : σ} {b : β} :
    exec (call >>= next) s = (.ok b, s'') ↔
      ∃ a s', exec call s = (.ok a, s') ∧ exec (next a) s' = (.ok b, s'') := by
  rw [exec_bind]
  rcases exec call s with ⟨_ | a, s'⟩
  · simp
  · constructor
    · exact fun hnext => ⟨a, s', rfl, hnext⟩
    · rintro ⟨_, _, hcall, hnext⟩
      cases hcall
      exact hnext

@[simp] theorem exec_get_bind (next : σ → Call ε σ β) (s : σ) :
    exec (get >>= next) s = exec (next s) s := rfl

@[simp] theorem exec_set_bind (s s' : σ) (next : PUnit → Call ε σ β) :
    exec (set s' >>= next) s = exec (next ⟨⟩) s' := rfl

@[simp] theorem exec_modify_bind (f : σ → σ) (next : PUnit → Call ε σ β) (s : σ) :
    exec (modify f >>= next) s = exec (next ⟨⟩) (f s) := rfl

@[simp] theorem exec_throw_bind (e : ε) (next : α → Call ε σ β) (s : σ) :
    exec ((throw e : Call ε σ α) >>= next) s = (.error e, s) := rfl

/-- Whenever the call ends in one of the given outcomes, it leaves the state as it was. -/
def Unchanged (call : Call ε σ α) (outcomes : Except ε α → Prop) : Prop :=
  ∀ s, outcomes (call.exec s).1 → (call.exec s).2 = s

/-- A call on a part of the state, which fails with `missing` if the part is not
there. -/
def zoom {τ : Type} (view : σ → Option τ) (put : τ → σ → σ) (missing : ε) (call : Call ε τ α) :
    Call ε σ α := do
  let s ← get
  match view s with
  | none => throw missing
  | some part =>
    let (outcome, part) := call.exec part
    set (put part s)
    MonadExcept.ofExcept outcome

theorem exec_zoom {τ : Type} {view : σ → Option τ} {put : τ → σ → σ} {missing : ε} {call : Call ε τ α}
    {s : σ} {part : τ} (hview : view s = some part) :
    exec (zoom view put missing call) s = ((exec call part).1, put (exec call part).2 s) := by
  unfold zoom
  rw [exec_get_bind, hview]
  dsimp only
  generalize exec call part = result
  obtain ⟨outcome, part'⟩ := result
  cases outcome <;> rfl

/-- A call on a part of the state that is always there, with its own failures. -/
def within {τ ε' : Type} (view : σ → τ) (put : τ → σ → σ) (wrap : ε' → ε) (call : Call ε' τ α) :
    Call ε σ α := do
  let s ← get
  let (outcome, part) := call.exec (view s)
  set (put part s)
  match outcome with
  | .ok a => return a
  | .error e => throw (wrap e)

theorem exec_within {τ ε' : Type} {view : σ → τ} {put : τ → σ → σ} {wrap : ε' → ε} {call : Call ε' τ α}
    {s : σ} :
    exec (within view put wrap call) s =
      match exec call (view s) with
      | (.ok a, part) => (.ok a, put part s)
      | (.error e, part) => (.error (wrap e), put part s) := by
  unfold within
  rw [exec_get_bind]
  rcases exec call (view s) with ⟨_ | _, _⟩ <;> rfl

theorem exec_within_ok {τ ε' : Type} {view : σ → τ} {put : τ → σ → σ} {wrap : ε' → ε} {call : Call ε' τ α}
    {s : σ} {part : τ} {a : α} (h : exec call (view s) = (.ok a, part)) :
    exec (within view put wrap call) s = (.ok a, put part s) := by
  rw [exec_within, h]

theorem exec_within_error {τ ε' : Type} {view : σ → τ} {put : τ → σ → σ} {wrap : ε' → ε}
    {call : Call ε' τ α} {s : σ} {part : τ} {e : ε'} (h : exec call (view s) = (.error e, part)) :
    exec (within view put wrap call) s = (.error (wrap e), put part s) := by
  rw [exec_within, h]

/-- A call in a scope. What the scope does at its end is done when the call returns and
when an exception leaves it, but not when the program ends there. -/
def inScope (isException : ε → Bool) (leave : σ → σ) (call : Call ε σ α) : Call ε σ α := do
  let s ← get
  let (outcome, s) := call.exec s
  match outcome with
  | .ok a =>
    set (leave s)
    return a
  | .error e =>
    set (if isException e then leave s else s)
    throw e

theorem exec_inScope_ok {isException : ε → Bool} {leave : σ → σ} {call : Call ε σ α} {s s' : σ} {a : α}
    (h : exec call s = (.ok a, s')) : exec (inScope isException leave call) s = (.ok a, leave s') := by
  unfold inScope
  rw [exec_get_bind, h]
  rfl

theorem exec_inScope_exception {isException : ε → Bool} {leave : σ → σ} {call : Call ε σ α} {s s' : σ}
    {e : ε} (h : exec call s = (.error e, s')) (he : isException e = true) :
    exec (inScope isException leave call) s = (.error e, leave s') := by
  unfold inScope
  rw [exec_get_bind, h]
  dsimp only
  rw [if_pos he]
  rfl

theorem exec_inScope_aborted {isException : ε → Bool} {leave : σ → σ} {call : Call ε σ α} {s s' : σ}
    {e : ε} (h : exec call s = (.error e, s')) (he : isException e = false) :
    exec (inScope isException leave call) s = (.error e, s') := by
  unfold inScope
  rw [exec_get_bind, h]
  dsimp only
  rw [if_neg (by rw [he]; exact Bool.false_ne_true)]
  rfl

/-- Where the call returns or throws, its scope is left. -/
theorem exec_inScope_leaves {isException : ε → Bool} {leave : σ → σ} {call : Call ε σ α} {s s' : σ}
    {outcome : Except ε α} (h : exec call s = (outcome, s'))
    (hexception : ∀ e, outcome = .error e → isException e = true) :
    exec (inScope isException leave call) s = (outcome, leave s') := by
  cases outcome with
  | ok a => exact exec_inScope_ok h
  | error e => exact exec_inScope_exception h (hexception e rfl)

/-- The orders in which two arguments may be evaluated that are calls themselves.
Neither call is interleaved with the other. -/
inductive ArgumentOrder where
  | leftFirst
  | rightFirst
deriving DecidableEq, Repr

/-- Two arguments, evaluated in the given order. -/
def arguments (order : ArgumentOrder) (left : Call ε σ α) (right : Call ε σ β) : Call ε σ (α × β) :=
  match order with
  | .leftFirst => do
    let a ← left
    let b ← right
    return (a, b)
  | .rightFirst => do
    let b ← right
    let a ← left
    return (a, b)

theorem exec_arguments_leftFirst {left : Call ε σ α} {right : Call ε σ β} {s s' s'' : σ} {a : α} {b : β}
    (hleft : exec left s = (.ok a, s')) (hright : exec right s' = (.ok b, s'')) :
    exec (arguments .leftFirst left right) s = (.ok (a, b), s'') := by
  rw [arguments, exec_bind_ok hleft, exec_bind_ok hright]
  rfl

theorem exec_arguments_rightFirst {left : Call ε σ α} {right : Call ε σ β} {s s' s'' : σ} {a : α} {b : β}
    (hright : exec right s = (.ok b, s')) (hleft : exec left s' = (.ok a, s'')) :
    exec (arguments .rightFirst left right) s = (.ok (a, b), s'') := by
  rw [arguments, exec_bind_ok hright, exec_bind_ok hleft]
  rfl

end Call
